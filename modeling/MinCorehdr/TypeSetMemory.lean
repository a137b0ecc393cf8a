import MinCorehdr.Iteration

/-!
# Type sets in memory

The set as the code lays it out: an array of words whose number is computed in `size_t`, and
accesses that are undefined outside of it.  Up to a capacity of `2 ^ 64 - 64` the number does
not wrap, every access is inside, and the functions are those on `TypeSet`.  (The program's
capacities are numbers of types, which have 32 bits.)
-/

namespace MinCorehdr

open Support.Bitset

/-- `word_count_for_bits`, in `size_t`. -/
def wordCountForBits (count : Nat) : Nat :=
  if count = 0 then 1 else (count + 63) % 2 ^ 64 / 64

theorem wordCountForBits_eq_wordsFor {count : Nat} (h : count ≤ 2 ^ 64 - 64) :
    wordCountForBits count = wordsFor count := by
  unfold wordCountForBits wordsFor
  rw [Nat.mod_eq_of_lt (by omega)]

/-- `struct mch_type_set`, with what an allocation of that many words gives. -/
structure TypeSetMemory where
  words : Words
  count : Nat
  wordCount : Nat
  selected : Nat
  deriving DecidableEq

def TypeSetMemory.init (count : Nat) : TypeSetMemory where
  words := List.replicate (wordCountForBits count) 0#64
  count := count
  wordCount := wordCountForBits count
  selected := 0

/-- `set->words[word]`; `none` where the array ends before it. -/
def TypeSetMemory.read (set : TypeSetMemory) (word : Nat) : Option (BitVec 64) := set.words[word]?

def TypeSetMemory.contains (set : TypeSetMemory) (id : Nat) : Option Bool :=
  if set.count ≤ id then some false
  else do
    let word ← set.read (id >>> 6)
    some ((word &&& mask id) != 0#64)

def TypeSetMemory.add (set : TypeSetMemory) (id : Nat) : Option (TypeSetMemory × Bool) :=
  if set.count ≤ id then some (set, false)
  else do
    let word ← set.read (id >>> 6)
    if (word &&& mask id) != 0#64 then some (set, false)
    else some ({ set with words := setBit set.words id, selected := set.selected + 1 }, true)

/-- The loop reads only words below `word_count`, the first word is read before it. -/
def TypeSetMemory.next (set : TypeSetMemory) (cursor : Nat) : Option (Option Nat × Nat) :=
  if set.count ≤ cursor then some (none, cursor)
  else do
    let wordIndex := cursor >>> 6
    let first ← set.read wordIndex
    let word := first &&& (BitVec.allOnes 64 <<< (cursor &&& 63))
    match scanWords wordIndex word ((set.words.take set.wordCount).drop (wordIndex + 1)) with
    | some found => if set.count ≤ found then some (none, cursor) else some (some found, found + 1)
    | none => some (none, set.count)

/-- The set after these calls of `mch_type_set_add`. -/
def TypeSetMemory.addAll (set : TypeSetMemory) (ids : List Nat) : Option TypeSetMemory :=
  ids.foldlM (fun set id => (set.add id).map Prod.fst) set

/-! ## Inside the words -/

/-- A type set as it lies in memory. -/
def TypeSet.memory (set : TypeSet) : TypeSetMemory where
  words := set.words
  count := set.count
  wordCount := set.wordCount
  selected := set.selected

theorem memory_mchTypeSetInit {count : Nat} (h : count ≤ 2 ^ 64 - 64) :
    TypeSetMemory.init count = (mchTypeSetInit count).memory := by
  unfold TypeSetMemory.init TypeSet.memory mchTypeSetInit
  rw [wordCountForBits_eq_wordsFor h]

theorem TypeSet.read_memory (set : TypeSet) {id : Nat} (h : id < set.count) :
    set.memory.read (id >>> 6) = some (set.words.getD (id >>> 6) 0#64) := by
  have hword : id >>> 6 < set.words.length := by
    rw [shiftRight_six]
    exact wordIndex_lt set h
  change set.words[id >>> 6]? = _
  rw [List.getD_eq_getElem?_getD, List.getElem?_eq_getElem hword]
  rfl

theorem TypeSet.contains_memory (set : TypeSet) (id : Nat) :
    set.memory.contains id = some (mchTypeSetContains set id) := by
  unfold TypeSetMemory.contains mchTypeSetContains
  by_cases hle : set.count ≤ id
  · rw [if_pos (show set.memory.count ≤ id from hle), if_pos hle]
  · rw [if_neg (show ¬set.memory.count ≤ id from hle), if_neg hle,
      set.read_memory (Nat.not_le.mp hle)]
    rfl

theorem TypeSet.add_memory (set : TypeSet) (id : Nat) :
    set.memory.add id = some ((mchTypeSetAdd set id).1.memory, (mchTypeSetAdd set id).2) := by
  unfold TypeSetMemory.add mchTypeSetAdd
  by_cases hle : set.count ≤ id
  · rw [if_pos (show set.memory.count ≤ id from hle), dif_neg (Nat.not_lt.mpr hle)]
  · have hlt : id < set.count := Nat.not_le.mp hle
    rw [if_neg (show ¬set.memory.count ≤ id from hle), dif_pos hlt, set.read_memory hlt]
    change (if testBit set.words id = true then _ else _) = _
    by_cases hclear : testBit set.words id = false
    · rw [dif_pos hclear, if_neg (by rw [hclear]; exact Bool.false_ne_true)]
      rfl
    · rw [dif_neg hclear, if_pos (by simpa using hclear)]

theorem TypeSet.next_memory (set : TypeSet) (cursor : Nat) :
    set.memory.next cursor = some (mchTypeSetNext set cursor) := by
  unfold TypeSetMemory.next mchTypeSetNext
  by_cases hle : set.count ≤ cursor
  · rw [if_pos (show set.memory.count ≤ cursor from hle), if_pos hle]
  · rw [if_neg (show ¬set.memory.count ≤ cursor from hle), if_neg hle]
    dsimp only
    rw [set.read_memory (Nat.not_le.mp hle)]
    have hwhole : set.memory.words.take set.memory.wordCount = set.words := by
      change set.words.take set.wordCount = set.words
      rw [← set.length_words, List.take_length]
    simp only [Option.bind_eq_bind, Option.bind_some, hwhole]
    cases scanWords (cursor >>> 6)
        (set.words.getD (cursor >>> 6) 0#64 &&& (BitVec.allOnes 64 <<< (cursor &&& 63)))
        (set.words.drop (cursor >>> 6 + 1)) with
    | none => rfl
    | some found =>
        change (if set.count ≤ found then _ else _) = some (if set.count ≤ found then _ else _)
        split <;> rfl

/-- Within the capacities for which `size_t` does not wrap, every call stays inside the words. -/
theorem addAll_memory (ids : List Nat) : ∀ set : TypeSet,
    set.memory.addAll ids = some (addAll set ids).memory := by
  induction ids with
  | nil => exact fun _ => rfl
  | cons id rest ih =>
      intro set
      have hrest := ih (mchTypeSetAdd set id).1
      unfold TypeSetMemory.addAll at hrest ⊢
      rw [List.foldlM_cons, set.add_memory]
      exact hrest

/-- A set built by any additions holds exactly the ids below its capacity that were added and
counts them, an addition reports whether it was the first, a drain from any cursor yields the
members from there on in increasing order, and at every moment of the loops that fill the
worklist and the groups these hold at most `selected` ids.  No call leaves the words. -/
theorem mchTypeSet_faithful (n : Nat) (hn : n ≤ 2 ^ 64 - 64) (ids : List Nat) :
    let set := addAll (mchTypeSetInit n) ids
    (TypeSetMemory.init n).addAll ids = some set.memory ∧
    (∀ id, set.memory.contains id = some (mchTypeSetContains set id)) ∧
    (∀ id, set.memory.add id = some ((mchTypeSetAdd set id).1.memory, (mchTypeSetAdd set id).2)) ∧
    (∀ cursor, set.memory.next cursor = some (mchTypeSetNext set cursor)) ∧
    (∀ id, mchTypeSetContains set id = true ↔ id < n ∧ id ∈ ids) ∧
    set.selected = ((ids.filter (· < n)).dedup).length ∧
    (∀ id, (mchTypeSetAdd set id).2 = true ↔ id < n ∧ id ∉ ids) ∧
    (∀ cursor drained, Drains set cursor drained ↔
      drained = (List.range n).filter (fun id => cursor ≤ id ∧ id ∈ ids)) ∧
    (∀ cursor drained, Drains set cursor drained → drained.length ≤ set.selected) ∧
    Drains set 1 (mchTypeSetIds set (set.count + 1) 1) ∧
    ∀ ctx groups before, before <+: mchTypeSetIds set (set.count + 1) 1 →
      before.foldlM (addToGroups ctx) {} = .ok groups →
        groups.fwds.length ≤ set.selected ∧ groups.enums.length ≤ set.selected ∧
          groups.records.length ≤ set.selected ∧ groups.typedefs.length ≤ set.selected := by
  intro set
  have hloop : Drains set 1 (mchTypeSetIds set (set.count + 1) 1) :=
    drains_mchTypeSetIds (by omega)
  have hmemory : (TypeSetMemory.init n).addAll ids = some set.memory := by
    rw [memory_mchTypeSetInit hn]
    exact addAll_memory ids (mchTypeSetInit n)
  refine ⟨hmemory, set.contains_memory, set.add_memory, set.next_memory,
    fun id => contains_addAll_init, selected_addAll_init,
    fun id => mchTypeSetAdd_addAll_init, ?_, fun cursor drained h => h.length_le, hloop, ?_⟩
  · intro cursor drained
    rw [drains_iff, count_addAll_init]
    have hfilter : (List.range n).filter (fun id => cursor ≤ id ∧ mchTypeSetContains set id = true) =
        (List.range n).filter (fun id => cursor ≤ id ∧ id ∈ ids) := by
      apply List.filter_congr
      intro id hid
      have hmem : mchTypeSetContains set id = true ↔ id < n ∧ id ∈ ids := contains_addAll_init
      simp [hmem, List.mem_range.mp hid]
    rw [hfilter]
  · intro ctx groups before hpre hgroups
    have hbefore := Nat.le_trans hpre.length_le hloop.length_le
    obtain ⟨hfwds, henums, hrecords, htypedefs⟩ := addToGroups_length_le hgroups
    exact ⟨Nat.le_trans hfwds hbefore, Nat.le_trans henums hbefore, Nat.le_trans hrecords hbefore,
      Nat.le_trans htypedefs hbefore⟩

theorem mchTypeSet_faithful_twoWords :
    (TypeSetMemory.init 65).addAll [64, 3, 64, 70] =
        some (addAll (mchTypeSetInit 65) [64, 3, 64, 70]).memory ∧
      (∀ id, mchTypeSetContains (addAll (mchTypeSetInit 65) [64, 3, 64, 70]) id = true ↔
        id < 65 ∧ id ∈ [64, 3, 64, 70]) ∧
      ∀ cursor drained, Drains (addAll (mchTypeSetInit 65) [64, 3, 64, 70]) cursor drained ↔
        drained = (List.range 65).filter (fun id => cursor ≤ id ∧ id ∈ [64, 3, 64, 70]) := by
  obtain ⟨hmemory, _, _, _, hcontains, _, _, hdrains, _⟩ :=
    mchTypeSet_faithful 65 (by decide) [64, 3, 64, 70]
  exact ⟨hmemory, hcontains, hdrains⟩

/-- For the largest capacity the number of words wraps to 0, and adding the id 0 is outside
of them. -/
theorem fullCapacity_outOfWords : ¬∀ n < 2 ^ 64, ∀ ids : List Nat, ∃ set : TypeSetMemory,
    (TypeSetMemory.init n).addAll ids = some set ∧
      ∀ id, set.contains id = some (decide (id < n ∧ id ∈ ids)) := by
  intro hall
  obtain ⟨set, hset, _⟩ := hall (2 ^ 64 - 1) (by decide) [0]
  have hnone : (TypeSetMemory.init (2 ^ 64 - 1)).addAll [0] = none := by decide
  cases hnone.symm.trans hset

end MinCorehdr
