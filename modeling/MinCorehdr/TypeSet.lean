import Mathlib.Data.Set.Basic
import MinCorehdr.Support.Bitset

/-!
# Type sets

`struct mch_type_set`: a fixed-capacity set of type ids with a counter.  The
fields after the data keep the words, the capacity and the counter in step, so
that every value of the type is one the program can build.
-/

namespace MinCorehdr

open Support.Bitset

structure TypeSet where
  words : Words
  count : Nat
  wordCount : Nat
  selected : Nat
  wordCount_eq : wordCount = wordsFor count
  length_words : words.length = wordCount
  lt_of_testBit : ∀ id, testBit words id = true → id < count
  selected_eq : selected = (List.range count).countP (testBit words)

def mchTypeSetInit (count : Nat) : TypeSet where
  words := List.replicate (wordsFor count) 0#64
  count := count
  wordCount := wordsFor count
  selected := 0
  wordCount_eq := rfl
  length_words := length_zeroWords count
  lt_of_testBit := by
    intro id h
    rw [testBit_replicate] at h
    cases h
  selected_eq := by
    have hnone : testBit (List.replicate (wordsFor count) 0#64) = fun _ => false :=
      funext (testBit_replicate _)
    simp [hnone]

def mchTypeSetContains (set : TypeSet) (id : Nat) : Bool :=
  if set.count ≤ id then false else testBit set.words id

theorem testBit_eq_contains (set : TypeSet) (id : Nat) :
    testBit set.words id = mchTypeSetContains set id := by
  unfold mchTypeSetContains
  split
  next hle =>
    by_contra hset
    have hlt := set.lt_of_testBit id (by simpa using hset)
    omega
  next => rfl

@[simp] theorem contains_mchTypeSetInit (n id : Nat) :
    mchTypeSetContains (mchTypeSetInit n) id = false := by
  rw [← testBit_eq_contains]
  exact testBit_replicate _ id

theorem lt_count_of_contains {set : TypeSet} {id : Nat}
    (h : mchTypeSetContains set id = true) : id < set.count := by
  rw [← testBit_eq_contains] at h
  exact set.lt_of_testBit id h

theorem wordIndex_lt (set : TypeSet) {id : Nat} (h : id < set.count) :
    id / 64 < set.words.length := by
  rw [set.length_words, set.wordCount_eq]
  exact div_lt_wordsFor h

/-- One fresh member raises the number of members below the capacity by one. -/
theorem countP_setBit {words : Words} {count id : Nat} (hid : id < count)
    (hword : id / 64 < words.length) (hclear : testBit words id = false) :
    (List.range count).countP (testBit (setBit words id)) =
      (List.range count).countP (testBit words) + 1 := by
  have hsplit : ∀ n, (List.range n).countP (testBit (setBit words id)) =
      (List.range n).countP (testBit words) + if id < n then 1 else 0 := by
    intro n
    induction n with
    | zero => simp
    | succ n ih =>
        rw [List.range_succ, List.countP_append, List.countP_append, ih]
        simp only [List.countP_singleton, testBit_setBit words id n hword]
        by_cases hn : n = id
        · subst hn
          simp [hclear]
        · have hlt : id < n + 1 ↔ id < n := by omega
          simp only [hn, decide_false, Bool.false_or, hlt]
          omega
  rw [hsplit count, if_pos hid]

/-- Add `id`; the flag says whether it was new.  Ids at or above the capacity
are ignored. -/
def mchTypeSetAdd (set : TypeSet) (id : Nat) : TypeSet × Bool :=
  if hid : id < set.count then
    if hclear : testBit set.words id = false then
      ({ set with
          words := setBit set.words id
          selected := set.selected + 1
          length_words := by rw [length_setBit, set.length_words]
          lt_of_testBit := by
            intro j hj
            rw [testBit_setBit set.words id j (wordIndex_lt set hid), Bool.or_eq_true] at hj
            rcases hj with hj | hj
            · rw [of_decide_eq_true hj]
              exact hid
            · exact set.lt_of_testBit j hj
          selected_eq := by
            rw [countP_setBit hid (wordIndex_lt set hid) hclear, ← set.selected_eq] },
        true)
    else
      (set, false)
  else
    (set, false)

@[simp] theorem count_mchTypeSetAdd (set : TypeSet) (id : Nat) :
    (mchTypeSetAdd set id).1.count = set.count := by
  unfold mchTypeSetAdd
  split
  · split <;> rfl
  · rfl

theorem contains_mchTypeSetAdd (set : TypeSet) (id j : Nat) :
    mchTypeSetContains (mchTypeSetAdd set id).1 j = true ↔
      mchTypeSetContains set j = true ∨ j = id ∧ id < set.count := by
  rw [← testBit_eq_contains, ← testBit_eq_contains]
  unfold mchTypeSetAdd
  split
  next hid =>
    split
    next hclear =>
      change testBit (setBit set.words id) j = true ↔ _
      rw [testBit_setBit set.words id j (wordIndex_lt set hid)]
      simp only [Bool.or_eq_true, decide_eq_true_eq, hid, and_true]
      exact or_comm
    next hset =>
      constructor
      · exact Or.inl
      · rintro (h | ⟨rfl, _⟩)
        · exact h
        · simpa using hset
  next hid =>
    simp [hid]

/-- The flag of `mchTypeSetAdd` is raised exactly on a first insertion. -/
theorem mchTypeSetAdd_snd (set : TypeSet) (id : Nat) :
    (mchTypeSetAdd set id).2 = true ↔ id < set.count ∧ mchTypeSetContains set id = false := by
  rw [← testBit_eq_contains]
  unfold mchTypeSetAdd
  split
  next hid => split <;> simp_all
  next hid => simp [hid]

theorem mchTypeSetAdd_of_snd_false {set : TypeSet} {id : Nat}
    (h : (mchTypeSetAdd set id).2 = false) : (mchTypeSetAdd set id).1 = set := by
  unfold mchTypeSetAdd at h ⊢
  split at h
  next hid =>
    split at h
    next => cases h
    next hset => rw [dif_pos hid, dif_neg hset]
  next hid => rw [dif_neg hid]

/-- A type set is determined by its capacity and its members. -/
theorem TypeSet.ext_contains {left right : TypeSet} (hcount : left.count = right.count)
    (h : ∀ id, mchTypeSetContains left id = mchTypeSetContains right id) : left = right := by
  have hwords : left.words = right.words := by
    apply ext_testBit
    · rw [left.length_words, right.length_words, left.wordCount_eq, right.wordCount_eq, hcount]
    · intro id
      rw [testBit_eq_contains, testBit_eq_contains, h id]
  obtain ⟨words, count, wordCount, selected, hwc, hlen, hlt, hsel⟩ := left
  obtain ⟨words', count', wordCount', selected', hwc', hlen', hlt', hsel'⟩ := right
  subst hcount hwords
  have hselected : selected = selected' := by rw [hsel, hsel']
  have hwordCount : wordCount = wordCount' := by rw [hwc, hwc']
  subst hselected hwordCount
  rfl

/-- The members of a set other than void. -/
def TypeSet.ids (set : TypeSet) : Set Nat := { id | id ≠ 0 ∧ mchTypeSetContains set id = true }

theorem TypeSet.mem_ids {set : TypeSet} {id : Nat} :
    id ∈ set.ids ↔ id ≠ 0 ∧ mchTypeSetContains set id = true := Iff.rfl

/-! ## Iteration -/

/-- The first member at or after `cursor`, and where the next search starts. -/
def mchTypeSetNext (set : TypeSet) (cursor : Nat) : Option Nat × Nat :=
  if set.count ≤ cursor then
    (none, cursor)
  else
    let wordIndex := cursor >>> 6
    let word := set.words.getD wordIndex 0#64 &&& (BitVec.allOnes 64 <<< (cursor &&& 63))
    match scanWords wordIndex word (set.words.drop (wordIndex + 1)) with
    | some found => if set.count ≤ found then (none, cursor) else (some found, found + 1)
    | none => (none, set.count)

/-- `while (mch_type_set_next(set, &cursor, &id))`, collecting the ids. -/
def mchTypeSetIds (set : TypeSet) : Nat → Nat → List Nat
  | 0, _ => []
  | fuel + 1, cursor =>
      match mchTypeSetNext set cursor with
      | (some id, cursor) => id :: mchTypeSetIds set fuel cursor
      | (none, _) => []

/-- The bits the search starting at `cursor` sees: those of the set, less the
ones below `cursor` in its word. -/
theorem testBit_from_cursor (set : TypeSet) (cursor i : Nat) (hcursor : cursor < set.count) :
    testBit ((set.words.getD (cursor / 64) 0#64 &&& (BitVec.allOnes 64 <<< (cursor % 64))) ::
        set.words.drop (cursor / 64 + 1)) i =
      (decide (cursor ≤ cursor / 64 * 64 + i) && testBit set.words (cursor / 64 * 64 + i)) := by
  have hword := wordIndex_lt set hcursor
  by_cases hi : i < 64
  · rw [testBit_cons_lt hi, testBit_eq, BitVec.getLsbD_and, BitVec.getLsbD_shiftLeft,
      show (cursor / 64 * 64 + i) / 64 = cursor / 64 by omega,
      show (cursor / 64 * 64 + i) % 64 = i by omega]
    by_cases hle : cursor % 64 ≤ i
    · have hge : cursor ≤ cursor / 64 * 64 + i := by omega
      have hones : (BitVec.allOnes 64).getLsbD (i - cursor % 64) = true := by
        rw [BitVec.getLsbD_allOnes]
        exact decide_eq_true (by omega)
      rw [hones, decide_eq_true hge, decide_eq_true hi, decide_eq_false (Nat.not_lt.mpr hle)]
      simp
    · have hlt : ¬cursor ≤ cursor / 64 * 64 + i := by omega
      simp [hlt, Nat.not_le.mp hle]
  · obtain ⟨k, rfl⟩ := Nat.exists_eq_add_of_le (Nat.not_lt.mp hi)
    have hge : cursor ≤ cursor / 64 * 64 + (64 + k) := by omega
    rw [testBit_cons_add, testBit_eq, testBit_eq, decide_eq_true hge, Bool.true_and,
      show (cursor / 64 * 64 + (64 + k)) / 64 = cursor / 64 + 1 + k / 64 by omega,
      show (cursor / 64 * 64 + (64 + k)) % 64 = k % 64 by omega,
      List.getD_eq_getElem?_getD, List.getD_eq_getElem?_getD, List.getElem?_drop]

theorem mchTypeSetNext_some {set : TypeSet} {cursor id next : Nat}
    (h : mchTypeSetNext set cursor = (some id, next)) :
    cursor ≤ id ∧ mchTypeSetContains set id = true ∧ next = id + 1 ∧
      ∀ j, cursor ≤ j → j < id → mchTypeSetContains set j = false := by
  unfold mchTypeSetNext at h
  split at h
  next => cases h
  next hcursor =>
    simp only [shiftRight_six, and_sixtyThree] at h
    split at h
    next found hscan =>
      split at h
      next => cases h
      next hfound =>
        obtain ⟨i, hi, hset, hmin⟩ := scanWords_eq_some _ _ _ _ hscan
        have hcursor' : cursor < set.count := Nat.not_le.mp hcursor
        rw [testBit_from_cursor set cursor i hcursor', Bool.and_eq_true, ← hi] at hset
        cases h
        refine ⟨of_decide_eq_true hset.1, ?_, rfl, ?_⟩
        · rw [← testBit_eq_contains]
          exact hset.2
        · intro j hj hlt
          have hjmin := hmin (j - cursor / 64 * 64) (by omega)
          rw [testBit_from_cursor set cursor _ hcursor',
            show cursor / 64 * 64 + (j - cursor / 64 * 64) = j by omega,
            decide_eq_true hj, Bool.true_and, testBit_eq_contains] at hjmin
          exact hjmin
    next => cases h

theorem mchTypeSetNext_none {set : TypeSet} {cursor next : Nat}
    (h : mchTypeSetNext set cursor = (none, next)) :
    ∀ j, cursor ≤ j → mchTypeSetContains set j = false := by
  intro j hj
  by_contra hset
  have hjset : mchTypeSetContains set j = true := by simpa using hset
  have hjcount := lt_count_of_contains hjset
  unfold mchTypeSetNext at h
  rw [if_neg (by omega)] at h
  simp only [shiftRight_six, and_sixtyThree] at h
  have hcursor : cursor < set.count := by omega
  have hseen := testBit_from_cursor set cursor (j - cursor / 64 * 64) hcursor
  rw [show cursor / 64 * 64 + (j - cursor / 64 * 64) = j by omega, decide_eq_true hj,
    Bool.true_and, testBit_eq_contains, hjset] at hseen
  split at h
  next found hscan =>
    obtain ⟨i, hi, hset', _⟩ := scanWords_eq_some _ _ _ _ hscan
    rw [testBit_from_cursor set cursor i hcursor, Bool.and_eq_true, ← hi] at hset'
    have hfound := set.lt_of_testBit found hset'.2
    rw [if_neg (by omega)] at h
    cases h
  next hscan =>
    rw [scanWords_eq_none _ _ _ hscan] at hseen
    cases hseen

/-- Draining a set from `cursor` yields its members there, whatever the fuel as
long as it covers the capacity. -/
theorem mem_mchTypeSetIds {set : TypeSet} {fuel : Nat} :
    ∀ {cursor : Nat}, set.count ≤ cursor + fuel → ∀ id,
      id ∈ mchTypeSetIds set fuel cursor ↔ cursor ≤ id ∧ mchTypeSetContains set id = true := by
  induction fuel with
  | zero =>
      intro cursor hfuel id
      constructor
      · intro h
        cases h
      · rintro ⟨hle, hid⟩
        have := lt_count_of_contains hid
        omega
  | succ fuel ih =>
      intro cursor hfuel id
      rw [mchTypeSetIds]
      split
      next found next hnext =>
        obtain ⟨hle, hfound, rfl, hmin⟩ := mchTypeSetNext_some hnext
        rw [List.mem_cons, ih (by omega)]
        constructor
        · rintro (rfl | ⟨hid, hset⟩)
          · exact ⟨hle, hfound⟩
          · exact ⟨by omega, hset⟩
        · rintro ⟨hid, hset⟩
          rcases Nat.lt_trichotomy id found with hlt | heq | hgt
          · rw [hmin id hid hlt] at hset
            cases hset
          · exact Or.inl heq
          · exact Or.inr ⟨hgt, hset⟩
      next next hnext =>
        constructor
        · intro h
          cases h
        · rintro ⟨hid, hset⟩
          rw [mchTypeSetNext_none hnext id hid] at hset
          cases hset

theorem mchTypeSetIds_sorted {set : TypeSet} {fuel : Nat} :
    ∀ {cursor : Nat}, (mchTypeSetIds set fuel cursor).Pairwise (· < ·) ∧
      ∀ id ∈ mchTypeSetIds set fuel cursor, cursor ≤ id := by
  induction fuel with
  | zero =>
      intro cursor
      simp [mchTypeSetIds]
  | succ fuel ih =>
      intro cursor
      rw [mchTypeSetIds]
      split
      next found next hnext =>
        obtain ⟨hle, _, rfl, _⟩ := mchTypeSetNext_some hnext
        obtain ⟨hsorted, hge⟩ := @ih (found + 1)
        constructor
        · exact List.pairwise_cons.mpr ⟨fun id hid => hge id hid, hsorted⟩
        · intro id hid
          rcases List.mem_cons.mp hid with rfl | hid
          · exact hle
          · have := hge id hid
            omega
      next => simp

end MinCorehdr
