import MinCorehdr.Emitter.Layout
import Mathlib.Data.List.Dedup
import Mathlib.Data.List.Sort

/-!
# Runs of a type set

What a sequence of additions leaves in a set, what the iteration yields from any
cursor, and why the buffers sized by the counter hold what it yields.
-/

namespace MinCorehdr

open Support.Result

/-- The set after these calls of `mch_type_set_add`. -/
def addAll (set : TypeSet) (ids : List Nat) : TypeSet :=
  ids.foldl (fun set id => (mchTypeSetAdd set id).1) set

theorem count_addAll (ids : List Nat) : ∀ set : TypeSet, (addAll set ids).count = set.count := by
  induction ids with
  | nil => exact fun _ => rfl
  | cons id rest ih =>
      intro set
      calc (addAll set (id :: rest)).count = (mchTypeSetAdd set id).1.count := ih _
        _ = set.count := count_mchTypeSetAdd set id

theorem contains_addAll (ids : List Nat) (id : Nat) : ∀ set : TypeSet,
    mchTypeSetContains (addAll set ids) id = true ↔
      mchTypeSetContains set id = true ∨ id < set.count ∧ id ∈ ids := by
  induction ids with
  | nil => simp [addAll]
  | cons first rest ih =>
      intro set
      have hrest := ih (mchTypeSetAdd set first).1
      have hfirst := contains_mchTypeSetAdd set first id
      rw [count_mchTypeSetAdd] at hrest
      have hcons : addAll set (first :: rest) = addAll (mchTypeSetAdd set first).1 rest := rfl
      rw [hcons, hrest, hfirst, List.mem_cons]
      constructor
      · rintro ((hold | ⟨heq, hlt⟩) | ⟨hlt, hmem⟩)
        · exact Or.inl hold
        · exact Or.inr ⟨by omega, Or.inl heq⟩
        · exact Or.inr ⟨hlt, Or.inr hmem⟩
      · rintro (hold | ⟨hlt, heq | hmem⟩)
        · exact Or.inl (Or.inl hold)
        · exact Or.inl (Or.inr ⟨heq, by omega⟩)
        · exact Or.inr ⟨hlt, hmem⟩

section Init

variable {n : Nat} {ids : List Nat}

theorem count_addAll_init (n : Nat) (ids : List Nat) : (addAll (mchTypeSetInit n) ids).count = n :=
  count_addAll ids (mchTypeSetInit n)

theorem contains_addAll_init {id : Nat} :
    mchTypeSetContains (addAll (mchTypeSetInit n) ids) id = true ↔ id < n ∧ id ∈ ids := by
  rw [contains_addAll, contains_mchTypeSetInit]
  simp [mchTypeSetInit]

/-- The counter is the number of different ids that fit. -/
theorem selected_addAll_init :
    (addAll (mchTypeSetInit n) ids).selected = ((ids.filter (· < n)).dedup).length := by
  rw [(addAll (mchTypeSetInit n) ids).selected_eq, List.countP_eq_length_filter, count_addAll_init]
  apply List.Perm.length_eq
  apply (List.perm_ext_iff_of_nodup (List.nodup_range.filter _) (List.nodup_dedup _)).mpr
  intro id
  rw [List.mem_filter, List.mem_range, testBit_eq_contains, contains_addAll_init, List.mem_dedup,
    List.mem_filter, decide_eq_true_eq]
  constructor
  · exact fun h => ⟨h.2.2, h.1⟩
  · exact fun h => ⟨h.2, h.2, h.1⟩

theorem mchTypeSetAdd_addAll_init {id : Nat} :
    (mchTypeSetAdd (addAll (mchTypeSetInit n) ids) id).2 = true ↔ id < n ∧ id ∉ ids := by
  rw [mchTypeSetAdd_snd, count_addAll_init, ← Bool.not_eq_true, contains_addAll_init]
  constructor
  · exact fun h => ⟨h.1, fun hmem => h.2 ⟨h.1, hmem⟩⟩
  · exact fun h => ⟨h.1, fun hboth => h.2 hboth.2⟩

end Init

/-! ## Draining -/

/-- Calling `mch_type_set_next` again and again from the cursor yields the ids, and then
false. -/
inductive Drains (set : TypeSet) : Nat → List Nat → Prop
  | stop {cursor next : Nat} : mchTypeSetNext set cursor = (none, next) → Drains set cursor []
  | yield {cursor next id : Nat} {ids : List Nat} : mchTypeSetNext set cursor = (some id, next) →
      Drains set next ids → Drains set cursor (id :: ids)

section Drain

variable {set : TypeSet} {cursor : Nat} {ids : List Nat}

theorem Drains.unique (h : Drains set cursor ids) :
    ∀ {ids' : List Nat}, Drains set cursor ids' → ids = ids' := by
  induction h with
  | stop hnext =>
      intro ids' h'
      cases h' with
      | stop _ => rfl
      | yield hnext' _ =>
          rw [hnext] at hnext'
          cases hnext'
  | yield hnext _ ih =>
      intro ids' h'
      cases h' with
      | stop hnext' =>
          rw [hnext] at hnext'
          cases hnext'
      | yield hnext' hrest =>
          rw [hnext] at hnext'
          cases hnext'
          rw [ih hrest]

/-- The loops of the program are drains. -/
theorem drains_mchTypeSetIds {fuel : Nat} : ∀ {cursor : Nat}, set.count < cursor + fuel →
    Drains set cursor (mchTypeSetIds set fuel cursor) := by
  induction fuel with
  | zero =>
      intro cursor hfuel
      apply Drains.stop
      · rw [mchTypeSetNext, if_pos (show set.count ≤ cursor by omega)]
  | succ fuel ih =>
      intro cursor hfuel
      rw [mchTypeSetIds]
      split
      next found next hnext =>
        obtain ⟨hle, _, rfl, _⟩ := mchTypeSetNext_some hnext
        exact Drains.yield hnext (ih (by omega))
      next next hnext => exact Drains.stop hnext

/-- A drain is the members from the cursor on, in increasing order. -/
theorem drains_iff : Drains set cursor ids ↔ ids = (List.range set.count).filter
    (fun id => cursor ≤ id ∧ mchTypeSetContains set id = true) := by
  have hdrain : Drains set cursor (mchTypeSetIds set (set.count + 1) cursor) :=
    drains_mchTypeSetIds (by omega)
  have heq : mchTypeSetIds set (set.count + 1) cursor = (List.range set.count).filter
      (fun id => cursor ≤ id ∧ mchTypeSetContains set id = true) := by
    apply mchTypeSetIds_sorted.1.eq_of_mem_iff (List.pairwise_lt_range.filter _)
    intro id
    rw [mem_mchTypeSetIds (by omega), List.mem_filter, List.mem_range, decide_eq_true_eq]
    constructor
    · exact fun h => ⟨lt_count_of_contains h.2, h⟩
    · exact fun h => h.2
  rw [heq] at hdrain
  constructor
  · exact fun h => h.unique hdrain
  · rintro rfl
    exact hdrain

/-- A drain yields at most as many ids as the counter says. -/
theorem Drains.length_le (h : Drains set cursor ids) : ids.length ≤ set.selected := by
  rw [drains_iff.mp h, set.selected_eq, List.countP_eq_length_filter]
  apply List.Sublist.length_le
  apply List.monotone_filter_right
  intro id hid
  rw [testBit_eq_contains]
  exact (of_decide_eq_true hid).2

end Drain

/-- No group holds more ids than were handed out. -/
theorem addToGroups_length_le {ctx : EmitCtx} {ids : List Nat} {groups : EmitGroups}
    (h : ids.foldlM (addToGroups ctx) {} = .ok groups) :
    groups.fwds.length ≤ ids.length ∧ groups.enums.length ≤ ids.length ∧
      groups.records.length ≤ ids.length ∧ groups.typedefs.length ≤ ids.length := by
  obtain ⟨_, hfwds, henums, hrecords, htypedefs⟩ := collectEmitGroups_eq h
  rw [hfwds, henums, hrecords, htypedefs]
  simp only [List.nil_append]
  exact ⟨List.length_filter_le _ _, List.length_filter_le _ _, List.length_filter_le _ _,
    List.length_filter_le _ _⟩

end MinCorehdr
