import MinCorehdr.Requirements
import MinCorehdr.Support.Worklist
import MinCorehdr.TypeSet

/-!
# The dependency closure

A first-in first-out worklist of type ids; every dependency that the required
set did not hold yet is added to both.
-/

namespace MinCorehdr

open Relation Support.Result

/-- `struct mch_closure_options`; the defaults stand for a missing one. -/
structure ClosureOptions where
  expandPointers : Bool := false
  requirements : Option Requirements := none

/-- The required set, the part of the worklist not yet read, and
`stats->added_types`. -/
structure ClosureState where
  required : TypeSet
  worklist : List Nat
  addedTypes : Nat

def addDep (btf : Btf) (state : ClosureState) (id : Nat) : Except Fault ClosureState :=
  if id = 0 then .ok state
  else if btfTypeCnt btf ≤ id then
    onError (mchErrorSetHint "input BTF appears internally inconsistent".toList)
      (fail ("BTF dependency references invalid type id ".toList ++ decimal id))
  else
    match mchTypeSetAdd state.required id with
    | (required, true) =>
        .ok { required, worklist := state.worklist ++ [id], addedTypes := state.addedTypes + 1 }
    | (required, false) => .ok { state with required }

/-- The ids `add_type_deps` passes to `add_dep`, in order. -/
def typeDeps (options : ClosureOptions) (typeId : Nat) (type : BtfType) : List Nat :=
  match type.kind with
  | .ptr => if options.expandPointers then [type.type] else []
  | .typedef | .volatile | .const | .restrict | .func | .var | .declTag | .typeTag => [type.type]
  | .array => [type.array.type, type.array.indexType]
  | .struct | .union => keptTypes (keepsMember options.requirements) typeId type
  | .funcProto => type.type :: type.params.map BtfParam.type
  | .datasec => type.vars
  | .int | .enum | .enum64 | .fwd | .float | .unkn => []

def addTypeDeps (btf : Btf) (options : ClosureOptions) (typeId : Nat) (type : BtfType)
    (state : ClosureState) : Except Fault ClosureState :=
  (typeDeps options typeId type).foldlM (addDep btf) state

/-- `while (next < worklist.len)`. -/
def closeWorklist (btf : Btf) (options : ClosureOptions) :
    Nat → ClosureState → Except Fault ClosureState
  | 0, _ => .error .outOfFuel
  | fuel + 1, state =>
      match state.worklist with
      | [] => .ok state
      | current :: rest =>
          match btfTypeById btf current with
          | none =>
              fail ("base BTF is missing required type id ".toList ++ decimal current)
          | some type => do
              let state ← addTypeDeps btf options current type { state with worklist := rest }
              closeWorklist btf options fuel state

/-- The required set after the call, and the number of ids added.  An id enters
the worklist at most once, so the capacity of the set bounds the loop. -/
def mchComputeDependencyClosureWithOptions (btf : Btf) (required : TypeSet)
    (options : ClosureOptions) : Except Fault (TypeSet × Nat) := do
  let worklist := mchTypeSetIds required (required.count + 1) 1
  let state ← closeWorklist btf options (required.count + 1)
    { required, worklist, addedTypes := 0 }
  .ok (state.required, state.addedTypes)

/-! ## The set it computes -/

/-- `dep` is a dependency of `id` that the closure adds. -/
def ClosureNext (btf : Btf) (options : ClosureOptions) (id dep : Nat) : Prop :=
  ∃ type, btfTypeById btf id = some type ∧ dep ∈ typeDeps options id type ∧ dep ≠ 0

theorem closureNext_iff {btf : Btf} {options : ClosureOptions} {id dep : Nat} {type : BtfType}
    (htype : btfTypeById btf id = some type) :
    ClosureNext btf options id dep ↔ dep ∈ typeDeps options id type ∧ dep ≠ 0 := by
  unfold ClosureNext
  rw [htype]
  simp

/-- The closure of `seeds` has `id`. -/
def ClosureReaches (btf : Btf) (options : ClosureOptions) (seeds : TypeSet) (id : Nat) : Prop :=
  ∃ seed ∈ seeds.ids, ReflTransGen (ClosureNext btf options) seed id

theorem addDep_eq_ok {btf : Btf} {state state' : ClosureState} {id : Nat}
    (hcount : state.required.count = btfTypeCnt btf) (h : addDep btf state id = .ok state') :
    state'.required.count = btfTypeCnt btf ∧
      (∀ y, y ∈ state'.required.ids ↔ y ∈ state.required.ids ∨ y = id ∧ id ≠ 0) ∧
      ∃ fresh, state'.worklist = state.worklist ++ fresh ∧
        ∀ y, y ∈ fresh ↔ y ∈ state'.required.ids ∧ y ∉ state.required.ids := by
  unfold addDep at h
  split at h
  next hzero =>
    cases h
    refine ⟨hcount, by simp [hzero], [], by simp, ?_⟩
    intro y
    simp
  next hzero =>
    split at h
    next => cases h
    next hrange =>
      have hcontains := contains_mchTypeSetAdd state.required id
      have hlt : id < state.required.count := by omega
      have hids : ∀ y, y ∈ (mchTypeSetAdd state.required id).1.ids ↔
          y ∈ state.required.ids ∨ y = id ∧ id ≠ 0 := by
        intro y
        simp only [TypeSet.mem_ids, hcontains]
        constructor
        · rintro ⟨hy, hold | ⟨heq, _⟩⟩
          · exact Or.inl ⟨hy, hold⟩
          · exact Or.inr ⟨heq, hzero⟩
        · rintro (⟨hy, hold⟩ | ⟨rfl, _⟩)
          · exact ⟨hy, Or.inl hold⟩
          · exact ⟨hzero, Or.inr ⟨rfl, hlt⟩⟩
      cases hadd : mchTypeSetAdd state.required id with
      | mk required fresh =>
          have hrequired : required = (mchTypeSetAdd state.required id).1 := by rw [hadd]
          have hnew := mchTypeSetAdd_snd state.required id
          rw [hadd] at hnew h
          cases fresh with
          | true =>
              cases h
              have hnot : mchTypeSetContains state.required id = false := (hnew.mp rfl).2
              refine ⟨?_, ?_, [id], rfl, ?_⟩
              · rw [hrequired, count_mchTypeSetAdd, hcount]
              · rw [hrequired]
                exact hids
              · intro y
                rw [hrequired, hids, List.mem_singleton]
                constructor
                · rintro rfl
                  refine ⟨Or.inr ⟨rfl, hzero⟩, ?_⟩
                  rintro ⟨_, hold⟩
                  rw [hnot] at hold
                  cases hold
                · rintro ⟨hold | ⟨heq, _⟩, hnot⟩
                  · exact absurd hold hnot
                  · exact heq
          | false =>
              cases h
              have hsame : required = state.required := by
                rw [hrequired]
                apply mchTypeSetAdd_of_snd_false
                rw [hadd]
              refine ⟨?_, ?_, [], by simp, ?_⟩
              · rw [hrequired, count_mchTypeSetAdd, hcount]
              · rw [hrequired]
                exact hids
              · intro y
                rw [hsame]
                simp

theorem addDeps_eq_ok {btf : Btf} {deps : List Nat} :
    ∀ {state state' : ClosureState}, state.required.count = btfTypeCnt btf →
      deps.foldlM (addDep btf) state = .ok state' →
      state'.required.count = btfTypeCnt btf ∧
        (∀ y, y ∈ state'.required.ids ↔ y ∈ state.required.ids ∨ y ∈ deps ∧ y ≠ 0) ∧
        ∃ fresh, state'.worklist = state.worklist ++ fresh ∧
          ∀ y, y ∈ fresh ↔ y ∈ state'.required.ids ∧ y ∉ state.required.ids := by
  induction deps with
  | nil =>
      intro state state' hcount h
      cases h
      exact ⟨hcount, by simp, [], by simp, by simp⟩
  | cons dep deps ih =>
      intro state state' hcount h
      obtain ⟨mid, hstep, hrest⟩ := foldlM_cons_eq_ok.mp h
      obtain ⟨hcountMid, hidsMid, freshMid, hworkMid, hfreshMid⟩ := addDep_eq_ok hcount hstep
      obtain ⟨hcount', hids', fresh', hwork', hfresh'⟩ := ih hcountMid hrest
      refine ⟨hcount', ?_, freshMid ++ fresh', ?_, ?_⟩
      · intro y
        rw [hids', hidsMid, List.mem_cons]
        constructor
        · rintro ((hold | ⟨rfl, hzero⟩) | ⟨hdeps, hzero⟩)
          · exact Or.inl hold
          · exact Or.inr ⟨Or.inl rfl, hzero⟩
          · exact Or.inr ⟨Or.inr hdeps, hzero⟩
        · rintro (hold | ⟨rfl | hdeps, hzero⟩)
          · exact Or.inl (Or.inl hold)
          · exact Or.inl (Or.inr ⟨rfl, hzero⟩)
          · exact Or.inr ⟨hdeps, hzero⟩
      · rw [hwork', hworkMid, List.append_assoc]
      · intro y
        rw [List.mem_append, hfreshMid, hfresh', hids']
        by_cases hmid : y ∈ mid.required.ids
        · simp [hmid]
        · have hold : y ∉ state.required.ids := fun hy => hmid ((hidsMid y).mpr (Or.inl hy))
          simp [hmid, hold]

open Support.Worklist in
/-- What the closure of `seeds` computes, whatever the fuel. -/
theorem closeWorklist_eq_ok {btf : Btf} {options : ClosureOptions} {start : Set Nat} {fuel : Nat} :
    ∀ {state state' : ClosureState}, state.required.count = btfTypeCnt btf →
      Invariant start (ClosureNext btf options) state.required.ids state.worklist →
      closeWorklist btf options fuel state = .ok state' →
      state'.required.count = btfTypeCnt btf ∧
        ∀ y, y ∈ state'.required.ids ↔ ∃ s ∈ start, ReflTransGen (ClosureNext btf options) s y := by
  induction fuel with
  | zero =>
      intro state state' _ _ h
      cases h
  | succ fuel ih =>
      intro state state' hcount hinv h
      rw [closeWorklist] at h
      split at h
      next hnil =>
        cases h
        rw [hnil] at hinv
        exact ⟨hcount, hinv.finish⟩
      next current rest hcons =>
        rw [hcons] at hinv
        split at h
        next => cases h
        next type htype =>
          obtain ⟨mid, hdeps, h⟩ := bind_eq_ok.mp h
          obtain ⟨hcountMid, hids, fresh, hwork, hfresh⟩ := addDeps_eq_ok (by exact hcount) hdeps
          refine ih hcountMid ?_ h
          rw [hwork]
          apply hinv.step
          · intro y
            rw [hids, closureNext_iff htype]
          · exact hfresh

/-- A closure that succeeds holds what its seeds reach, and nothing else. -/
theorem contains_closure_iff {btf : Btf} {options : ClosureOptions} {seeds closed : TypeSet}
    {added : Nat} (hcount : seeds.count = btfTypeCnt btf)
    (h : mchComputeDependencyClosureWithOptions btf seeds options = .ok (closed, added)) :
    closed.count = btfTypeCnt btf ∧ ∀ id, id ∈ closed.ids ↔ ClosureReaches btf options seeds id := by
  unfold mchComputeDependencyClosureWithOptions at h
  obtain ⟨state, hclose, h⟩ := bind_eq_ok.mp h
  cases h
  have hpending : ∀ id, id ∈ mchTypeSetIds seeds (seeds.count + 1) 1 ↔ id ∈ seeds.ids := by
    intro id
    rw [mem_mchTypeSetIds (by omega), Nat.one_le_iff_ne_zero, TypeSet.mem_ids]
  exact closeWorklist_eq_ok hcount (.initial hpending) hclose

end MinCorehdr
