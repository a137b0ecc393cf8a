import Mathlib.Data.Set.Card
import MinCorehdr.Closure

/-!
# The closure is the least fixpoint

What a type refers to is stated without the code's function.  The loop ends because
every round takes one id off the worklist and an id is put there once.  It fails where
a reference out of range is reached, and otherwise leaves the least closed set over its
seeds.
-/

namespace MinCorehdr

open Relation Support.Result Support.Worklist

/-- Kinds that stand for one other type. -/
def Kind.isAlias (kind : Kind) : Bool :=
  kind == .typedef || kind == .volatile || kind == .const || kind == .restrict || kind == .func ||
    kind == .var || kind == .declTag || kind == .typeTag

/-- The types that a type refers to: all but the targets of pointers, unless these are asked
for too, and the members that are not kept. -/
inductive Refers (base : Btf) (expandPointers : Bool) (keeps : Nat → Nat → Prop) (id : Nat) :
    Nat → Prop
  | pointer {type : BtfType} : btfTypeById base id = some type → type.kind = .ptr →
      expandPointers = true → Refers base expandPointers keeps id type.type
  | named {type : BtfType} : btfTypeById base id = some type → type.kind.isAlias = true →
      Refers base expandPointers keeps id type.type
  | element {type : BtfType} : btfTypeById base id = some type → type.kind = .array →
      Refers base expandPointers keeps id type.array.type
  | index {type : BtfType} : btfTypeById base id = some type → type.kind = .array →
      Refers base expandPointers keeps id type.array.indexType
  | member {type : BtfType} {member : BtfMember} {i : Nat} : btfTypeById base id = some type →
      type.kind.isRecord = true → type.members[i]? = some member → keeps id i →
        Refers base expandPointers keeps id member.type
  | result {type : BtfType} : btfTypeById base id = some type → type.kind = .funcProto →
      Refers base expandPointers keeps id type.type
  | param {type : BtfType} {param : BtfParam} : btfTypeById base id = some type →
      type.kind = .funcProto → param ∈ type.params → Refers base expandPointers keeps id param.type
  | sectionVar {type : BtfType} {to_ : Nat} : btfTypeById base id = some type →
      type.kind = .datasec → to_ ∈ type.vars → Refers base expandPointers keeps id to_

/-- What the closure adds is what a type refers to. -/
theorem refers_iff {base : Btf} {options : ClosureOptions} {keeps : Nat → Nat → Prop}
    (hkeeps : ∀ id i, keeps id i ↔ keepsMember options.requirements id i = true) {id dep : Nat} :
    Refers base options.expandPointers keeps id dep ↔
      ∃ type, btfTypeById base id = some type ∧ dep ∈ typeDeps options id type := by
  constructor
  · intro h
    cases h with
    | pointer htype hkind hexpand => exact ⟨_, htype, by simp [typeDeps, hkind, hexpand]⟩
    | @named type htype hkind =>
        refine ⟨_, htype, ?_⟩
        unfold typeDeps
        cases hcase : type.kind <;> simp_all [Kind.isAlias]
    | element htype hkind => exact ⟨_, htype, by simp [typeDeps, hkind]⟩
    | index htype hkind => exact ⟨_, htype, by simp [typeDeps, hkind]⟩
    | @member type member i htype hkind hmember hkeep =>
        have hmem : member.type ∈ keptTypes (keepsMember options.requirements) id type :=
          mem_keptTypes.mpr ⟨member, i, hmember, (hkeeps id i).mp hkeep, rfl⟩
        refine ⟨_, htype, ?_⟩
        unfold typeDeps
        cases hcase : type.kind <;> simp_all [Kind.isRecord]
    | result htype hkind => exact ⟨_, htype, by simp [typeDeps, hkind]⟩
    | param htype hkind hparam =>
        refine ⟨_, htype, ?_⟩
        simp only [typeDeps, hkind]
        exact List.mem_cons_of_mem _ (List.mem_map_of_mem hparam)
    | sectionVar htype hkind hvar => exact ⟨_, htype, by simpa [typeDeps, hkind] using hvar⟩
  · rintro ⟨type, htype, hmem⟩
    have hrecord : type.kind.isRecord = true →
        dep ∈ keptTypes (keepsMember options.requirements) id type →
          Refers base options.expandPointers keeps id dep := by
      intro hkind hkept
      obtain ⟨member, i, hmember, hkeep, rfl⟩ := mem_keptTypes.mp hkept
      exact .member htype hkind hmember ((hkeeps id i).mpr hkeep)
    unfold typeDeps at hmem
    cases hkind : type.kind <;> simp only [hkind] at hmem
    case ptr =>
      split at hmem
      next hexpand =>
        rw [List.mem_singleton.mp hmem]
        exact .pointer htype hkind hexpand
      next => cases hmem
    case typedef | volatile | const | restrict | func | var | declTag | typeTag =>
      rw [List.mem_singleton.mp hmem]
      exact .named htype (by rw [hkind]; rfl)
    case array =>
      rcases List.mem_pair.mp hmem with rfl | rfl
      · exact .element htype hkind
      · exact .index htype hkind
    case struct | union => exact hrecord (by rw [hkind]; rfl) hmem
    case funcProto =>
      rcases List.mem_cons.mp hmem with rfl | hmem
      · exact .result htype hkind
      · obtain ⟨param, hparam, rfl⟩ := List.mem_map.mp hmem
        exact .param htype hkind hparam
    case datasec => exact .sectionVar htype hkind hmem
    all_goals cases hmem

theorem closureNext_iff_exists {btf : Btf} {options : ClosureOptions} {id dep : Nat} :
    ClosureNext btf options id dep ↔
      (∃ type, btfTypeById btf id = some type ∧ dep ∈ typeDeps options id type) ∧ dep ≠ 0 := by
  constructor
  · rintro ⟨type, htype, hmem, hzero⟩
    exact ⟨⟨type, htype, hmem⟩, hzero⟩
  · rintro ⟨⟨type, htype, hmem⟩, hzero⟩
    exact ⟨type, htype, hmem, hzero⟩

/-- What a type refers to under the options of the closure. -/
def OptionsRefer (btf : Btf) (options : ClosureOptions) : Nat → Nat → Prop :=
  Refers btf options.expandPointers fun id i => keepsMember options.requirements id i = true

/-- The set holds what its members refer to, but for void. -/
def IsClosed (btf : Btf) (options : ClosureOptions) (ids : Set Nat) : Prop :=
  ∀ id ∈ ids, ∀ dep, OptionsRefer btf options id dep → dep ≠ 0 → dep ∈ ids

/-- A chain of references from a seed, none of them void, comes to one out of range. -/
def ReachesInvalid (btf : Btf) (options : ClosureOptions) (seeds : TypeSet) : Prop :=
  ∃ seed ∈ seeds.ids, ∃ id dep,
    ReflTransGen (fun from_ to_ => OptionsRefer btf options from_ to_ ∧ to_ ≠ 0) seed id ∧
      OptionsRefer btf options id dep ∧ btfTypeCnt btf ≤ dep

theorem optionsRefer_iff {btf : Btf} {options : ClosureOptions} {id dep : Nat} :
    OptionsRefer btf options id dep ↔
      ∃ type, btfTypeById btf id = some type ∧ dep ∈ typeDeps options id type :=
  refers_iff fun _ _ => Iff.rfl

theorem closureNext_iff_refer {btf : Btf} {options : ClosureOptions} {id dep : Nat} :
    ClosureNext btf options id dep ↔ OptionsRefer btf options id dep ∧ dep ≠ 0 := by
  rw [closureNext_iff_exists, optionsRefer_iff]

theorem reachesInvalid_iff {btf : Btf} {options : ClosureOptions} {seeds : TypeSet} :
    ReachesInvalid btf options seeds ↔
      ∃ id type dep, ClosureReaches btf options seeds id ∧ btfTypeById btf id = some type ∧
        dep ∈ typeDeps options id type ∧ btfTypeCnt btf ≤ dep := by
  have hnext : (fun from_ to_ => OptionsRefer btf options from_ to_ ∧ to_ ≠ 0) =
      ClosureNext btf options := by
    funext from_ to_
    exact propext closureNext_iff_refer.symm
  unfold ReachesInvalid ClosureReaches
  rw [hnext]
  simp only [optionsRefer_iff]
  constructor
  · rintro ⟨seed, hseed, id, dep, hreach, ⟨type, htype, hdep⟩, hrange⟩
    exact ⟨id, type, dep, ⟨seed, hseed, hreach⟩, htype, hdep, hrange⟩
  · rintro ⟨id, type, dep, ⟨seed, hseed, hreach⟩, htype, hdep, hrange⟩
    exact ⟨seed, hseed, id, dep, hreach, ⟨type, htype, hdep⟩, hrange⟩

/-! ## Counting -/

theorem TypeSet.ids_subset_range (set : TypeSet) : set.ids ⊆ Finset.range set.count := by
  rintro id ⟨_, hid⟩
  exact Finset.mem_coe.mpr (Finset.mem_range.mpr (lt_count_of_contains hid))

theorem TypeSet.finite_ids (set : TypeSet) : set.ids.Finite :=
  (Finset.finite_toSet _).subset set.ids_subset_range

theorem TypeSet.ncard_ids_le (set : TypeSet) : set.ids.ncard ≤ set.count := by
  have hcard := Set.ncard_le_ncard set.ids_subset_range (Finset.finite_toSet _)
  rwa [Set.ncard_coe_finset, Finset.card_range] at hcard

theorem ids_mchTypeSetAdd {set : TypeSet} {id : Nat} (hzero : id ≠ 0) (hlt : id < set.count) :
    (mchTypeSetAdd set id).1.ids = insert id set.ids := by
  ext y
  rw [Set.mem_insert_iff, TypeSet.mem_ids, TypeSet.mem_ids, contains_mchTypeSetAdd]
  constructor
  · rintro ⟨hy, hold | ⟨heq, _⟩⟩
    · exact Or.inr ⟨hy, hold⟩
    · exact Or.inl heq
  · rintro (rfl | ⟨hy, hold⟩)
    · exact ⟨hzero, Or.inr ⟨rfl, hlt⟩⟩
    · exact ⟨hy, Or.inl hold⟩

/-- What is added is counted, and put on the worklist. -/
structure Counted (state state' : ClosureState) : Prop where
  addedTypes : state'.addedTypes + state.required.ids.ncard =
    state.addedTypes + state'.required.ids.ncard
  worklist : state'.worklist.length + state.required.ids.ncard =
    state.worklist.length + state'.required.ids.ncard

theorem Counted.refl (state : ClosureState) : Counted state state := ⟨rfl, rfl⟩

theorem Counted.trans {state mid state' : ClosureState} (h : Counted state mid)
    (h' : Counted mid state') : Counted state state' where
  addedTypes := by
    have := h.addedTypes
    have := h'.addedTypes
    omega
  worklist := by
    have := h.worklist
    have := h'.worklist
    omega

theorem addDep_counted {btf : Btf} {state state' : ClosureState} {id : Nat}
    (hcount : state.required.count = btfTypeCnt btf) (h : addDep btf state id = .ok state') :
    Counted state state' := by
  unfold addDep at h
  split at h
  next =>
    cases h
    exact .refl state
  next hzero =>
    split at h
    next => cases h
    next hrange =>
      have hlt : id < state.required.count := by omega
      have hids := ids_mchTypeSetAdd hzero hlt
      have hnew := mchTypeSetAdd_snd state.required id
      cases hadd : mchTypeSetAdd state.required id with
      | mk required fresh =>
          rw [hadd] at h hids hnew
          cases fresh with
          | true =>
              cases h
              have hnot : id ∉ state.required.ids := by
                rintro ⟨_, hold⟩
                rw [(hnew.mp rfl).2] at hold
                cases hold
              have hcard := Set.ncard_insert_of_notMem hnot state.required.finite_ids
              rw [← hids] at hcard
              constructor
              · simp only [hcard]
                omega
              · simp only [hcard, List.length_append, List.length_singleton]
                omega
          | false =>
              cases h
              have hsame : required = state.required := by
                have hset : (mchTypeSetAdd state.required id).1 = state.required :=
                  mchTypeSetAdd_of_snd_false (by rw [hadd])
                rwa [hadd] at hset
              rw [hsame]
              exact .refl state

theorem addDeps_counted {btf : Btf} {deps : List Nat} :
    ∀ {state state' : ClosureState}, state.required.count = btfTypeCnt btf →
      deps.foldlM (addDep btf) state = .ok state' → Counted state state' := by
  induction deps with
  | nil =>
      intro state state' _ h
      cases h
      exact .refl state
  | cons dep deps ih =>
      intro state state' hcount h
      obtain ⟨mid, hstep, hrest⟩ := foldlM_cons_eq_ok.mp h
      exact (addDep_counted hcount hstep).trans (ih (addDep_eq_ok hcount hstep).1 hrest)

theorem closeWorklist_addedTypes {btf : Btf} {options : ClosureOptions} {fuel : Nat} :
    ∀ {state state' : ClosureState}, state.required.count = btfTypeCnt btf →
      closeWorklist btf options fuel state = .ok state' →
        state'.addedTypes + state.required.ids.ncard =
          state.addedTypes + state'.required.ids.ncard := by
  induction fuel with
  | zero =>
      intro state state' _ h
      cases h
  | succ fuel ih =>
      intro state state' hcount h
      rw [closeWorklist] at h
      split at h
      next =>
        cases h
        rfl
      next current rest _ =>
        split at h
        next => cases h
        next type _ =>
          obtain ⟨mid, hdeps, h⟩ := bind_eq_ok.mp h
          have hstep := (addDeps_counted (by exact hcount) hdeps).addedTypes
          have hrest := ih (addDeps_eq_ok (by exact hcount) hdeps).1 h
          simp only at hstep
          omega

/-! ## Errors -/

/-- A dependency is refused because it is out of range. -/
theorem addDep_eq_error {btf : Btf} {state : ClosureState} {id : Nat} {fault : Fault}
    (h : addDep btf state id = .error fault) :
    btfTypeCnt btf ≤ id ∧ ∃ err, fault = .error err := by
  unfold addDep at h
  split at h
  next => cases h
  next =>
    split at h
    next hrange =>
      cases h
      exact ⟨hrange, _, rfl⟩
    next => split at h <;> cases h

theorem addDeps_eq_error {btf : Btf} {deps : List Nat} {fault : Fault} :
    ∀ {state : ClosureState}, deps.foldlM (addDep btf) state = .error fault →
      (∃ dep ∈ deps, btfTypeCnt btf ≤ dep) ∧ ∃ err, fault = .error err := by
  induction deps with
  | nil =>
      intro state h
      cases h
  | cons dep deps ih =>
      intro state h
      rcases foldlM_cons_eq_error.mp h with hfirst | ⟨mid, _, hrest⟩
      · obtain ⟨hrange, herr⟩ := addDep_eq_error hfirst
        exact ⟨⟨dep, List.mem_cons_self, hrange⟩, herr⟩
      · obtain ⟨⟨other, hother, hrange⟩, herr⟩ := ih hrest
        exact ⟨⟨other, List.mem_cons_of_mem dep hother, hrange⟩, herr⟩

/-- With a budget for the ids still to come, the loop fails only on a reference out
of range behind some id it reached. -/
theorem closeWorklist_eq_error {btf : Btf} {options : ClosureOptions} {start : Set Nat}
    {fuel : Nat} {fault : Fault} :
    ∀ {state : ClosureState}, state.required.count = btfTypeCnt btf →
      Invariant start (ClosureNext btf options) state.required.ids state.worklist →
      state.worklist.length + btfTypeCnt btf < fuel + state.required.ids.ncard →
      closeWorklist btf options fuel state = .error fault →
        (∃ err, fault = .error err) ∧ ∃ id type dep,
          (∃ s ∈ start, ReflTransGen (ClosureNext btf options) s id) ∧
            btfTypeById btf id = some type ∧ dep ∈ typeDeps options id type ∧
              btfTypeCnt btf ≤ dep := by
  induction fuel with
  | zero =>
      intro state hcount _ hfuel _
      have hcard := state.required.ncard_ids_le
      omega
  | succ fuel ih =>
      intro state hcount hinv hfuel h
      rw [closeWorklist] at h
      split at h
      next => cases h
      next current rest hcons =>
        rw [hcons] at hinv hfuel
        obtain ⟨hzero, hcurrent⟩ := hinv.pending_seen current List.mem_cons_self
        have hlt : current < btfTypeCnt btf := hcount ▸ lt_count_of_contains hcurrent
        obtain ⟨type, htype⟩ := exists_btfTypeById hlt
        simp only [htype] at h
        rcases bind_eq_error.mp h with hdeps | ⟨mid, hdeps, hrest⟩
        · obtain ⟨⟨dep, hdep, hrange⟩, herr⟩ := addDeps_eq_error hdeps
          have hreached := hinv.reached current (hinv.pending_seen current List.mem_cons_self)
          exact ⟨herr, current, type, dep, hreached, htype, hdep, hrange⟩
        · obtain ⟨hcountMid, hids, fresh, hwork, hfresh⟩ := addDeps_eq_ok (by exact hcount) hdeps
          have hlength := (addDeps_counted (by exact hcount) hdeps).worklist
          refine ih hcountMid ?_ ?_ hrest
          · rw [hwork]
            apply hinv.step
            · intro y
              rw [hids, closureNext_iff htype]
            · exact hfresh
          · simp only [List.length_cons] at hfuel hlength
            omega

/-! ## The least fixpoint -/

theorem mem_seedIds {seeds : TypeSet} (id : Nat) :
    id ∈ mchTypeSetIds seeds (seeds.count + 1) 1 ↔ id ∈ seeds.ids := by
  rw [mem_mchTypeSetIds (by omega), Nat.one_le_iff_ne_zero, TypeSet.mem_ids]

theorem length_seedIds (seeds : TypeSet) :
    (mchTypeSetIds seeds (seeds.count + 1) 1).length = seeds.ids.ncard := by
  have hnodup : (mchTypeSetIds seeds (seeds.count + 1) 1).Nodup :=
    mchTypeSetIds_sorted.1.imp fun h => Nat.ne_of_lt h
  have hset : seeds.ids = (mchTypeSetIds seeds (seeds.count + 1) 1).toFinset := by
    ext id
    rw [Finset.mem_coe, List.mem_toFinset, mem_seedIds]
  rw [hset, Set.ncard_coe_finset, List.toFinset_card_of_nodup hnodup]

/-- A closure that fails has met a reference out of range. -/
theorem closure_eq_error {btf : Btf} {options : ClosureOptions} {seeds : TypeSet} {fault : Fault}
    (hcount : seeds.count = btfTypeCnt btf)
    (h : mchComputeDependencyClosureWithOptions btf seeds options = .error fault) :
    (∃ err, fault = .error err) ∧ ReachesInvalid btf options seeds := by
  unfold mchComputeDependencyClosureWithOptions at h
  rw [reachesInvalid_iff]
  rcases bind_eq_error.mp h with hloop | ⟨state, _, hdone⟩
  · apply closeWorklist_eq_error hcount (.initial mem_seedIds) _ hloop
    simp only [length_seedIds]
    omega
  · cases hdone

theorem closure_of_reachesInvalid {btf : Btf} {options : ClosureOptions} {seeds : TypeSet}
    (hcount : seeds.count = btfTypeCnt btf) (h : ReachesInvalid btf options seeds) :
    ∃ err, mchComputeDependencyClosureWithOptions btf seeds options = .error (.error err) := by
  cases hrun : mchComputeDependencyClosureWithOptions btf seeds options with
  | error fault =>
      obtain ⟨⟨err, rfl⟩, _⟩ := closure_eq_error hcount hrun
      exact ⟨err, rfl⟩
  | ok result =>
      obtain ⟨closed, added⟩ := result
      obtain ⟨hclosed, hids⟩ := contains_closure_iff hcount hrun
      obtain ⟨id, type, dep, ⟨seed, hseed, hreach⟩, htype, hdep, hrange⟩ := reachesInvalid_iff.mp h
      have hzero : dep ≠ 0 := by
        have : 0 < btfTypeCnt btf := Nat.succ_pos _
        omega
      have hmem : dep ∈ closed.ids :=
        (hids dep).mpr ⟨seed, hseed, hreach.tail ((closureNext_iff htype).mpr ⟨hdep, hzero⟩)⟩
      have hlt := lt_count_of_contains hmem.2
      omega

/-- On success: the least closed set over the seeds, its size counted. -/
theorem closure_eq_ok {btf : Btf} {options : ClosureOptions} {seeds closed : TypeSet}
    {added : Nat} (hcount : seeds.count = btfTypeCnt btf)
    (h : mchComputeDependencyClosureWithOptions btf seeds options = .ok (closed, added)) :
    seeds.ids ⊆ closed.ids ∧ IsClosed btf options closed.ids ∧
      (∀ ids, seeds.ids ⊆ ids → IsClosed btf options ids → closed.ids ⊆ ids) ∧
      added = (closed.ids \ seeds.ids).ncard := by
  obtain ⟨_, hids⟩ := contains_closure_iff hcount h
  have hsub : seeds.ids ⊆ closed.ids := fun id hid => (hids id).mpr ⟨id, hid, .refl⟩
  refine ⟨hsub, ?_, ?_, ?_⟩
  · intro id hid dep hrefer hzero
    obtain ⟨seed, hseed, hreach⟩ := (hids id).mp hid
    exact (hids dep).mpr ⟨seed, hseed, hreach.tail (closureNext_iff_refer.mpr ⟨hrefer, hzero⟩)⟩
  · intro ids hseeds hclosed id hid
    obtain ⟨seed, hseed, hreach⟩ := (hids id).mp hid
    clear hid
    induction hreach with
    | refl => exact hseeds hseed
    | tail _ hstep ih =>
        obtain ⟨hrefer, hzero⟩ := closureNext_iff_refer.mp hstep
        exact hclosed _ ih _ hrefer hzero
  · unfold mchComputeDependencyClosureWithOptions at h
    obtain ⟨state, hloop, hdone⟩ := bind_eq_ok.mp h
    cases hdone
    have hadded := closeWorklist_addedTypes hcount hloop
    have hdiff := Set.ncard_sdiff_add_ncard_of_subset hsub state.required.finite_ids
    simp only at hadded
    omega

/-- More seeds, or pointers followed, reach no less. -/
theorem ClosureReaches.mono {btf : Btf} {options more : ClosureOptions} {seeds seeds' : TypeSet}
    (hseeds : seeds.ids ⊆ seeds'.ids) (hrequirements : more.requirements = options.requirements)
    (hpointers : options.expandPointers = true → more.expandPointers = true) {id : Nat}
    (h : ClosureReaches btf options seeds id) : ClosureReaches btf more seeds' id := by
  obtain ⟨seed, hseed, hreach⟩ := h
  refine ⟨seed, hseeds hseed, ReflTransGen.mono ?_ seed id hreach⟩
  rintro from_ to_ ⟨type, htype, hdep, hzero⟩
  refine ⟨type, htype, ?_, hzero⟩
  unfold typeDeps at hdep ⊢
  rw [hrequirements]
  cases hkind : type.kind <;> simp_all

/-- The closure ends; it fails exactly where a reference out of range is reached;
on success it leaves the least closed set over the seeds and counts what is new.
It adds nothing to its own result and is monotone. -/
theorem mchComputeDependencyClosureWithOptions_least {btf : Btf} {options : ClosureOptions}
    {seeds : TypeSet} (hcount : seeds.count = btfTypeCnt btf) :
    Returns (mchComputeDependencyClosureWithOptions btf seeds options) ∧
    (¬Succeeds (mchComputeDependencyClosureWithOptions btf seeds options) ↔
      ReachesInvalid btf options seeds) ∧
    ∀ closed added,
      mchComputeDependencyClosureWithOptions btf seeds options = .ok (closed, added) →
      (seeds.ids ⊆ closed.ids ∧ IsClosed btf options closed.ids ∧
        (∀ ids, seeds.ids ⊆ ids → IsClosed btf options ids → closed.ids ⊆ ids) ∧
        added = (closed.ids \ seeds.ids).ncard) ∧
      (∃ again, mchComputeDependencyClosureWithOptions btf closed options = .ok (again, 0) ∧
        again.ids = closed.ids) ∧
      ∀ more seeds' closed' added', seeds'.count = btfTypeCnt btf → seeds.ids ⊆ seeds'.ids →
        more.requirements = options.requirements →
        (options.expandPointers = true → more.expandPointers = true) →
        mchComputeDependencyClosureWithOptions btf seeds' more = .ok (closed', added') →
          closed.ids ⊆ closed'.ids := by
  refine ⟨?_, ?_, ?_⟩
  · cases hrun : mchComputeDependencyClosureWithOptions btf seeds options with
    | ok result => exact Or.inl ⟨result, rfl⟩
    | error fault =>
        obtain ⟨⟨err, rfl⟩, _⟩ := closure_eq_error hcount hrun
        exact Or.inr ⟨err, rfl⟩
  · constructor
    · intro hfails
      cases hrun : mchComputeDependencyClosureWithOptions btf seeds options with
      | ok result => exact absurd ⟨result, hrun⟩ hfails
      | error fault => exact (closure_eq_error hcount hrun).2
    · rintro hinvalid ⟨result, hrun⟩
      obtain ⟨err, herr⟩ := closure_of_reachesInvalid hcount hinvalid
      rw [hrun] at herr
      cases herr
  · intro closed added hrun
    obtain ⟨hclosedCount, hids⟩ := contains_closure_iff hcount hrun
    have hleast := closure_eq_ok hcount hrun
    refine ⟨hleast, ?_, ?_⟩
    · cases hagain : mchComputeDependencyClosureWithOptions btf closed options with
      | error fault =>
          obtain ⟨_, hinvalid⟩ := closure_eq_error hclosedCount hagain
          obtain ⟨id, type, dep, ⟨seed, hseed, hreach⟩, hrest⟩ := reachesInvalid_iff.mp hinvalid
          obtain ⟨first, hfirst, hpath⟩ := (hids seed).mp hseed
          obtain ⟨err, herr⟩ := closure_of_reachesInvalid hcount
            (reachesInvalid_iff.mpr ⟨id, type, dep, ⟨first, hfirst, hpath.trans hreach⟩, hrest⟩)
          rw [hrun] at herr
          cases herr
      | ok result =>
          obtain ⟨again, new⟩ := result
          obtain ⟨hsub, _, hmin, hnew⟩ := closure_eq_ok hclosedCount hagain
          have heq : again.ids = closed.ids :=
            Set.Subset.antisymm (hmin closed.ids subset_rfl hleast.2.1) hsub
          rw [heq, Set.sdiff_self, Set.ncard_empty] at hnew
          exact ⟨again, by rw [hnew], heq⟩
    · intro more seeds' closed' added' hcount' hseeds hrequirements hpointers hrun' id hid
      rw [(contains_closure_iff hcount' hrun').2]
      exact ((hids id).mp hid).mono hseeds hrequirements hpointers

/-- `struct L { struct L *next; int x; }`. -/
def linkedList : Btf where
  types := [
    { nameOff := 1, kind := .struct, size := 16,
      members := [{ nameOff := 3, type := 2 }, { nameOff := 8, type := 3, offset := 64 }] },
    { kind := .ptr, type := 1 },
    { nameOff := 10, kind := .int, size := 4, intInfo := 0x01000020 }]
  strs := "\x00L\x00next\x00x\x00int\x00".toList

theorem mchComputeDependencyClosureWithOptions_least_linkedList :
    Returns (mchComputeDependencyClosureWithOptions linkedList
        (mchTypeSetAdd (mchTypeSetInit 4) 1).1 { expandPointers := true }) ∧
      (¬Succeeds (mchComputeDependencyClosureWithOptions linkedList
          (mchTypeSetAdd (mchTypeSetInit 4) 1).1 { expandPointers := true }) ↔
        ReachesInvalid linkedList { expandPointers := true }
          (mchTypeSetAdd (mchTypeSetInit 4) 1).1) := by
  have hleast := @mchComputeDependencyClosureWithOptions_least linkedList { expandPointers := true }
    (mchTypeSetAdd (mchTypeSetInit 4) 1).1 (by decide)
  exact ⟨hleast.1, hleast.2.1⟩

end MinCorehdr
