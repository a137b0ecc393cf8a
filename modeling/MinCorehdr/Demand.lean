import Mathlib.Data.Set.Lattice
import MinCorehdr.LeastClosure
import MinCorehdr.Witness

/-!
# What the objects of a run ask for

A demand is a set of types and a set of requirements on them.  The demand of a list of
objects is the union of what each of them asks for alone, and the types that a run
selects are the least set that has the demanded ones and what they refer to.
-/

namespace MinCorehdr

open Relation Support.Result

/-- Types that are asked for, and requirements on them. -/
abbrev Demand := Set Nat × Set RequirementKey

def SeedState.demand (state : SeedState) : Demand :=
  ({ id | mchTypeSetContains state.seeds id = true }, { key | state.requirements.holds key = true })

/-- What an object asks for when it is the only one. -/
def objectDemand (load : CString → Except Fault ObjectDoc) (base : Btf) (path : CString) : Demand :=
  sSup { demand | ∃ final, extractObjects load base [path] = .ok final ∧ final.1.demand = demand }

theorem objectDemand_eq {load : CString → Except Fault ObjectDoc} {base : Btf} {path : CString}
    {final : SeedState × SeedStats} (h : extractObjects load base [path] = .ok final) :
    objectDemand load base path = final.1.demand := by
  have hsingle : { demand | ∃ other, extractObjects load base [path] = .ok other ∧
      other.1.demand = demand } = {final.1.demand} := by
    ext demand
    constructor
    · rintro ⟨other, hother, rfl⟩
      cases h.symm.trans hother
      rfl
    · rintro rfl
      exact ⟨final, h, rfl⟩
  unfold objectDemand
  rw [hsingle, sSup_singleton]

/-! ## The union -/

section

variable {load : CString → Except Fault ObjectDoc} {base : Btf}

/-- What a list of requests leaves of an empty state. -/
def requestedDemand (base : Btf) (requests : List Request) : Demand :=
  ({ id | .seed id ∈ requests ∧ id < btfTypeCnt base }, { key | ∃ origin, .need key origin ∈ requests })

theorem demand_of_applyRequests {requests : List Request} {state : SeedState}
    (h : applyRequests base (initialSeedState base) requests = .ok state) :
    state.demand = requestedDemand base requests := by
  have hjoins := applyRequests_joins (initialSeedState_good base) h
  refine Prod.ext (Set.ext fun id => ?_) (Set.ext fun key => ?_)
  · change mchTypeSetContains state.seeds id = true ↔ _
    rw [hjoins.seeds_iff]
    simp [requestedDemand, initialSeedState]
  · change state.requirements.holds key = true ↔ _
    rw [hjoins.holds_iff, not_holds_initial]
    simp [requestedDemand]

/-- Objects that each can be read alone ask together for what they ask for alone. -/
theorem requestedDemand_requestsOf {index : BtfIndex} {asked : CString → Option (Batch base)}
    (hindex : mchBtfIndexInit base = .ok index) (hasked : Asks load base index asked)
    {paths : List CString}
    (hsingle : ∀ path ∈ paths, ∃ one, extractObjects load base [path] = .ok one) :
    requestedDemand base (requestsOf asked paths) = ⨆ path ∈ paths, objectDemand load base path := by
  have hone : ∀ path ∈ paths, objectDemand load base path =
      requestedDemand base (requestsOf asked [path]) := by
    intro path hpath
    obtain ⟨one, hone⟩ := hsingle path hpath
    obtain ⟨index', hindex', hrun⟩ := bind_eq_ok.mp hone
    cases hindex.symm.trans hindex'
    rw [objectDemand_eq hone, demand_of_applyRequests (hasked.sound hrun).2]
  have hmem : ∀ request, request ∈ requestsOf asked paths ↔
      ∃ path ∈ paths, request ∈ requestsOf asked [path] := by
    intro request
    simp only [mem_requestsOf, List.mem_singleton, exists_eq_left]
  have hunion : (⨆ path ∈ paths, objectDemand load base path) =
      ⨆ path ∈ paths, requestedDemand base (requestsOf asked [path]) :=
    biSup_congr hone
  rw [hunion]
  refine Prod.ext (Set.ext fun id => ?_) (Set.ext fun key => ?_)
  · simp only [Prod.fst_iSup, Set.mem_iUnion, Set.iSup_eq_iUnion, requestedDemand, Set.mem_ofPred_eq,
      hmem, exists_prop]
    constructor
    · rintro ⟨⟨path, hpath, hseed⟩, hlt⟩
      exact ⟨path, hpath, hseed, hlt⟩
    · rintro ⟨path, hpath, hseed, hlt⟩
      exact ⟨⟨path, hpath, hseed⟩, hlt⟩
  · simp only [Prod.snd_iSup, Set.mem_iUnion, Set.iSup_eq_iUnion, requestedDemand, Set.mem_ofPred_eq,
      hmem, exists_prop]
    constructor
    · rintro ⟨origin, path, hpath, hneed⟩
      exact ⟨path, hpath, origin, hneed⟩
    · rintro ⟨path, hpath, origin, hneed⟩
      exact ⟨origin, path, hpath, hneed⟩

/-- An object of a run that succeeds can be read alone. -/
theorem extractObjects_single {paths : List CString} {final : SeedState × SeedStats}
    (h : extractObjects load base paths = .ok final) {path : CString} (hpath : path ∈ paths) :
    ∃ one, extractObjects load base [path] = .ok one := by
  have hsub : ∀ other ∈ [path], other ∈ paths := by
    intro other hother
    rw [List.mem_singleton.mp hother]
    exact hpath
  obtain ⟨one, hone, _⟩ := extractObjects_of_subset hsub h
  exact ⟨one, hone⟩

/-- The demand of a run is the union of the demands of its objects. -/
theorem extractObjects_demand {paths : List CString} {final : SeedState × SeedStats}
    (h : extractObjects load base paths = .ok final) :
    final.1.demand = ⨆ path ∈ paths, objectDemand load base path := by
  obtain ⟨index, hindex, hrun⟩ := bind_eq_ok.mp h
  obtain ⟨asked, hasked⟩ := exists_asks (mchBtfIndexInit_sound hindex) load
  rw [demand_of_applyRequests (hasked.sound hrun).2,
    requestedDemand_requestsOf hindex hasked fun path hpath => extractObjects_single h hpath]

/-- On a base within the format valid requirements are always granted. -/
theorem applyRequests_of_valid (hformat : base.InFormat) {requests : List Request}
    (hvalid : ∀ key origin, .need key origin ∈ requests → key.Valid base) :
    ∀ {state : SeedState}, state.Good base → ∃ state', applyRequests base state requests = .ok state' := by
  induction requests with
  | nil => exact fun {state} _ => ⟨state, rfl⟩
  | cons request requests ih =>
      intro state hstate
      have hstep : ∃ mid, applyRequest base state request = .ok mid := by
        cases request with
        | seed id => exact ⟨_, rfl⟩
        | need key origin =>
            have hkey := hvalid key origin List.mem_cons_self
            have hanswer := @addRequirement_succeeds base state.requirements key origin
              hstate.consistent hkey (Or.inr (hstate.consistent.exists_capacity hformat))
            exact ⟨_, withRequirements_eq_ok.mpr ⟨_, Prod.ext rfl hanswer, rfl⟩⟩
      obtain ⟨mid, hmid⟩ := hstep
      have hgood := (Joins.cons hstate hmid Joins.refl).good
      obtain ⟨state', hrest⟩ := ih (fun key origin hmem =>
        hvalid key origin (List.mem_cons_of_mem _ hmem)) hgood
      exact ⟨state', foldlM_cons_eq_ok.mpr ⟨mid, hmid, hrest⟩⟩

/-- A run succeeds exactly where each of its objects does alone, and then asks for the union of
what they ask for. -/
theorem extractObjects_union (hformat : base.InFormat) {paths : List CString} :
    ((∃ final, extractObjects load base paths = .ok final) ↔
      (∃ index, mchBtfIndexInit base = .ok index) ∧
        ∀ path ∈ paths, ∃ one, extractObjects load base [path] = .ok one) ∧
    ∀ final, extractObjects load base paths = .ok final →
      final.1.demand = ⨆ path ∈ paths, objectDemand load base path := by
  refine ⟨⟨?_, ?_⟩, fun final hfinal => extractObjects_demand hfinal⟩
  · rintro ⟨final, hfinal⟩
    obtain ⟨index, hindex, _⟩ := bind_eq_ok.mp hfinal
    exact ⟨⟨index, hindex⟩, fun path hpath => extractObjects_single hfinal hpath⟩
  · rintro ⟨⟨index, hindex⟩, hsingle⟩
    obtain ⟨asked, hasked⟩ := exists_asks (mchBtfIndexInit_sound hindex) load
    have hgood := initialSeedState_good base
    have hone : ∀ path ∈ paths, (∃ batch, asked path = some batch) ∧
        ∃ state, applyRequests base (initialSeedState base) (requestsOf asked [path]) = .ok state := by
      intro path hpath
      obtain ⟨one, hone⟩ := hsingle path hpath
      obtain ⟨index', hindex', hrun⟩ := bind_eq_ok.mp hone
      cases hindex.symm.trans hindex'
      obtain ⟨hall, happly⟩ := hasked.sound hrun
      exact ⟨hall path List.mem_cons_self, _, happly⟩
    have hvalid : ∀ key origin, .need key origin ∈ requestsOf asked paths → key.Valid base := by
      intro key origin hneed
      obtain ⟨path, hpath, batch, hbatch, hmem⟩ := mem_requestsOf.mp hneed
      obtain ⟨_, state, happly⟩ := hone path hpath
      have hjoins := applyRequests_joins hgood happly
      refine hjoins.good.consistent.valid key ((hjoins.holds_iff key).mpr (Or.inr ⟨origin, ?_⟩))
      exact mem_requestsOf.mpr ⟨path, List.mem_cons_self, batch, hbatch, hmem⟩
    obtain ⟨state, hstate⟩ := applyRequests_of_valid hformat hvalid hgood
    obtain ⟨final, hrun, _⟩ := @Asks.complete load base index asked hasked paths
      (initialSeedState base, {}) state (fun path hpath => (hone path hpath).1) hstate
    exact ⟨final, bind_eq_ok.mpr ⟨index, hindex, hrun⟩⟩

end

/-- The object `a` asks for `struct R`, and `b` for its member `x`. -/
theorem extractObjects_union_small :
    ((∃ final, extractObjects loadSmall smallBase [['a'], ['b']] = .ok final) ↔
      (∃ index, mchBtfIndexInit smallBase = .ok index) ∧
        ∀ path ∈ [['a'], ['b']], ∃ one, extractObjects loadSmall smallBase [path] = .ok one) ∧
    ∀ final, extractObjects loadSmall smallBase [['a'], ['b']] = .ok final →
      final.1.demand = ⨆ path ∈ [['a'], ['b']], objectDemand loadSmall smallBase path :=
  extractObjects_union (.of_types (by decide) (by decide))

/-! ## The types a demand selects -/

/-- The demand keeps the member: it asks for it, or for no member of its record. -/
def Demand.Keeps (demand : Demand) (id i : Nat) : Prop :=
  (∀ j, .member id j ∉ demand.2) ∨ .member id i ∈ demand.2

/-- The least set of types that has the demanded ones and what they refer to. -/
def Demand.selected (demand : Demand) (base : Btf) (expandPointers : Bool) : Set Nat :=
  sInf { ids | (∀ id ∈ demand.1, id ≠ 0 → id ∈ ids) ∧
    ∀ id ∈ ids, ∀ dep, Refers base expandPointers demand.Keeps id dep → dep ≠ 0 → dep ∈ ids }

section

variable {base : Btf}

theorem SeedState.demand_keeps {state : SeedState} (hgood : state.Good base) {id i : Nat} :
    state.demand.Keeps id i ↔ keepsMember (some state.requirements) id i = true := by
  rw [keepsMember_iff hgood.consistent]
  unfold Demand.Keeps SeedState.demand
  simp

/-- The closure of a run's seeds is what its demand selects. -/
theorem closureSet_eq_selected {state : SeedState} (hgood : state.Good base)
    {options : ClosureOptions} (hrequirements : options.requirements = some state.requirements) :
    closureSet base options state.seeds = state.demand.selected base options.expandPointers := by
  have hrefers : ∀ id dep, Refers base options.expandPointers state.demand.Keeps id dep ↔
      ∃ type, btfTypeById base id = some type ∧ dep ∈ typeDeps options id type :=
    fun id dep => refers_iff fun id i => by rw [hrequirements]; exact state.demand_keeps hgood
  have hnext : ∀ id dep, ClosureNext base options id dep ↔
      Refers base options.expandPointers state.demand.Keeps id dep ∧ dep ≠ 0 := by
    intro id dep
    rw [hrefers, closureNext_iff_exists]
  apply Set.Subset.antisymm
  · rintro id ⟨seed, ⟨hzero, hseed⟩, hpath⟩ ids ⟨hseeds, hclosed⟩
    induction hpath with
    | refl => exact hseeds seed hseed hzero
    | tail _ hstep ih =>
        obtain ⟨hrefer, hdep⟩ := (hnext _ _).mp hstep
        exact hclosed _ ih _ hrefer hdep
  · intro id hid
    apply hid
    constructor
    · exact fun seed hseed hzero => ⟨seed, ⟨hzero, hseed⟩, .refl⟩
    · rintro other ⟨seed, hseed, hpath⟩ dep hrefer hdep
      exact ⟨seed, hseed, hpath.tail ((hnext _ _).mpr ⟨hrefer, hdep⟩)⟩

end

end MinCorehdr
