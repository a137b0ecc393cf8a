import Mathlib.Data.List.Perm.Subperm
import MinCorehdr.Seeds.Effect

/-!
# The state after a run over objects

What a run leaves is the union of what its objects ask for: a key or a seed is
there exactly when one of them asked for it, and the run succeeds exactly when
every object does and the trace list holds the union.
-/

namespace MinCorehdr

open Support.Result

/-- A state that extraction over `base` can leave. -/
structure SeedState.Good (base : Btf) (state : SeedState) : Prop where
  count_eq : state.seeds.count = btfTypeCnt base
  consistent : state.requirements.Consistent base

theorem initialSeedState_good (base : Btf) : (initialSeedState base).Good base where
  count_eq := rfl
  consistent := Requirements.Consistent.initial base

/-! ## One request -/

theorem applyRequest_seed {base : Btf} {state state' : SeedState} {id : Nat}
    (h : applyRequest base state (.seed id) = .ok state') :
    state'.requirements = state.requirements ∧ state'.seeds.count = state.seeds.count ∧
      ∀ other, mchTypeSetContains state'.seeds other = true ↔
        mchTypeSetContains state.seeds other = true ∨ other = id ∧ id < state.seeds.count := by
  cases h
  exact ⟨rfl, count_mchTypeSetAdd state.seeds id, contains_mchTypeSetAdd state.seeds id⟩

theorem withRequirements_eq_ok {state state' : SeedState}
    {result : Requirements × Except Fault Unit} :
    state.withRequirements result = .ok state' ↔
      ∃ requirements, result = (requirements, .ok ()) ∧
        state' = { state with requirements := requirements } := by
  obtain ⟨requirements, answer⟩ := result
  cases answer with
  | ok _ =>
      simp only [SeedState.withRequirements, Except.ok.injEq, Prod.mk.injEq, and_true]
      constructor
      · rintro rfl
        exact ⟨requirements, rfl, rfl⟩
      · rintro ⟨other, rfl, rfl⟩
        rfl
  | error fault => simp [SeedState.withRequirements]

theorem applyRequest_need {base : Btf} {state state' : SeedState} {key : RequirementKey}
    {origin : Option RequirementOrigin} (hstate : state.Good base)
    (h : applyRequest base state (.need key origin) = .ok state') :
    state'.seeds = state.seeds ∧ key.Valid base ∧ state'.requirements.Consistent base ∧
      ∀ other, state'.requirements.holds other = true ↔
        state.requirements.holds other = true ∨ other = key := by
  obtain ⟨requirements, hadd, rfl⟩ := withRequirements_eq_ok.mp h
  obtain ⟨hvalid, hconsistent, hholds⟩ := addRequirement_spec hstate.consistent hadd
  exact ⟨rfl, hvalid, hconsistent, hholds⟩

/-! ## Lists of requests -/

/-- `state'` is `state` with what `requests` ask for, and nothing else. -/
structure Joins (base : Btf) (state : SeedState) (requests : List Request) (state' : SeedState) :
    Prop where
  good : state'.Good base
  holds_iff : ∀ key, state'.requirements.holds key = true ↔
    state.requirements.holds key = true ∨ ∃ origin, .need key origin ∈ requests
  seeds_iff : ∀ id, mchTypeSetContains state'.seeds id = true ↔
    mchTypeSetContains state.seeds id = true ∨ .seed id ∈ requests ∧ id < btfTypeCnt base

theorem Joins.refl {base : Btf} {state : SeedState} (hstate : state.Good base) :
    Joins base state [] state where
  good := hstate
  holds_iff := by simp
  seeds_iff := by simp

theorem Joins.cons {base : Btf} {state mid state' : SeedState} {request : Request}
    {requests : List Request} (hstate : state.Good base)
    (hstep : applyRequest base state request = .ok mid)
    (hrest : mid.Good base → Joins base mid requests state') :
    Joins base state (request :: requests) state' := by
  cases request with
  | seed id =>
      obtain ⟨hreq, hcount, hcontains⟩ := applyRequest_seed hstep
      have hmid : mid.Good base :=
        ⟨hcount.trans hstate.count_eq, by rw [hreq]; exact hstate.consistent⟩
      have hjoins := hrest hmid
      refine ⟨hjoins.good, ?_, ?_⟩
      · intro key
        rw [hjoins.holds_iff, hreq]
        simp
      · intro other
        rw [hjoins.seeds_iff, hcontains, hstate.count_eq]
        simp only [List.mem_cons, Request.seed.injEq]
        constructor
        · rintro ((hold | ⟨rfl, hlt⟩) | ⟨hmem, hlt⟩)
          · exact Or.inl hold
          · exact Or.inr ⟨Or.inl rfl, hlt⟩
          · exact Or.inr ⟨Or.inr hmem, hlt⟩
        · rintro (hold | ⟨rfl | hmem, hlt⟩)
          · exact Or.inl (Or.inl hold)
          · exact Or.inl (Or.inr ⟨rfl, hlt⟩)
          · exact Or.inr ⟨hmem, hlt⟩
  | need key origin =>
      obtain ⟨hseeds, _, hconsistent, hholds⟩ := applyRequest_need hstate hstep
      have hmid : mid.Good base := ⟨by rw [hseeds]; exact hstate.count_eq, hconsistent⟩
      have hjoins := hrest hmid
      refine ⟨hjoins.good, ?_, ?_⟩
      · intro other
        rw [hjoins.holds_iff, hholds]
        simp only [List.mem_cons, Request.need.injEq]
        constructor
        · rintro ((hold | rfl) | ⟨found, hmem⟩)
          · exact Or.inl hold
          · exact Or.inr ⟨origin, Or.inl ⟨rfl, rfl⟩⟩
          · exact Or.inr ⟨found, Or.inr hmem⟩
        · rintro (hold | ⟨found, ⟨rfl, _⟩ | hmem⟩)
          · exact Or.inl (Or.inl hold)
          · exact Or.inl (Or.inr rfl)
          · exact Or.inr ⟨found, hmem⟩
      · intro id
        rw [hjoins.seeds_iff, hseeds]
        simp

/-- Requests that are all granted leave the union. -/
theorem applyRequests_joins {base : Btf} {requests : List Request} :
    ∀ {state state' : SeedState}, state.Good base →
      applyRequests base state requests = .ok state' → Joins base state requests state' := by
  induction requests with
  | nil =>
      intro state state' hstate h
      cases h
      exact Joins.refl hstate
  | cons request requests ih =>
      intro state state' hstate h
      obtain ⟨mid, hstep, hrest⟩ := foldlM_cons_eq_ok.mp h
      exact Joins.cons hstate hstep fun hmid => ih hmid hrest

/-- A store whose keys another store has, less one, has fewer traces. -/
theorem Requirements.Consistent.traces_lt {base : Btf} {requirements larger : Requirements}
    (h : requirements.Consistent base) (hlarger : larger.Consistent base)
    (hsub : ∀ key, requirements.holds key = true → larger.holds key = true) {key : RequirementKey}
    (hnew : requirements.holds key = false) (hkey : larger.holds key = true) :
    requirements.traces.length < larger.traces.length := by
  have hnodup : (key :: requirements.traces.map RequirementTrace.key).Nodup := by
    rw [List.nodup_cons, h.mem_keys, hnew]
    exact ⟨Bool.false_ne_true, h.nodup_keys⟩
  have hsubset : key :: requirements.traces.map RequirementTrace.key ⊆
      larger.traces.map RequirementTrace.key := by
    intro other hother
    rw [hlarger.mem_keys]
    rcases List.mem_cons.mp hother with rfl | hother
    · exact hkey
    · exact hsub other ((h.mem_keys other).mp hother)
  have hle := (List.subperm_of_subset hnodup hsubset).length_le
  simp only [List.length_cons, List.length_map] at hle
  omega

/-- Requests for what a store already holds somewhere are granted. -/
theorem applyRequests_succeeds {base : Btf} {larger : Requirements}
    (hlarger : larger.Consistent base) {requests : List Request} :
    ∀ {state : SeedState}, state.Good base →
      (∀ key, state.requirements.holds key = true → larger.holds key = true) →
      (∀ key origin, .need key origin ∈ requests → larger.holds key = true) →
      ∃ state', applyRequests base state requests = .ok state' := by
  induction requests with
  | nil =>
      intro state _ _ _
      exact ⟨state, rfl⟩
  | cons request requests ih =>
      intro state hstate hsub hneeds
      have hstep : ∃ mid, applyRequest base state request = .ok mid := by
        cases request with
        | seed id => exact ⟨_, rfl⟩
        | need key origin =>
            have hkey := hneeds key origin List.mem_cons_self
            have hroom : state.requirements.holds key = true ∨
                ∃ capacity, ensureTraceCapacity allGranted state.requirements = .ok capacity := by
              cases hold : state.requirements.holds key with
              | true => exact Or.inl rfl
              | false =>
                  right
                  exact hstate.consistent.room.hasRoom hlarger.room
                    (hstate.consistent.traces_lt hlarger hsub hold hkey)
            have hanswer := @addRequirement_succeeds base state.requirements key origin
              hstate.consistent (hlarger.valid key hkey) hroom
            refine ⟨_, withRequirements_eq_ok.mpr ⟨_, Prod.ext rfl hanswer, rfl⟩⟩
      obtain ⟨mid, hmid⟩ := hstep
      have hjoins := Joins.cons hstate hmid Joins.refl
      obtain ⟨state', hrest⟩ := ih hjoins.good (by
        intro key hkey
        rcases (hjoins.holds_iff key).mp hkey with hold | ⟨origin, hmem⟩
        · exact hsub key hold
        · rw [List.mem_singleton] at hmem
          exact hneeds key origin (by rw [hmem]; exact List.mem_cons_self))
        (fun key origin hmem => hneeds key origin (List.mem_cons_of_mem _ hmem))
      exact ⟨state', foldlM_cons_eq_ok.mpr ⟨mid, hmid, hrest⟩⟩

/-! ## Lists of objects -/

/-- What the objects of a list ask for, in order. -/
def requestsOf {base : Btf} (asked : CString → Option (Batch base)) (paths : List CString) :
    List Request :=
  paths.flatMap fun path => ((asked path).map Batch.requests).getD []

theorem mem_requestsOf {base : Btf} {asked : CString → Option (Batch base)} {paths : List CString}
    {request : Request} : request ∈ requestsOf asked paths ↔
      ∃ path ∈ paths, ∃ batch, asked path = some batch ∧ request ∈ batch.requests := by
  rw [requestsOf, List.mem_flatMap]
  apply exists_congr
  intro path
  apply and_congr Iff.rfl
  cases asked path <;> simp

/-- `asked` says of every object what it asks for. -/
def Asks (load : CString → Except Fault ObjectDoc) (base : Btf) (index : BtfIndex)
    (asked : CString → Option (Batch base)) : Prop :=
  ∀ path, ∀ state : SeedState × SeedStats, Follows base state.1
    (extractObject load index state path) statsView ((asked path).map fun batch => (batch, ()))

theorem exists_asks {base : Btf} {index : BtfIndex} (hindex : index.Sound base)
    (load : CString → Except Fault ObjectDoc) : ∃ asked, Asks load base index asked := by
  choose outcome houtcome using extractObject_follows hindex load
  refine ⟨fun path => (outcome path).map Prod.fst, fun path state => ?_⟩
  have heq : ((outcome path).map Prod.fst).map (fun batch => (batch, ())) = outcome path := by
    cases outcome path <;> rfl
  rw [heq]
  exact houtcome path state

section

variable {load : CString → Except Fault ObjectDoc} {base : Btf} {index : BtfIndex}
  {asked : CString → Option (Batch base)}

theorem Asks.sound (h : Asks load base index asked) {paths : List CString} :
    ∀ {state final : SeedState × SeedStats},
      paths.foldlM (extractObject load index) state = .ok final →
        (∀ path ∈ paths, ∃ batch, asked path = some batch) ∧
          applyRequests base state.1 (requestsOf asked paths) = .ok final.1 := by
  induction paths with
  | nil =>
      intro state final hrun
      cases hrun
      exact ⟨by simp, rfl⟩
  | cons path paths ih =>
      intro state final hrun
      obtain ⟨mid, hstep, hrest⟩ := foldlM_cons_eq_ok.mp hrun
      obtain ⟨batch, houtcome, happly⟩ := (h path state).sound mid hstep
      obtain ⟨batch', hasked, heq⟩ := Option.map_eq_some_iff.mp houtcome
      cases heq
      obtain ⟨hall, hrest⟩ := ih hrest
      constructor
      · intro other hother
        rcases List.mem_cons.mp hother with rfl | hother
        · exact ⟨batch, hasked⟩
        · exact hall other hother
      · rw [show requestsOf asked (path :: paths) = batch.requests ++ requestsOf asked paths by
          simp [requestsOf, hasked]]
        exact applyRequests_append.mpr ⟨mid.1, happly, hrest⟩

theorem Asks.complete (h : Asks load base index asked) {paths : List CString} :
    ∀ {state : SeedState × SeedStats} {s' : SeedState},
      (∀ path ∈ paths, ∃ batch, asked path = some batch) →
        applyRequests base state.1 (requestsOf asked paths) = .ok s' →
          ∃ final, paths.foldlM (extractObject load index) state = .ok final ∧ final.1 = s' := by
  induction paths with
  | nil =>
      intro state s' _ happly
      cases happly
      exact ⟨state, rfl, rfl⟩
  | cons path paths ih =>
      intro state s' hall happly
      obtain ⟨batch, hasked⟩ := hall path List.mem_cons_self
      rw [show requestsOf asked (path :: paths) = batch.requests ++ requestsOf asked paths by
        simp [requestsOf, hasked]] at happly
      obtain ⟨mid, hfirst, hrest⟩ := applyRequests_append.mp happly
      obtain ⟨next, hstep, hview⟩ := (h path state).complete batch () mid
        (by rw [hasked]; rfl) hfirst
      obtain rfl : next.1 = mid := (Prod.mk.inj hview).1
      obtain ⟨final, hrun, hfinal⟩ := ih (fun other hother => hall other (List.mem_cons_of_mem _ hother))
        hrest
      exact ⟨final, foldlM_cons_eq_ok.mpr ⟨next, hstep, hrun⟩, hfinal⟩

end

theorem not_holds_initial (base : Btf) (key : RequirementKey) :
    (initialSeedState base).requirements.holds key = false := by
  have hkeys := (Requirements.Consistent.initial base).mem_keys key
  rw [← Bool.not_eq_true]
  intro h
  exact absurd (hkeys.mpr h) (by simp [mchRequirementsInit])

/-- What holds of the seeds and requirements of every run. -/
structure SeedState.Extracted (base : Btf) (state : SeedState) : Prop where
  good : state.Good base
  seeded : ∀ key, state.requirements.holds key = true →
    mchTypeSetContains state.seeds key.typeId = true
  rooted : ∀ key, state.requirements.holds key = true → key.Rooted base

theorem RequirementKey.Valid.typeId_lt {base : Btf} {key : RequirementKey} (h : key.Valid base) :
    key.typeId < btfTypeCnt base := by
  cases key with
  | root id => exact h.1
  | member id i =>
      obtain ⟨_, _, type, htype, _⟩ := h
      exact btfTypeById_eq_some_lt htype

theorem extractObjects_extracted {load : CString → Except Fault ObjectDoc} {base : Btf}
    {paths : List CString} {final : SeedState × SeedStats}
    (h : extractObjects load base paths = .ok final) : final.1.Extracted base := by
  obtain ⟨index, hindex, hrun⟩ := bind_eq_ok.mp h
  obtain ⟨asked, hasked⟩ := exists_asks (mchBtfIndexInit_sound hindex) load
  obtain ⟨_, happly⟩ := hasked.sound hrun
  have hjoins := applyRequests_joins (initialSeedState_good base) happly
  have hmem : ∀ key, final.1.requirements.holds key = true →
      ∃ path ∈ paths, ∃ batch, asked path = some batch ∧
        ∃ origin, .need key origin ∈ batch.requests := by
    intro key hkey
    rcases (hjoins.holds_iff key).mp hkey with hold | ⟨origin, hmem⟩
    · rw [not_holds_initial] at hold
      cases hold
    · obtain ⟨path, hpath, batch, hbatch, hmem⟩ := mem_requestsOf.mp hmem
      exact ⟨path, hpath, batch, hbatch, origin, hmem⟩
  constructor
  · exact hjoins.good
  · intro key hkey
    obtain ⟨path, hpath, batch, hbatch, origin, hneed⟩ := hmem key hkey
    rw [hjoins.seeds_iff]
    right
    refine ⟨mem_requestsOf.mpr ⟨path, hpath, batch, hbatch, batch.covered key origin hneed⟩, ?_⟩
    exact (hjoins.good.consistent.valid key hkey).typeId_lt
  · intro key hkey
    obtain ⟨path, _, batch, _, origin, hneed⟩ := hmem key hkey
    exact batch.rooted key origin hneed

/-- A run over objects that are all among those of a run that succeeded
succeeds, and leaves no more. -/
theorem extractObjects_of_subset {load : CString → Except Fault ObjectDoc} {base : Btf}
    {paths others : List CString} {final : SeedState × SeedStats}
    (hsub : ∀ path ∈ others, path ∈ paths) (h : extractObjects load base paths = .ok final) :
    ∃ last, extractObjects load base others = .ok last ∧
      (∀ key, last.1.requirements.holds key = true → final.1.requirements.holds key = true) ∧
      ∀ id, mchTypeSetContains last.1.seeds id = true →
        mchTypeSetContains final.1.seeds id = true := by
  obtain ⟨index, hindex, hrun⟩ := bind_eq_ok.mp h
  obtain ⟨asked, hasked⟩ := exists_asks (mchBtfIndexInit_sound hindex) load
  obtain ⟨hall, happly⟩ := hasked.sound hrun
  have hgood := initialSeedState_good base
  have hjoins := applyRequests_joins hgood happly
  have hmem : ∀ request, request ∈ requestsOf asked others → request ∈ requestsOf asked paths := by
    intro request hrequest
    obtain ⟨path, hpath, hbatch⟩ := mem_requestsOf.mp hrequest
    exact mem_requestsOf.mpr ⟨path, hsub path hpath, hbatch⟩
  obtain ⟨s', hs'⟩ := applyRequests_succeeds hjoins.good.consistent hgood
    (fun key hkey => (hjoins.holds_iff key).mpr (Or.inl hkey))
    (fun key origin hneed => (hjoins.holds_iff key).mpr (Or.inr ⟨origin, hmem _ hneed⟩))
  obtain ⟨last, hlast, rfl⟩ := @Asks.complete load base index asked hasked others (initialSeedState base, {}) s'
    (fun path hpath => hall path (hsub path hpath)) hs'
  have hjoins' := applyRequests_joins hgood hs'
  refine ⟨last, bind_eq_ok.mpr ⟨index, hindex, hlast⟩, ?_, ?_⟩
  · intro key hkey
    rw [hjoins.holds_iff]
    rcases (hjoins'.holds_iff key).mp hkey with hold | ⟨origin, hneed⟩
    · exact Or.inl hold
    · exact Or.inr ⟨origin, hmem _ hneed⟩
  · intro id hid
    rw [hjoins.seeds_iff]
    rcases (hjoins'.seeds_iff id).mp hid with hold | ⟨hseed, hlt⟩
    · exact Or.inl hold
    · exact Or.inr ⟨hmem _ hseed, hlt⟩

end MinCorehdr
