import Mathlib.Order.ConditionallyCompleteLattice.Basic
import MinCorehdr.ObjectDemand
import MinCorehdr.StoreRuns
import MinCorehdr.Support.FirstAsked

/-!
# Where the witness puts a requirement down to

A trace says which object asked for a requirement and where.  The traces of a run are those
of the first candidates and relocations that ask, in the order of the objects.
-/

namespace MinCorehdr

open Support.FirstAsked Support.Result

/-! ## Traces -/

/-- The trace of a requirement that comes from here. -/
def RequirementOrigin.trace (origin : RequirementOrigin) (key : RequirementKey) : RequirementTrace :=
  key.trace (some origin)

theorem appendTrace_traces {requirements requirements' : Requirements} {key : RequirementKey}
    {origin : RequirementOrigin}
    (h : appendTrace allGranted requirements (origin.trace key).kind (origin.trace key).typeId
      (origin.trace key).memberIndex (some origin) = .ok requirements') :
    requirements'.traces = requirements.traces ++ [origin.trace key] := by
  rcases appendTrace_cases ⟨key, some origin, allGranted⟩ requirements with
    ⟨_, fault, hfail⟩ | ⟨_, capacity, hok⟩
  · cases h.symm.trans hfail
  · cases h.symm.trans hok
    rfl

/-- What the store has come to trace is put down to this origin. -/
def PutDownTo (origin : RequirementOrigin) (before after : SeedState) : Prop :=
  ∃ traces, after.requirements.traces = before.requirements.traces ++ traces ∧
    ∀ trace ∈ traces, trace = origin.trace trace.key

section

variable {origin : RequirementOrigin} {before mid after state final : SeedState}

theorem PutDownTo.of_eq (h : after.requirements.traces = before.requirements.traces) :
    PutDownTo origin before after :=
  ⟨[], by rw [h, List.append_nil], by simp⟩

theorem PutDownTo.of_entry {key : RequirementKey}
    (h : after.requirements.traces = before.requirements.traces ++ [origin.trace key]) :
    PutDownTo origin before after := by
  refine ⟨[origin.trace key], h, fun trace htrace => ?_⟩
  have heq := List.mem_singleton.mp htrace
  have hkey : trace.key = key := by
    rw [heq]
    exact key.key_trace (some origin)
  rw [hkey, heq]

theorem PutDownTo.trans (h : PutDownTo origin before mid) (h' : PutDownTo origin mid after) :
    PutDownTo origin before after := by
  obtain ⟨traces, heq, hall⟩ := h
  obtain ⟨traces', heq', hall'⟩ := h'
  refine ⟨traces ++ traces', ?_, ?_⟩
  · rw [heq', heq, List.append_assoc]
  · intro trace htrace
    rcases List.mem_append.mp htrace with htrace | htrace
    · exact hall trace htrace
    · exact hall' trace htrace

theorem requireTypeRoot_putDown {id : Nat}
    (h : requireTypeRoot state id (some origin) = .ok final) : PutDownTo origin state final := by
  obtain ⟨requirements, hadd, rfl⟩ := withRequirements_eq_ok.mp h
  unfold mchRequirementsAddTypeRoot at hadd
  split at hadd
  next => cases hadd
  next =>
    split at hadd
    next =>
      cases hadd
      exact PutDownTo.of_eq rfl
    next =>
      split at hadd
      next => cases hadd
      next appended happend =>
        have htraces := @appendTrace_traces state.requirements appended (.root id) origin happend
        cases hadd
        exact @PutDownTo.of_entry origin state _ (.root id) htraces

theorem ensureRecordMemberWords_traces {requirements requirements' : Requirements} {id count : Nat}
    {hid : id < requirements.typeCount}
    (h : ensureRecordMemberWords allGranted requirements id count hid = .ok requirements') :
    requirements'.traces = requirements.traces := by
  rcases ensureRecordMemberWords_cases h with ⟨_, _, rfl⟩ | ⟨_, rfl⟩
  · rfl
  · rfl

variable {base object : Btf} {objectPath access : CString}

theorem requireMember_putDown {id i : Nat}
    (h : requireMember base state id i (some origin) = .ok final) : PutDownTo origin state final := by
  obtain ⟨mid, hmid, h⟩ := bind_eq_ok.mp h
  cases h
  obtain ⟨requirements, hadd, rfl⟩ := withRequirements_eq_ok.mp hmid
  unfold mchRequirementsAddRecordMember at hadd
  split at hadd
  next => cases hadd
  next =>
    split at hadd
    next => cases hadd
    next =>
      split at hadd
      next => cases hadd
      next =>
        split at hadd
        next => cases hadd
        next =>
          split at hadd
          next => cases hadd
          next ensured hensure =>
            have hsame := ensureRecordMemberWords_traces hensure
            split at hadd
            next =>
              cases hadd
              exact PutDownTo.of_eq hsame
            next =>
              split at hadd
              next => cases hadd
              next appended happend =>
                cases hadd
                apply @PutDownTo.of_entry origin state _ (.member id i)
                change (markRecordMember appended id i).traces = _
                rw [(markRecordMember_frame appended id i).2.2.1,
                  @appendTrace_traces ensured appended (.member id i) origin happend, hsame]

/-- The loop over the unnamed members adds nothing of another origin. -/
theorem searchAnonymousMembers_putDown {recordId : Nat}
    {search : SeedState → Nat → BtfType → Except Fault (SeedState × Option Nat)}
    (hsearch : ∀ state id record found, search state id record = .ok found →
      PutDownTo origin state found.1) {members : List (BtfMember × Nat)} :
    ∀ {state : SeedState} {found : SeedState × Option Nat},
      searchAnonymousMembers base recordId (some origin) search members state = .ok found →
        PutDownTo origin state found.1 := by
  induction members with
  | nil =>
      intro state found h
      cases h
      exact PutDownTo.of_eq rfl
  | cons member members ih =>
      intro state found h
      obtain ⟨member, i⟩ := member
      rw [searchAnonymousMembers] at h
      split at h
      next => exact ih h
      next =>
        split at h
        next => exact ih h
        next nestedId nested _ =>
          obtain ⟨⟨mid, memberType⟩, hfound, h⟩ := bind_eq_ok.mp h
          have hfirst := hsearch state nestedId nested _ hfound
          cases memberType with
          | none => exact hfirst.trans (ih h)
          | some memberType =>
              obtain ⟨last, hrequire, h⟩ := bind_eq_ok.mp h
              cases h
              exact hfirst.trans (requireMember_putDown hrequire)

theorem markBaseMemberPath_putDown {memberName : Option CString} (levels : Nat) :
    ∀ {fallback : Nat} (state : SeedState) (id : Nat) (record : BtfType)
      (found : SeedState × Option Nat),
      markBaseMemberPath base memberName (some origin) levels fallback state id record = .ok found →
        PutDownTo origin state found.1 := by
  induction levels with
  | zero =>
      intro fallback state id record found h
      cases h
  | succ levels ih =>
      intro fallback state id record found h
      rw [markBaseMemberPath] at h
      split at h
      next =>
        obtain ⟨last, hrequire, h⟩ := bind_eq_ok.mp h
        cases h
        exact requireMember_putDown hrequire
      next =>
        split at h
        next =>
          cases h
          exact PutDownTo.of_eq rfl
        next => exact searchAnonymousMembers_putDown ih h

theorem recordAccessPath_putDown (fuel : Nat) :
    ∀ {cursor : CString} {objectId baseId : Nat} {state : SeedState},
      recordAccessPath base object objectPath access (some origin) fuel cursor objectId baseId state =
        .ok final → PutDownTo origin state final := by
  induction fuel with
  | zero =>
      intro cursor objectId baseId state h
      cases h
  | succ fuel ih =>
      intro cursor objectId baseId state h
      by_cases hcursor : cursor = []
      · rw [recordAccessPath, if_pos hcursor] at h
        cases h
        exact PutDownTo.of_eq rfl
      · cases hparse : parseAccessComponent cursor with
        | none =>
            rw [recordAccessPath, if_neg hcursor, hparse] at h
            exact absurd h onError_fail_ne_ok
        | some parsed =>
            obtain ⟨component, rest⟩ := parsed
            rw [recordAccessPath_succ hparse] at h
            obtain ⟨⟨mid, objectId', baseId'⟩, hstep, hrest⟩ := bind_eq_ok.mp h
            obtain ⟨_, _, _, _, _, _, _, _, _, hmark⟩ := recordComponent_eq_ok hstep
            exact (markBaseMemberPath_putDown 17 _ _ _ _ hmark).trans (ih hrest)

theorem recordCoreReloRequirements_putDown {relo : CoreRelo} {baseId : Nat} {text : Option CString}
    (h : recordCoreReloRequirements base object objectPath relo baseId text (some origin) state =
      .ok final) : PutDownTo origin state final := by
  unfold recordCoreReloRequirements at h
  split at h
  next =>
    cases h
    exact PutDownTo.of_eq rfl
  next =>
    split at h
    next =>
      cases h
      exact PutDownTo.of_eq rfl
    next =>
      split at h
      next => exact absurd h onError_fail_ne_ok
      next => exact recordAccessPath_putDown _ h

end

/-! ## Asks -/

abbrev RequirementAsk := Ask RequirementKey RequirementOrigin

def SeedState.held (state : SeedState) : Set RequirementKey :=
  { key | state.requirements.holds key = true }

/-- The asks have been answered, and what is new is put down to the first of them. -/
structure Credits (base : Btf) (before after : SeedState) (asks : List RequirementAsk) : Prop where
  good : after.Good base
  held_eq : after.held = heldAfter before.held asks
  logs : ∃ traces, after.requirements.traces = before.requirements.traces ++ traces ∧
    Logs RequirementOrigin.trace RequirementTrace.key before.held asks traces

section

variable {base : Btf} {before mid after state : SeedState} {asks asks' : List RequirementAsk}

theorem Credits.refl (h : state.Good base) : Credits base state state [] :=
  ⟨h, (heldAfter_nil _).symm, [], (List.append_nil _).symm, .nil⟩

theorem Credits.trans (h : Credits base before mid asks) (h' : Credits base mid after asks') :
    Credits base before after (asks ++ asks') := by
  obtain ⟨traces, heq, hlogs⟩ := h.logs
  obtain ⟨traces', heq', hlogs'⟩ := h'.logs
  rw [h.held_eq] at hlogs'
  refine ⟨h'.good, ?_, traces ++ traces', ?_, hlogs.append hlogs'⟩
  · rw [h'.held_eq, h.held_eq, heldAfter_append]
  · rw [heq', heq, List.append_assoc]

/-- A part of an object that adds a demand, all of it put down to one origin. -/
theorem Credits.of_adds {origin : RequirementOrigin} {demand : Demand} (hgood : before.Good base)
    (hadds : Adds base before after demand) (hput : PutDownTo origin before after) :
    Credits base before after [⟨origin, demand.2⟩] := by
  obtain ⟨traces, heq, hall⟩ := hput
  have hheld : after.held = before.held ∪ demand.2 := congrArg Prod.snd hadds.demand_eq
  have hnodup := hadds.good.consistent.nodup_keys
  rw [heq, List.map_append, List.nodup_append] at hnodup
  obtain ⟨_, hown, hapart⟩ := hnodup
  refine ⟨hadds.good, ?_, traces, heq, .single hall hown fun key => ?_⟩
  · rw [hheld]
    ext key
    simp [heldAfter]
  · have hbefore : key ∈ before.requirements.traces.map RequirementTrace.key ↔ key ∈ before.held :=
      hgood.consistent.mem_keys key
    have hafter : key ∈ after.requirements.traces.map RequirementTrace.key ↔ key ∈ after.held :=
      hadds.good.consistent.mem_keys key
    rw [heq, List.map_append, List.mem_append, hbefore, hheld, Set.mem_union] at hafter
    constructor
    · intro hkey
      have hnew : key ∉ before.held := fun hold => hapart key (hbefore.mpr hold) key hkey rfl
      exact ⟨(hafter.mp (Or.inr hkey)).resolve_left hnew, hnew⟩
    · rintro ⟨hasked, hnew⟩
      exact (hafter.mpr (Or.inr hasked)).resolve_left hnew

/-- A loop is credited with what its turns are credited with. -/
theorem Credits.foldlM {α : Type}
    {step : SeedState × SeedStats → α → Except Fault (SeedState × SeedStats)}
    {asksOf : α → List RequirementAsk} {as : List α}
    (h : ∀ a ∈ as, ∀ r r', r.1.Good base → step r a = .ok r' → Credits base r.1 r'.1 (asksOf a))
    {r r' : SeedState × SeedStats} (hgood : r.1.Good base) (hrun : as.foldlM step r = .ok r') :
    Credits base r.1 r'.1 (as.flatMap asksOf) :=
  foldlM_collects (P := fun r : SeedState × SeedStats => r.1.Good base)
    (R := fun (r r' : SeedState × SeedStats) asks => Credits base r.1 r'.1 asks)
    (fun _ hr => Credits.refl hr) (fun _ _ _ _ _ hfirst hrest => hfirst.trans hrest)
    (fun _ _ _ hcredits => hcredits.good) h hgood hrun

end

/-! ## Objects -/

/-- An object's types, and its relocations with their places. -/
structure ObjectText where
  btf : Btf
  doc : ExtDocument

/-- The object that is loaded is this one. -/
inductive HasText (load : CString → Except Fault ObjectDoc) (path : CString) (text : ObjectText) :
    Prop
  | noExt (hload : load path = .ok { btf := text.btf, ext := none }) (hrelos : text.doc.relos = [])
  | ext {ext : BtfExt} (hload : load path = .ok { btf := text.btf, ext := some ext })
      (hholds : ext.Holds text.doc)

/-- What a type of the object asks for as a candidate. -/
def seedAsks (base object : Btf) (path : CString) (pair : BtfType × Nat) : List RequirementAsk :=
  [⟨seedOrigin path, (typeDemand base object pair.2).2⟩]

def ObjectText.reloAsks (base : Btf) (text : ObjectText) (path : CString) (placed : PlacedRelo) :
    List RequirementAsk :=
  [⟨text.doc.origin text.btf path placed, (reloDemand base text.btf placed.relo).2⟩]

/-- The candidates in the order of their ids, then the relocations in file order. -/
def ObjectText.asks (base : Btf) (path : CString) (text : ObjectText) : List RequirementAsk :=
  (text.btf.types.zipIdx 1).flatMap (seedAsks base text.btf path) ++
    text.doc.placed.flatMap (text.reloAsks base path)

section

variable {base : Btf} {index : BtfIndex} {path : CString} {text : ObjectText}
  {load : CString → Except Fault ObjectDoc} {state final : SeedState × SeedStats}

theorem seedObjectType_putDown {object : Btf} {pair : BtfType × Nat}
    (hindex : mchBtfIndexInit base = .ok index) (hrefs : object.RefsInRange) (hzero : pair.2 ≠ 0)
    (htype : btfTypeById object pair.2 = some pair.1)
    (h : seedObjectType index object path state pair = .ok final) :
    PutDownTo (seedOrigin path) state.1 final.1 := by
  rcases seedObjectType_eq_ok hindex hrefs hzero htype h with
    ⟨_, rfl⟩ | ⟨_, _, rfl⟩ | ⟨baseId, mid, _, hrequire, rfl⟩
  · exact PutDownTo.of_eq rfl
  · exact PutDownTo.of_eq rfl
  · have hput : PutDownTo (seedOrigin path) state.1 mid := requireTypeRoot_putDown hrequire
    exact hput

theorem extractRelo_putDown {placed : PlacedRelo} (hindex : mchBtfIndexInit base = .ok index)
    (hrefs : text.btf.RefsInRange)
    (h : text.doc.extractRelo index text.btf path state placed = .ok final) :
    PutDownTo (text.doc.origin text.btf path placed) state.1 final.1 := by
  obtain ⟨baseId, rooted, _, hrooted, hrecorded, _⟩ := extractRelo_eq_ok hindex hrefs h
  have hroot : PutDownTo (text.doc.origin text.btf path placed) (addSeed state.1 baseId).1 rooted :=
    requireTypeRoot_putDown hrooted
  exact PutDownTo.trans hroot (recordCoreReloRequirements_putDown hrecorded)

/-- The two loops over an object that succeeds. -/
theorem extractObject_eq_ok (htext : HasText load path text)
    (h : extractObject load index state path = .ok final) :
    ∃ seeded last,
      (text.btf.types.zipIdx 1).foldlM (seedObjectType index text.btf path) (state.1, {}) =
        .ok seeded ∧
      text.doc.placed.foldlM (text.doc.extractRelo index text.btf path) seeded = .ok last ∧
      final = (last.1, state.2.add last.2) := by
  obtain ⟨object, hload, h⟩ := bind_eq_ok.mp h
  obtain ⟨seeded, hseeds, h⟩ := bind_eq_ok.mp h
  obtain ⟨last, hrelos, h⟩ := bind_eq_ok.mp h
  cases h
  cases htext with
  | noExt hload' hnone =>
      cases hload.symm.trans hload'
      refine ⟨seeded, last, hseeds, ?_, rfl⟩
      rw [ExtDocument.placed, hnone]
      exact hrelos
  | ext hload' hholds =>
      cases hload.symm.trans hload'
      rw [mchExtractCoreReloSeedsWithRequirements_of_holds hholds] at hrelos
      exact ⟨seeded, last, hseeds, hrelos, rfl⟩

/-- An object is credited with its asks, in their order. -/
theorem extractObject_credits (hindex : mchBtfIndexInit base = .ok index) (hformat : base.InFormat)
    (hsearch : base.Searchable) (htext : HasText load path text) (hrefs : text.btf.RefsInRange)
    (hgood : state.1.Good base) (h : extractObject load index state path = .ok final) :
    Credits base state.1 final.1 (text.asks base path) := by
  obtain ⟨seeded, last, hseeds, hrelos, rfl⟩ := extractObject_eq_ok htext h
  have hfirst : Credits base state.1 seeded.1
      ((text.btf.types.zipIdx 1).flatMap (seedAsks base text.btf path)) := by
    refine @Credits.foldlM base (BtfType × Nat) (seedObjectType index text.btf path) _ _
      (fun pair hpair r r' hr hstep => ?_) (state.1, {}) seeded hgood hseeds
    obtain ⟨hzero, htype⟩ := mem_types_zipIdx hpair
    have hasks := @seedObjectType_asks base text.btf index path hindex hformat hrefs r pair hzero htype
      hr
    exact Credits.of_adds hr (hasks.adds r' hstep)
      (seedObjectType_putDown hindex hrefs hzero htype hstep)
  have hsecond : Credits base seeded.1 last.1
      (text.doc.placed.flatMap (text.reloAsks base path)) := by
    refine @Credits.foldlM base PlacedRelo (text.doc.extractRelo index text.btf path) _ _
      (fun placed _ r r' hr hstep => ?_) seeded last hfirst.good hrelos
    have hasks := @extractRelo_asks base text.btf index path text.doc hindex hformat hsearch hrefs r
      placed hr
    exact Credits.of_adds hr (hasks.adds r' hstep) (extractRelo_putDown hindex hrefs hstep)
  exact hfirst.trans hsecond

end

/-! ## Runs -/

/-- What the objects of a run ask for, one after another. -/
def runAsks (base : Btf) (text : CString → ObjectText) (paths : List CString) : List RequirementAsk :=
  paths.flatMap fun path => (text path).asks base path

theorem held_initialSeedState (base : Btf) : (initialSeedState base).held = ∅ := by
  ext key
  simp [SeedState.held, not_holds_initial]

/-- The traces of a run are the log of what its objects ask for. -/
theorem extractObjects_logs {load : CString → Except Fault ObjectDoc} {base : Btf}
    {text : CString → ObjectText} {paths : List CString} (hformat : base.InFormat)
    (hsearch : base.Searchable) (htext : ∀ path ∈ paths, HasText load path (text path))
    (hrefs : ∀ path ∈ paths, (text path).btf.RefsInRange) {final : SeedState × SeedStats}
    (h : extractObjects load base paths = .ok final) :
    Logs RequirementOrigin.trace RequirementTrace.key ∅ (runAsks base text paths)
      final.1.requirements.traces := by
  obtain ⟨index, hindex, hrun⟩ := bind_eq_ok.mp h
  have hcredits : Credits base (initialSeedState base) final.1 (runAsks base text paths) := by
    refine @Credits.foldlM base CString (extractObject load index) _ _
      (fun path hpath state state' hstate hstep => ?_) (initialSeedState base, {}) final
      (initialSeedState_good base) hrun
    exact extractObject_credits hindex hformat hsearch (htext path hpath) (hrefs path hpath) hstate
      hstep
  obtain ⟨traces, heq, hlogs⟩ := hcredits.logs
  rw [held_initialSeedState] at hlogs
  have hnone : (initialSeedState base).requirements.traces = [] := rfl
  rw [heq, hnone, List.nil_append]
  exact hlogs

/-- The witness text of a store, from the lines of its traces. -/
theorem mchRequirementsWriteExplanation_eq_ok {base : Btf} {requirements : Requirements}
    {text : CString} (h : mchRequirementsWriteExplanation base requirements = .ok text) :
    ∃ lines, collect (explanationLine base) requirements.traces = .ok lines ∧
      text = "requirements:\n".toList ++
        if requirements.traces = [] then "  direct requirements: 0\n".toList else lines := by
  unfold mchRequirementsWriteExplanation at h
  by_cases hempty : requirements.traces = []
  · rw [if_pos hempty] at h
    cases h
    refine ⟨[], ?_, ?_⟩
    · rw [hempty]
      rfl
    · rw [if_pos hempty]
  · rw [if_neg hempty] at h
    obtain ⟨lines, hlines, h⟩ := bind_eq_ok.mp h
    cases h
    exact ⟨lines, hlines, by rw [if_neg hempty]⟩

/-- The witness of a run has a line for each requirement, put down to the first candidate or
relocation that asks for it, in the order in which they ask. -/
theorem generate_explanation {load : CString → Except Fault ObjectDoc} {fuel : Nat} {base : Btf}
    {options : Options} {text : CString → ObjectText} {paths : List CString} {out : Output}
    (hformat : base.InFormat) (hsearch : base.Searchable)
    (htext : ∀ path ∈ paths, HasText load path (text path))
    (hrefs : ∀ path ∈ paths, (text path).btf.RefsInRange) (hexplain : options.explain = true)
    (h : generate load fuel base options paths = .ok out) :
    ∃ traces lines,
      Logs RequirementOrigin.trace RequirementTrace.key ∅ (runAsks base text paths) traces ∧
      (∀ trace, trace ∈ traces ↔ EnteredFirst RequirementOrigin.trace RequirementTrace.key
        (runAsks base text paths) trace) ∧
      collect (explanationLine base) traces = .ok lines ∧
      out.explanation = some ("requirements:\n".toList ++
        if traces = [] then "  direct requirements: 0\n".toList else lines) := by
  obtain ⟨⟨state, total⟩, hextract, h⟩ := bind_eq_ok.mp h
  obtain ⟨⟨header, added⟩, _, h⟩ := bind_eq_ok.mp h
  obtain ⟨explanation, hexplained, h⟩ := bind_eq_ok.mp h
  cases h
  have hlogs := extractObjects_logs hformat hsearch htext hrefs hextract
  unfold explain at hexplained
  rw [if_pos hexplain] at hexplained
  obtain ⟨printed, hprinted, rfl⟩ : ∃ printed,
      mchRequirementsWriteExplanation base state.requirements = .ok printed ∧
        explanation = some printed := by
    cases hwrite : mchRequirementsWriteExplanation base state.requirements with
    | ok printed =>
        rw [hwrite] at hexplained
        exact ⟨printed, rfl, (Except.ok.inj hexplained).symm⟩
    | error fault =>
        rw [hwrite] at hexplained
        cases hexplained
  obtain ⟨lines, hlines, rfl⟩ := mchRequirementsWriteExplanation_eq_ok hprinted
  refine ⟨state.requirements.traces, lines, hlogs, fun trace => ?_, hlines, rfl⟩
  have hmem := hlogs.mem_iff trace
  simpa using hmem

/-- The object `a` without relocations, any other with the read of `R.x`. -/
def writtenText (path : CString) : ObjectText where
  btf := smallBase
  doc := if path = ['a'] then { functions := [], lines := [], relos := [] } else readsXDocument

theorem hasText_written : ∀ path ∈ [['a'], ['b']], HasText loadWritten path (writtenText path) := by
  intro path hpath
  rcases List.mem_pair.mp hpath with rfl | rfl
  · exact .noExt rfl rfl
  · exact .ext rfl readsXDocument_encodable.holds

theorem generate_written_isSome : (generate loadWritten 10 smallBase { explain := true }
    [['a'], ['b']]).toOption.isSome = true := by
  decide +kernel

theorem generate_explanation_written : ∃ out traces lines,
    generate loadWritten 10 smallBase { explain := true } [['a'], ['b']] = .ok out ∧
      Logs RequirementOrigin.trace RequirementTrace.key ∅
        (runAsks smallBase writtenText [['a'], ['b']]) traces ∧
      (∀ trace, trace ∈ traces ↔ EnteredFirst RequirementOrigin.trace RequirementTrace.key
        (runAsks smallBase writtenText [['a'], ['b']]) trace) ∧
      collect (explanationLine smallBase) traces = .ok lines ∧
      out.explanation = some ("requirements:\n".toList ++
        if traces = [] then "  direct requirements: 0\n".toList else lines) := by
  obtain ⟨out, hout⟩ := exists_ok_of_isSome generate_written_isSome
  obtain ⟨traces, lines, hresult⟩ := generate_explanation (.of_types (by decide) (by decide))
    (.of_named (by decide)) hasText_written (fun _ _ => smallBase_refsInRange) rfl hout
  exact ⟨out, traces, lines, hout, hresult⟩

end MinCorehdr
