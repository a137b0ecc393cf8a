import Mathlib.Data.Set.Card
import MinCorehdr.Store

/-!
# Runs of the requirement store

Any sequence of calls on a fresh store, where each call says which of its
allocations succeed.  A call either leaves the store alone, or adds one trace with
its bit and its count; only a member call that gets the word list of its record
and then cannot append its trace does something in between.
-/

namespace MinCorehdr

open Support.Bitset Support.Result

/-- One call: what it asks for, on whose behalf, and the allocations that succeed. -/
structure StoreCall where
  key : RequirementKey
  origin : Option RequirementOrigin
  granted : AllocSite → Bool

def StoreCall.run (call : StoreCall) (base : Btf) (requirements : Requirements) :
    Requirements × Except Fault Unit :=
  match call.key with
  | .root typeId =>
      mchRequirementsAddTypeRoot call.granted requirements typeId call.origin
  | .member typeId memberIndex =>
      mchRequirementsAddRecordMember call.granted base requirements typeId memberIndex call.origin

/-- The store after the calls. -/
def storeAfter (base : Btf) (typeCount : Nat) (calls : List StoreCall) : Requirements :=
  calls.foldl (fun requirements call => (call.run base requirements).1)
    (mchRequirementsInit typeCount)

/-- What a trace keeps of a text of its origin: an empty one is dropped. -/
def keptText : Option CString → Option CString
  | some (c :: text) => some (c :: text)
  | _ => none

def RequirementKey.trace (key : RequirementKey) (origin : Option RequirementOrigin) :
    RequirementTrace :=
  let (kind, typeId, memberIndex) : TraceKind × Nat × Nat := match key with
    | .root typeId => (.typeRoot, typeId, 0)
    | .member typeId memberIndex => (.recordMember, typeId, memberIndex)
  { kind, source := originSource origin, typeId, memberIndex
    objectPath := keptText (origin.bind (·.objectPath))
    detail := keptText (origin.bind (·.detail))
    access := keptText (origin.bind (·.access))
    location := keptText (origin.bind (·.location)) }

@[simp] theorem RequirementKey.key_trace (key : RequirementKey)
    (origin : Option RequirementOrigin) : (key.trace origin).key = key := by
  cases key <;> rfl

/-! ## Appending a trace -/

/-- A text that has to be copied and cannot be. -/
def TextBlocked (granted : Bool) (text : Option CString) : Prop :=
  granted = false ∧ text ≠ none ∧ text ≠ some []

theorem dupOptional_cases (granted : Bool) (text : Option CString) :
    TextBlocked granted text ∧ (∃ fault, dupOptional granted text = .error fault) ∨
      ¬TextBlocked granted text ∧ dupOptional granted text = .ok (keptText text) := by
  unfold TextBlocked dupOptional keptText
  cases text with
  | none => simp
  | some text =>
      cases text with
      | nil => simp
      | cons c text =>
          cases granted with
          | true => simp
          | false => simp [fail]

/-- The trace list is full and cannot be grown. -/
def GrowthBlocked (granted : AllocSite → Bool) (requirements : Requirements) : Prop :=
  requirements.traceCapacity ≤ requirements.traces.length ∧
    let nextCapacity :=
      if requirements.traceCapacity = 0 then 16 else requirements.traceCapacity * 2 % 2 ^ 64
    nextCapacity < requirements.traceCapacity ∨ sizeMax / traceSize < nextCapacity ∨
      granted .traceGrowth = false

theorem ensureTraceCapacity_cases (granted : AllocSite → Bool) (requirements : Requirements) :
    GrowthBlocked granted requirements ∧
        (∃ fault, ensureTraceCapacity granted requirements = .error fault) ∨
      ¬GrowthBlocked granted requirements ∧
        ∃ capacity, ensureTraceCapacity granted requirements = .ok capacity := by
  unfold GrowthBlocked ensureTraceCapacity
  simp only
  by_cases hroom : requirements.traces.length < requirements.traceCapacity
  · rw [if_pos hroom]
    exact Or.inr ⟨fun hblocked => absurd hblocked.1 (Nat.not_le.mpr hroom), _, rfl⟩
  · rw [if_neg hroom]
    generalize (if requirements.traceCapacity = 0 then 16
      else requirements.traceCapacity * 2 % 2 ^ 64) = next
    by_cases hlarge : next < requirements.traceCapacity ∨ sizeMax / traceSize < next
    · rw [if_pos hlarge]
      refine Or.inl ⟨⟨Nat.not_lt.mp hroom, ?_⟩, _, rfl⟩
      rcases hlarge with hwrap | hlimit
      · exact Or.inl hwrap
      · exact Or.inr (Or.inl hlimit)
    · rw [if_neg hlarge]
      cases hgrant : granted .traceGrowth with
      | true =>
          refine Or.inr ⟨?_, next, rfl⟩
          rintro ⟨_, hwrap | hlimit | hfalse⟩
          · exact hlarge (Or.inl hwrap)
          · exact hlarge (Or.inr hlimit)
          · cases hfalse
      | false => exact Or.inl ⟨⟨Nat.not_lt.mp hroom, Or.inr (Or.inr rfl)⟩, _, rfl⟩

/-- The trace of a call cannot be appended: an id beyond 32 bits, a text that cannot be
copied, or a list that cannot grow. -/
structure StoreCall.TraceFits (call : StoreCall) (requirements : Requirements) : Prop where
  typeId_le : (call.key.trace call.origin).typeId ≤ uint32Max
  memberIndex_le : (call.key.trace call.origin).memberIndex ≤ uint32Max
  objectPath : ¬TextBlocked (call.granted .objectPath) (call.origin.bind (·.objectPath))
  detail : ¬TextBlocked (call.granted .detail) (call.origin.bind (·.detail))
  access : ¬TextBlocked (call.granted .access) (call.origin.bind (·.access))
  location : ¬TextBlocked (call.granted .location) (call.origin.bind (·.location))
  growth : ¬GrowthBlocked call.granted requirements

theorem appendTrace_cases (call : StoreCall) (requirements : Requirements) :
    let trace := call.key.trace call.origin
    ¬call.TraceFits requirements ∧ (∃ fault, appendTrace call.granted requirements trace.kind
        trace.typeId trace.memberIndex call.origin = .error fault) ∨
      call.TraceFits requirements ∧ ∃ capacity, appendTrace call.granted requirements trace.kind
        trace.typeId trace.memberIndex call.origin = .ok { requirements with
          traces := requirements.traces ++ [trace]
          traceCapacity := capacity } := by
  intro trace
  unfold appendTrace
  by_cases hrange : uint32Max < trace.typeId ∨ uint32Max < trace.memberIndex
  · rw [if_pos hrange]
    refine Or.inl ⟨fun hfits => ?_, _, rfl⟩
    rcases hrange with hlt | hlt
    · exact absurd hfits.typeId_le (Nat.not_le.mpr hlt)
    · exact absurd hfits.memberIndex_le (Nat.not_le.mpr hlt)
  · rw [if_neg hrange]
    simp only
    rcases dupOptional_cases (call.granted .objectPath) (call.origin.bind (·.objectPath)) with
      ⟨hblocked, _, hfail⟩ | ⟨hpath, hok⟩
    · rw [hfail]
      exact Or.inl ⟨fun hfits => hfits.objectPath hblocked, _, rfl⟩
    rw [hok, ok_bind]
    rcases dupOptional_cases (call.granted .detail) (call.origin.bind (·.detail)) with
      ⟨hblocked, _, hfail⟩ | ⟨hdetail, hok⟩
    · rw [hfail]
      exact Or.inl ⟨fun hfits => hfits.detail hblocked, _, rfl⟩
    rw [hok, ok_bind]
    rcases dupOptional_cases (call.granted .access) (call.origin.bind (·.access)) with
      ⟨hblocked, _, hfail⟩ | ⟨haccess, hok⟩
    · rw [hfail]
      exact Or.inl ⟨fun hfits => hfits.access hblocked, _, rfl⟩
    rw [hok, ok_bind]
    rcases dupOptional_cases (call.granted .location) (call.origin.bind (·.location)) with
      ⟨hblocked, _, hfail⟩ | ⟨hlocation, hok⟩
    · rw [hfail]
      exact Or.inl ⟨fun hfits => hfits.location hblocked, _, rfl⟩
    rw [hok, ok_bind]
    rcases ensureTraceCapacity_cases call.granted requirements with
      ⟨hblocked, _, hfail⟩ | ⟨hgrowth, capacity, hok⟩
    · rw [hfail]
      exact Or.inl ⟨fun hfits => hfits.growth hblocked, _, rfl⟩
    rw [hok, ok_bind]
    have htypeId : trace.typeId ≤ uint32Max := Nat.not_lt.mp fun hlt => hrange (Or.inl hlt)
    have hmemberIndex : trace.memberIndex ≤ uint32Max := Nat.not_lt.mp fun hlt => hrange (Or.inr hlt)
    refine Or.inr ⟨⟨htypeId, hmemberIndex, hpath, hdetail, haccess, hlocation, hgrowth⟩, capacity, ?_⟩
    cases hkey : call.key <;> simp only [trace, RequirementKey.trace, hkey]

/-! ## One call -/

/-- Allocated word lists have the size of their record. -/
structure Requirements.Sized (base : Btf) (typeCount : Nat) (requirements : Requirements) :
    Prop where
  typeCount_eq : requirements.typeCount = typeCount
  memberCount_eq : ∀ id words type, requirements.memberWords id = some words →
    btfTypeById base id = some type → requirements.memberCount id = type.members.length

/-- The call asks for a member of a record of the base. -/
structure MemberExists (base : Btf) (requirements : Requirements) (typeId memberIndex : Nat) :
    Prop where
  typeId_lt : typeId < requirements.typeCount
  record : ∃ type, btfTypeById base typeId = some type ∧ type.kind.isRecord = true ∧
    memberIndex < type.members.length

/-- The first call for a member of its record: the word list is allocated, and then the
trace cannot be appended. -/
structure StoreCall.HalfDone (call : StoreCall) (base : Btf) (requirements : Requirements) :
    Prop where
  member : ∃ typeId memberIndex, call.key = .member typeId memberIndex ∧
    MemberExists base requirements typeId memberIndex ∧
    mchRequirementsHasRecordMembers requirements typeId = false
  granted : call.granted .memberWords = true
  blocked : ¬call.TraceFits requirements

/-- The call has added its requirement, with one trace and one count. -/
structure Added (call : StoreCall) (before after : Requirements) : Prop where
  new : before.holds call.key = false
  traces_eq : after.traces = before.traces ++ [call.key.trace call.origin]
  holds_iff : ∀ key, after.holds key = true ↔ before.holds key = true ∨ key = call.key
  has_iff : ∀ id, mchRequirementsHasRecordMembers after id = true ↔
    mchRequirementsHasRecordMembers before id = true ∨ ∃ i, call.key = .member id i
  counts_eq : match call.key with
    | .root _ => after.typeRoots = before.typeRoots + 1 ∧
        after.recordMembers = before.recordMembers
    | .member _ _ => after.typeRoots = before.typeRoots ∧
        after.recordMembers = before.recordMembers + 1

/-- What a call that is not half done comes to. -/
def StoreCall.Clean (call : StoreCall) (base : Btf) (typeCount : Nat)
    (requirements : Requirements) : Prop :=
  (call.run base requirements).1 = requirements ∧
      ((call.run base requirements).2 = .ok () → requirements.holds call.key = true) ∨
    (call.run base requirements).2 = .ok () ∧ Added call requirements (call.run base requirements).1 ∧
      (call.run base requirements).1.Sized base typeCount

section Call

variable {base : Btf} {typeCount : Nat} {requirements : Requirements}

theorem addTypeRoot_clean (hsized : requirements.Sized base typeCount) (typeId : Nat)
    (origin : Option RequirementOrigin) (granted : AllocSite → Bool) :
    StoreCall.Clean ⟨.root typeId, origin, granted⟩ base typeCount requirements := by
  unfold StoreCall.Clean StoreCall.run mchRequirementsAddTypeRoot
  simp only
  by_cases hrange : requirements.typeCount ≤ typeId
  · rw [if_pos hrange]
    exact Or.inl ⟨rfl, fun h => by cases h⟩
  rw [if_neg hrange]
  by_cases hset : mchRequirementsContainsTypeRoot requirements typeId = true
  · rw [if_pos hset]
    exact Or.inl ⟨rfl, fun _ => hset⟩
  rw [if_neg hset]
  have happend := appendTrace_cases ⟨.root typeId, origin, granted⟩ requirements
  simp only [RequirementKey.trace] at happend
  rcases happend with ⟨_, fault, hfail⟩ | ⟨_, capacity, hok⟩
  · rw [hfail]
    exact Or.inl ⟨rfl, fun h => by cases h⟩
  · rw [hok]
    refine Or.inr ⟨rfl, ⟨?_, rfl, ?_, ?_, ⟨rfl, rfl⟩⟩, hsized.typeCount_eq, hsized.memberCount_eq⟩
    · rw [← Bool.not_eq_true]
      exact hset
    · intro key
      cases key with
      | root j =>
          simp only [Requirements.holds, containsTypeRoot_iff, RequirementKey.root.injEq]
          rw [testBit_bitsetAdd (Nat.not_le.mp hrange) requirements.length_typeRootWords]
          by_cases hj : j = typeId
          · subst hj
            simp [Nat.not_le.mp hrange]
          · simp [hj]
      | member j i =>
          simp only [Requirements.holds, reduceCtorEq, or_false]
          rfl
    · intro id
      simp only [reduceCtorEq, exists_false, or_false]
      rfl

theorem hasRecordMembers_of_contains {typeId memberIndex : Nat}
    (h : mchRequirementsContainsRecordMember requirements typeId memberIndex = true) :
    mchRequirementsHasRecordMembers requirements typeId = true := by
  obtain ⟨hid, words, hwords, _⟩ := containsRecordMember_iff.mp h
  exact hasRecordMembers_iff.mpr ⟨hid, words, hwords⟩

/-- The word list of a record that has none is allocated, or the call fails before it. -/
theorem ensureRecordMemberWords_total {granted : AllocSite → Bool} {typeId count : Nat}
    (hid : typeId < requirements.typeCount) :
    (granted .memberWords = false ∧
        ∃ fault, ensureRecordMemberWords granted requirements typeId count hid = .error fault) ∨
      ∃ mid, ensureRecordMemberWords granted requirements typeId count hid = .ok mid ∧
        (mchRequirementsHasRecordMembers requirements typeId = true ∧ mid = requirements ∨
          mchRequirementsHasRecordMembers requirements typeId = false ∧
            granted .memberWords = true) := by
  have hhas := @hasRecordMembers_iff requirements typeId
  unfold ensureRecordMemberWords
  split
  next words hwords =>
    exact Or.inr ⟨requirements, rfl, Or.inl ⟨hhas.mpr ⟨hid, words, hwords⟩, rfl⟩⟩
  next hnone =>
    have hhas' : mchRequirementsHasRecordMembers requirements typeId = false := by
      rw [← Bool.not_eq_true, hhas]
      rintro ⟨_, words, hwords⟩
      rw [Requirements.memberWords, hnone] at hwords
      cases hwords
    by_cases hgranted : granted .memberWords = true
    · rw [if_pos hgranted]
      exact Or.inr ⟨_, rfl, Or.inr ⟨hhas', hgranted⟩⟩
    · rw [if_neg hgranted]
      exact Or.inl ⟨by simpa using hgranted, _, rfl⟩

/-- Room for a trace does not depend on the word lists. -/
theorem EnsuredWords.traceFits_iff {mid : Requirements} {typeId count : Nat}
    (hmid : EnsuredWords requirements mid typeId count) (call : StoreCall) :
    call.TraceFits mid ↔ call.TraceFits requirements := by
  have hgrowth : GrowthBlocked call.granted mid ↔ GrowthBlocked call.granted requirements := by
    unfold GrowthBlocked
    rw [hmid.capacity_eq, hmid.traces_eq]
  constructor
  · intro h
    exact ⟨h.typeId_le, h.memberIndex_le, h.objectPath, h.detail, h.access, h.location,
      fun hblocked => h.growth (hgrowth.mpr hblocked)⟩
  · intro h
    exact ⟨h.typeId_le, h.memberIndex_le, h.objectPath, h.detail, h.access, h.location,
      fun hblocked => h.growth (hgrowth.mp hblocked)⟩

/-- What a member call comes to once the record and the member have been found. -/
inductive MemberRun (call : StoreCall) (requirements : Requirements) (typeId memberIndex count : Nat) :
    Requirements × Except Fault Unit → Prop
  | noWords {fault : Fault} : call.granted .memberWords = false →
      MemberRun call requirements typeId memberIndex count (requirements, .error fault)
  | held : requirements.holds (.member typeId memberIndex) = true →
      MemberRun call requirements typeId memberIndex count (requirements, .ok ())
  | blocked {mid : Requirements} {fault : Fault} :
      EnsuredWords requirements mid typeId count → ¬call.TraceFits requirements →
        (mchRequirementsHasRecordMembers requirements typeId = true ∧ mid = requirements ∨
          mchRequirementsHasRecordMembers requirements typeId = false ∧
            call.granted .memberWords = true) →
        MemberRun call requirements typeId memberIndex count (mid, .error fault)
  | added {mid : Requirements} {capacity n : Nat} :
      EnsuredWords requirements mid typeId count → call.TraceFits requirements →
        requirements.holds (.member typeId memberIndex) = false →
        mid.typeRoots = requirements.typeRoots → n = requirements.recordMembers + 1 →
        MemberRun call requirements typeId memberIndex count
          ({ markRecordMember { mid with
              traces := mid.traces ++ [call.key.trace call.origin]
              traceCapacity := capacity } typeId memberIndex with recordMembers := n }, .ok ())

theorem markRecordMember_counts (requirements : Requirements) (id i : Nat) :
    (markRecordMember requirements id i).typeRoots = requirements.typeRoots ∧
      (markRecordMember requirements id i).recordMembers = requirements.recordMembers := by
  unfold markRecordMember
  split
  next =>
    split
    · exact ⟨rfl, rfl⟩
    · exact ⟨rfl, rfl⟩
  next => exact ⟨rfl, rfl⟩

theorem ensureRecordMemberWords_counts {granted : AllocSite → Bool} {mid : Requirements}
    {typeId count : Nat} {hid : typeId < requirements.typeCount}
    (h : ensureRecordMemberWords granted requirements typeId count hid = .ok mid) :
    mid.typeRoots = requirements.typeRoots ∧ mid.recordMembers = requirements.recordMembers := by
  rcases ensureRecordMemberWords_cases h with ⟨_, _, rfl⟩ | ⟨_, rfl⟩
  · exact ⟨rfl, rfl⟩
  · exact ⟨rfl, rfl⟩

theorem addRecordMember_run {call : StoreCall} {typeId i : Nat} {type : BtfType}
    (hsized : requirements.Sized base typeCount) (hkey : call.key = .member typeId i)
    (hid : typeId < requirements.typeCount) (htype : btfTypeById base typeId = some type)
    (hkind : type.kind.isRecord = true) (hi : i < type.members.length) :
    MemberRun call requirements typeId i type.members.length
      (mchRequirementsAddRecordMember call.granted base requirements typeId i call.origin) := by
  have hcount : ∀ words, requirements.memberWords typeId = some words →
      requirements.memberCount typeId = type.members.length :=
    fun words hwords => hsized.memberCount_eq typeId words type hwords htype
  unfold mchRequirementsAddRecordMember
  rw [dif_neg (Nat.not_le.mpr hid)]
  simp only [htype, hkind, Bool.true_eq_false, if_false, Nat.not_le.mpr hi]
  rcases @ensureRecordMemberWords_total requirements call.granted typeId type.members.length hid with
    ⟨hdenied, fault, hfail⟩ | ⟨mid, hok, hwords⟩
  · rw [hfail]
    exact .noWords hdenied
  have hmid := ensureRecordMemberWords_spec hcount hok
  obtain ⟨hroots, hmembers⟩ := ensureRecordMemberWords_counts hok
  rw [hok]
  simp only
  by_cases hset : mchRequirementsContainsRecordMember mid typeId i = true
  · rw [if_pos hset]
    have hold := (hmid.contains_iff typeId i).mp hset
    rcases hwords with ⟨_, rfl⟩ | ⟨hnone, _⟩
    · exact .held hold
    · rw [hasRecordMembers_of_contains hold] at hnone
      cases hnone
  · rw [if_neg hset]
    have hnew : requirements.holds (.member typeId i) = false := by
      rw [← Bool.not_eq_true]
      exact fun hold => hset ((hmid.contains_iff typeId i).mpr hold)
    have happend := appendTrace_cases call mid
    rw [hmid.traceFits_iff, hkey] at happend
    simp only [RequirementKey.trace] at happend
    rcases happend with ⟨hblocked, fault, hfail⟩ | ⟨hfits, capacity, hok⟩
    · rw [hfail]
      exact .blocked hmid hblocked hwords
    · rw [hok]
      have hmarks := (markRecordMember_counts { mid with
        traces := mid.traces ++ [(RequirementKey.member typeId i).trace call.origin]
        traceCapacity := capacity } typeId i).2
      have hadded := @MemberRun.added call requirements typeId i type.members.length mid capacity _
        hmid hfits hnew hroots (congrArg (· + 1) (hmarks.trans hmembers))
      rw [hkey] at hadded
      exact hadded

section Added

variable {mid : Requirements} {typeId i capacity n : Nat} {type : BtfType} {call : StoreCall}

theorem EnsuredWords.added (hmid : EnsuredWords requirements mid typeId type.members.length)
    (hkey : call.key = .member typeId i) (hid : typeId < requirements.typeCount)
    (hi : i < type.members.length) (hnew : requirements.holds (.member typeId i) = false)
    (hroots : mid.typeRoots = requirements.typeRoots) (hn : n = requirements.recordMembers + 1) :
    Added call requirements { markRecordMember { mid with
      traces := mid.traces ++ [call.key.trace call.origin]
      traceCapacity := capacity } typeId i with recordMembers := n } := by
  have hmarked := hmid.marked hid hi (call.key.trace call.origin) capacity n
  obtain ⟨_, _, htraces, _⟩ := markRecordMember_frame { mid with
    traces := mid.traces ++ [call.key.trace call.origin]
    traceCapacity := capacity } typeId i
  have hcounts := (markRecordMember_counts { mid with
    traces := mid.traces ++ [call.key.trace call.origin]
    traceCapacity := capacity } typeId i).1
  constructor
  · rw [hkey]
    exact hnew
  · exact htraces.trans (congrArg (· ++ [call.key.trace call.origin]) hmid.traces_eq)
  · rw [hkey] at hmarked ⊢
    exact hmarked.holds_iff
  · intro id
    rw [hmarked.has_iff]
    have hmember : (∃ j, call.key = .member id j) ↔ id = typeId := by
      rw [hkey]
      constructor
      · rintro ⟨j, heq⟩
        cases heq
        rfl
      · rintro rfl
        exact ⟨i, rfl⟩
    rw [hmember]
  · rw [hkey] at hcounts ⊢
    exact ⟨hcounts.trans hroots, hn⟩

theorem EnsuredWords.sized (hmid : EnsuredWords requirements mid typeId type.members.length)
    (hsized : requirements.Sized base typeCount) (htype : btfTypeById base typeId = some type)
    (hid : typeId < requirements.typeCount) (hi : i < type.members.length) :
    Requirements.Sized base typeCount { markRecordMember { mid with
      traces := mid.traces ++ [call.key.trace call.origin]
      traceCapacity := capacity } typeId i with recordMembers := n } := by
  have hmarked := hmid.marked hid hi (call.key.trace call.origin) capacity n
  constructor
  · exact hmarked.typeCount_eq.trans hsized.typeCount_eq
  · intro j words type' hwords htype'
    by_cases hj : j = typeId
    · subst hj
      rw [htype] at htype'
      cases htype'
      exact hmarked.memberCount_eq
    · obtain ⟨hcount, hold⟩ := hmarked.others j hj
      obtain ⟨words', hwords'⟩ := hold words hwords
      rw [hcount]
      exact hsized.memberCount_eq j words' type' hwords' htype'

end Added

/-- A member call is clean unless it is half done. -/
theorem addRecordMember_clean {call : StoreCall} {typeId i : Nat}
    (hsized : requirements.Sized base typeCount) (hkey : call.key = .member typeId i)
    (hclean : ¬call.HalfDone base requirements) : call.Clean base typeCount requirements := by
  have hrun : call.run base requirements =
      mchRequirementsAddRecordMember call.granted base requirements typeId i call.origin := by
    rw [StoreCall.run, hkey]
  unfold StoreCall.Clean
  rw [hrun, hkey]
  by_cases hexists : MemberExists base requirements typeId i
  · obtain ⟨hid, type, htype, hkind, hi⟩ := hexists
    have hmember := addRecordMember_run hsized hkey hid htype hkind hi
    revert hmember
    generalize mchRequirementsAddRecordMember call.granted base requirements typeId i call.origin =
      result
    intro hmember
    cases hmember with
    | noWords _ => exact Or.inl ⟨rfl, fun h => by cases h⟩
    | held hold => exact Or.inl ⟨rfl, fun _ => hold⟩
    | blocked hmid hblocked hwords =>
        rcases hwords with ⟨_, rfl⟩ | ⟨hnone, hgranted⟩
        · exact Or.inl ⟨rfl, fun h => by cases h⟩
        · exact absurd ⟨⟨typeId, i, hkey, ⟨hid, type, htype, hkind, hi⟩, hnone⟩, hgranted, hblocked⟩
            hclean
    | added hmid _ hnew hroots hn =>
        exact Or.inr ⟨rfl, hmid.added hkey hid hi hnew hroots hn, hmid.sized hsized htype hid hi⟩
  · refine Or.inl ?_
    unfold mchRequirementsAddRecordMember
    split
    next => exact ⟨rfl, fun h => by cases h⟩
    next hid =>
      split
      next => exact ⟨rfl, fun h => by cases h⟩
      next type htype =>
        split
        next => exact ⟨rfl, fun h => by cases h⟩
        next hkind =>
          split
          next => exact ⟨rfl, fun h => by cases h⟩
          next hi =>
            exact absurd ⟨Nat.not_le.mp hid, type, htype, by simpa using hkind, Nat.not_le.mp hi⟩
              hexists

theorem StoreCall.clean {call : StoreCall} (hsized : requirements.Sized base typeCount)
    (hclean : ¬call.HalfDone base requirements) : call.Clean base typeCount requirements := by
  obtain ⟨key, origin, granted⟩ := call
  cases key with
  | root typeId => exact addTypeRoot_clean hsized typeId origin granted
  | member typeId i => exact addRecordMember_clean hsized rfl hclean

/-- A half-done call returns an error and leaves a record that has members, and none of
them recorded. -/
theorem StoreCall.HalfDone.leaves {call : StoreCall} (h : call.HalfDone base requirements)
    (hsized : requirements.Sized base typeCount) :
    ∃ typeId, mchRequirementsHasRecordMembers (call.run base requirements).1 typeId = true ∧
      ∀ i, mchRequirementsContainsRecordMember (call.run base requirements).1 typeId i = false := by
  obtain ⟨typeId, i, hkey, ⟨hid, type, htype, hkind, hi⟩, hnone⟩ := h.member
  have hrun : call.run base requirements =
      mchRequirementsAddRecordMember call.granted base requirements typeId i call.origin := by
    rw [StoreCall.run, hkey]
  have hmember := addRecordMember_run hsized hkey hid htype hkind hi
  rw [← hrun] at hmember
  refine ⟨typeId, ?_⟩
  revert hmember
  generalize call.run base requirements = result
  intro hmember
  cases hmember with
  | noWords hdenied =>
      rw [h.granted] at hdenied
      cases hdenied
  | held hold =>
      rw [hasRecordMembers_of_contains hold] at hnone
      cases hnone
  | blocked hmid _ _ =>
      constructor
      · exact hasRecordMembers_iff.mpr ⟨by rw [hmid.typeCount_eq]; exact hid, hmid.allocated⟩
      · intro j
        rw [← Bool.not_eq_true, hmid.contains_iff]
        intro hold
        rw [hasRecordMembers_of_contains hold] at hnone
        cases hnone
  | added _ hfits _ _ _ => exact absurd hfits h.blocked

end Call

/-! ## Runs -/

/-- The ids of the type roots among some keys, and the members. -/
def RequirementKey.rootId : RequirementKey → Option Nat
  | .root typeId => some typeId
  | .member _ _ => none

def RequirementKey.memberIds : RequirementKey → Option (Nat × Nat)
  | .root _ => none
  | .member typeId memberIndex => some (typeId, memberIndex)

/-- The bits, the counters and the traces after the calls say the same. -/
structure StoreMatches (base : Btf) (typeCount : Nat) (calls : List StoreCall) : Prop where
  typeRoots_eq : (storeAfter base typeCount calls).typeRoots =
    { id | mchRequirementsContainsTypeRoot (storeAfter base typeCount calls) id = true }.ncard
  recordMembers_eq : (storeAfter base typeCount calls).recordMembers =
    { member : Nat × Nat | mchRequirementsContainsRecordMember (storeAfter base typeCount calls)
      member.1 member.2 = true }.ncard
  mem_keys : ∀ key, key ∈ (storeAfter base typeCount calls).traces.map RequirementTrace.key ↔
    (storeAfter base typeCount calls).holds key = true
  nodup_keys : ((storeAfter base typeCount calls).traces.map RequirementTrace.key).Nodup
  origins : ∀ trace ∈ (storeAfter base typeCount calls).traces, ∃ before call after,
    calls = before ++ call :: after ∧ call.key = trace.key ∧
      (storeAfter base typeCount before).holds trace.key = false ∧
      (storeAfter base typeCount (before ++ [call])).holds trace.key = true ∧
      trace = call.key.trace call.origin
  has_iff : ∀ id, mchRequirementsHasRecordMembers (storeAfter base typeCount calls) id = true ↔
    ∃ i, mchRequirementsContainsRecordMember (storeAfter base typeCount calls) id i = true

/-- Everything that can be read of a store. -/
structure SameObservations (left right : Requirements) : Prop where
  typeRoots_eq : left.typeRoots = right.typeRoots
  recordMembers_eq : left.recordMembers = right.recordMembers
  traces_eq : left.traces = right.traces
  holds_eq : ∀ key, left.holds key = right.holds key
  has_eq : ∀ id, mchRequirementsHasRecordMembers left id = mchRequirementsHasRecordMembers right id

/-- After every call of the run the store is consistent, and a call that failed has changed
nothing. -/
def RunConsistent (base : Btf) (typeCount : Nat) (calls : List StoreCall) : Prop :=
  (∀ before, before <+: calls → StoreMatches base typeCount before) ∧
    ∀ before call, before ++ [call] <+: calls →
      ∀ fault, (call.run base (storeAfter base typeCount before)).2 = .error fault →
        SameObservations (storeAfter base typeCount before)
          (storeAfter base typeCount (before ++ [call]))

/-- No call of the run is half done. -/
def RunClean (base : Btf) (typeCount : Nat) (calls : List StoreCall) : Prop :=
  ∀ before call, before ++ [call] <+: calls →
    ¬call.HalfDone base (storeAfter base typeCount before)

theorem storeAfter_concat (base : Btf) (typeCount : Nat) (calls : List StoreCall)
    (call : StoreCall) : storeAfter base typeCount (calls ++ [call]) =
      (call.run base (storeAfter base typeCount calls)).1 := by
  rw [storeAfter, List.foldl_concat]
  rfl

/-- The invariant of clean runs; the counters are lengths of the trace list. -/
structure StoreInvariant (base : Btf) (typeCount : Nat) (calls : List StoreCall) : Prop where
  sized : (storeAfter base typeCount calls).Sized base typeCount
  typeRoots_eq : (storeAfter base typeCount calls).typeRoots =
    (((storeAfter base typeCount calls).traces.map RequirementTrace.key).filterMap
      RequirementKey.rootId).length
  recordMembers_eq : (storeAfter base typeCount calls).recordMembers =
    (((storeAfter base typeCount calls).traces.map RequirementTrace.key).filterMap
      RequirementKey.memberIds).length
  mem_keys : ∀ key, key ∈ (storeAfter base typeCount calls).traces.map RequirementTrace.key ↔
    (storeAfter base typeCount calls).holds key = true
  nodup_keys : ((storeAfter base typeCount calls).traces.map RequirementTrace.key).Nodup
  origins : ∀ trace ∈ (storeAfter base typeCount calls).traces, ∃ before call after,
    calls = before ++ call :: after ∧ call.key = trace.key ∧
      (storeAfter base typeCount before).holds trace.key = false ∧
      (storeAfter base typeCount (before ++ [call])).holds trace.key = true ∧
      trace = call.key.trace call.origin
  has_iff : ∀ id, mchRequirementsHasRecordMembers (storeAfter base typeCount calls) id = true ↔
    ∃ i, mchRequirementsContainsRecordMember (storeAfter base typeCount calls) id i = true

section Run

variable {base : Btf} {typeCount : Nat} {calls : List StoreCall}

theorem StoreInvariant.initial (base : Btf) (typeCount : Nat) :
    StoreInvariant base typeCount [] := by
  have hstore : storeAfter base typeCount [] = mchRequirementsInit typeCount := rfl
  have hmembers : ∀ id i, mchRequirementsContainsRecordMember (mchRequirementsInit typeCount) id i =
      false := fun id i => holds_init typeCount (.member id i)
  constructor
  · rw [hstore]
    refine ⟨rfl, ?_⟩
    intro id words type h
    rw [memberWords_init] at h
    cases h
  · rfl
  · rfl
  · intro key
    rw [hstore, holds_init]
    simp [mchRequirementsInit]
  · exact List.nodup_nil
  · intro trace htrace
    cases htrace
  · intro id
    rw [hstore, hasRecordMembers_init]
    simp [hmembers]

/-- A call that adds its requirement. -/
theorem StoreInvariant.added {call : StoreCall} (h : StoreInvariant base typeCount calls)
    (hadded : Added call (storeAfter base typeCount calls) (storeAfter base typeCount (calls ++ [call])))
    (hsized : (storeAfter base typeCount (calls ++ [call])).Sized base typeCount) :
    StoreInvariant base typeCount (calls ++ [call]) := by
  have hkeys : (storeAfter base typeCount (calls ++ [call])).traces.map RequirementTrace.key =
      (storeAfter base typeCount calls).traces.map RequirementTrace.key ++ [call.key] := by
    rw [hadded.traces_eq, List.map_append, List.map_singleton, RequirementKey.key_trace]
  have hcounts := hadded.counts_eq
  constructor
  · exact hsized
  · rw [hkeys, List.filterMap_append, List.length_append, ← h.typeRoots_eq]
    cases hkey : call.key with
    | root id =>
        rw [hkey] at hcounts
        exact hcounts.1
    | member id i =>
        rw [hkey] at hcounts
        exact hcounts.1
  · rw [hkeys, List.filterMap_append, List.length_append, ← h.recordMembers_eq]
    cases hkey : call.key with
    | root id =>
        rw [hkey] at hcounts
        exact hcounts.2
    | member id i =>
        rw [hkey] at hcounts
        exact hcounts.2
  · intro key
    rw [hkeys, List.mem_append, List.mem_singleton, h.mem_keys, hadded.holds_iff]
  · rw [hkeys]
    refine List.Nodup.append h.nodup_keys (List.nodup_singleton _) ?_
    intro key hold hnew
    rw [List.mem_singleton] at hnew
    rw [h.mem_keys, hnew, hadded.new] at hold
    cases hold
  · intro trace htrace
    rw [hadded.traces_eq, List.mem_append, List.mem_singleton] at htrace
    rcases htrace with hold | rfl
    · obtain ⟨before, first, after, rfl, horigin⟩ := h.origins trace hold
      exact ⟨before, first, after ++ [call], by simp, horigin⟩
    · refine ⟨calls, call, [], rfl, (RequirementKey.key_trace _ _).symm, ?_, ?_, rfl⟩
      · rw [RequirementKey.key_trace]
        exact hadded.new
      · rw [RequirementKey.key_trace, hadded.holds_iff]
        exact Or.inr rfl
  · intro id
    have hmember : ∀ i, mchRequirementsContainsRecordMember
        (storeAfter base typeCount (calls ++ [call])) id i = true ↔
          mchRequirementsContainsRecordMember (storeAfter base typeCount calls) id i = true ∨
            .member id i = call.key := fun i => hadded.holds_iff (.member id i)
    rw [hadded.has_iff, h.has_iff]
    simp only [hmember, exists_or]
    simp only [eq_comm]

/-- A call that changes nothing. -/
theorem StoreInvariant.unchanged {call : StoreCall} (h : StoreInvariant base typeCount calls)
    (hsame : storeAfter base typeCount (calls ++ [call]) = storeAfter base typeCount calls) :
    StoreInvariant base typeCount (calls ++ [call]) := by
  refine ⟨?_, ?_, ?_, ?_, ?_, ?_, ?_⟩
  all_goals rw [hsame]
  · exact h.sized
  · exact h.typeRoots_eq
  · exact h.recordMembers_eq
  · exact h.mem_keys
  · exact h.nodup_keys
  · intro trace htrace
    obtain ⟨before, first, after, rfl, horigin⟩ := h.origins trace htrace
    exact ⟨before, first, after ++ [call], by simp, horigin⟩
  · exact h.has_iff

theorem RequirementKey.rootId_eq_some {key : RequirementKey} {id : Nat} :
    key.rootId = some id ↔ key = .root id := by
  cases key <;> simp [RequirementKey.rootId]

theorem RequirementKey.memberIds_eq_some {key : RequirementKey} {member : Nat × Nat} :
    key.memberIds = some member ↔ key = .member member.1 member.2 := by
  cases key <;> simp [RequirementKey.memberIds, Prod.ext_iff]

/-- Things with a key each are counted by the keys in the list. -/
theorem ncard_eq_length_filterMap {α : Type} [DecidableEq α] {keys : List RequirementKey}
    {about : RequirementKey → Option α} {keyOf : α → RequirementKey} (hnodup : keys.Nodup)
    (habout : ∀ key x, about key = some x ↔ key = keyOf x) :
    { x | keyOf x ∈ keys }.ncard = (keys.filterMap about).length := by
  have hset : { x | keyOf x ∈ keys } = ((keys.filterMap about).toFinset : Set α) := by
    ext x
    rw [Set.mem_ofPred_eq, Finset.mem_coe, List.mem_toFinset, List.mem_filterMap]
    simp only [habout, exists_eq_right]
  have hnodup' : (keys.filterMap about).Nodup := by
    apply hnodup.filterMap
    intro key key' x hkey hkey'
    exact ((habout key x).mp hkey).trans ((habout key' x).mp hkey').symm
  rw [hset, Set.ncard_coe_finset, List.toFinset_card_of_nodup hnodup']

theorem StoreInvariant.storeMatches (h : StoreInvariant base typeCount calls) :
    StoreMatches base typeCount calls := by
  refine ⟨?_, ?_, h.mem_keys, h.nodup_keys, h.origins, h.has_iff⟩
  · rw [h.typeRoots_eq, ← ncard_eq_length_filterMap h.nodup_keys
      (fun _ _ => RequirementKey.rootId_eq_some)]
    simp only [h.mem_keys]
    rfl
  · rw [h.recordMembers_eq, ← ncard_eq_length_filterMap h.nodup_keys
      (fun _ _ => RequirementKey.memberIds_eq_some)]
    simp only [h.mem_keys]
    rfl

/-- One more call that is not half done. -/
theorem StoreInvariant.step {call : StoreCall} (h : StoreInvariant base typeCount calls)
    (hclean : ¬call.HalfDone base (storeAfter base typeCount calls)) :
    StoreInvariant base typeCount (calls ++ [call]) ∧
      ∀ fault, (call.run base (storeAfter base typeCount calls)).2 = .error fault →
        storeAfter base typeCount (calls ++ [call]) = storeAfter base typeCount calls := by
  have hstore := storeAfter_concat base typeCount calls call
  rcases StoreCall.clean h.sized hclean with ⟨hsame, _⟩ | ⟨hok, hadded, hsized⟩
  · have hsame' := hstore.trans hsame
    exact ⟨h.unchanged hsame', fun _ _ => hsame'⟩
  · rw [← hstore] at hadded hsized
    refine ⟨h.added hadded hsized, ?_⟩
    intro fault hfail
    rw [hok] at hfail
    cases hfail

theorem SameObservations.of_eq {left right : Requirements} (h : left = right) :
    SameObservations left right := by
  subst h
  exact ⟨rfl, rfl, rfl, fun _ => rfl, fun _ => rfl⟩

theorem RunClean.shorter {before : List StoreCall} (h : RunClean base typeCount calls)
    (hbefore : before <+: calls) : RunClean base typeCount before :=
  fun earlier call hpre => h earlier call (hpre.trans hbefore)

theorem RunClean.storeInvariant (h : RunClean base typeCount calls) :
    StoreInvariant base typeCount calls := by
  induction calls using List.reverseRecOn with
  | nil => exact StoreInvariant.initial base typeCount
  | append_singleton calls call ih =>
      have hbefore := ih (h.shorter (List.prefix_append calls [call]))
      exact (hbefore.step (h calls call (List.prefix_refl _))).1

theorem RunConsistent.shorter {before : List StoreCall} (h : RunConsistent base typeCount calls)
    (hbefore : before <+: calls) : RunConsistent base typeCount before :=
  ⟨fun earlier hpre => h.1 earlier (hpre.trans hbefore),
    fun earlier call hpre => h.2 earlier call (hpre.trans hbefore)⟩

theorem RunConsistent.clean (h : RunConsistent base typeCount calls) :
    RunClean base typeCount calls := by
  induction calls using List.reverseRecOn with
  | nil =>
      intro before call hpre
      have hnil := List.prefix_nil.mp hpre
      simp at hnil
  | append_singleton calls last ih =>
      have hcalls := ih (h.shorter (List.prefix_append calls [last]))
      intro before call hpre
      rcases List.prefix_concat_iff.mp hpre with hwhole | hshorter
      · obtain ⟨rfl, hcall⟩ := List.append_inj' hwhole rfl
        cases hcall
        intro hhalf
        obtain ⟨typeId, hhas, hnone⟩ := hhalf.leaves hcalls.storeInvariant.sized
        rw [← storeAfter_concat] at hhas
        obtain ⟨i, hi⟩ := ((h.1 _ (List.prefix_refl _)).has_iff typeId).mp hhas
        rw [storeAfter_concat, hnone i] at hi
        cases hi
      · exact hcalls before call hshorter

end Run

/-- A run is consistent throughout exactly when none of its calls is half done. -/
theorem storeRun_consistent_iff (base : Btf) (typeCount : Nat) (calls : List StoreCall) :
    RunConsistent base typeCount calls ↔ RunClean base typeCount calls := by
  constructor
  · exact RunConsistent.clean
  · intro hclean
    constructor
    · intro before hpre
      exact (hclean.shorter hpre).storeInvariant.storeMatches
    · intro before call hpre fault hfail
      have hbefore : before <+: calls := (List.prefix_append before [call]).trans hpre
      have hinv := (hclean.shorter hbefore).storeInvariant
      exact SameObservations.of_eq ((hinv.step (hclean before call hpre)).2 fault hfail).symm

/-- `struct R { void *x; }`: the word list of `R` is allocated, growing the trace list is
not. -/
def halfDoneRun : Btf × List StoreCall :=
  ({ types := [{ kind := .struct, nameOff := 1, members := [{ nameOff := 3, type := 2 }] },
      { kind := .ptr }]
     strs := [nul, 'R', nul, 'x', nul] },
    [{ key := .member 1 0, origin := none, granted := fun site => site != .traceGrowth }])

theorem halfDoneRun_inconsistent :
    mchRequirementsHasRecordMembers (storeAfter halfDoneRun.1 3 halfDoneRun.2) 1 = true ∧
      ¬RunConsistent halfDoneRun.1 3 halfDoneRun.2 := by
  have hhas : mchRequirementsHasRecordMembers (storeAfter halfDoneRun.1 3 halfDoneRun.2) 1 = true :=
    rfl
  have hnone : (storeAfter halfDoneRun.1 3 halfDoneRun.2).recordMembers = 0 := rfl
  refine ⟨hhas, fun h => ?_⟩
  have hmatches := h.1 _ (List.prefix_refl _)
  obtain ⟨i, hi⟩ := (hmatches.has_iff 1).mp hhas
  have hkey := (hmatches.mem_keys (.member 1 i)).mpr hi
  cases hkey

end MinCorehdr
