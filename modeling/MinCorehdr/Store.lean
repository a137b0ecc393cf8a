import Mathlib.Data.List.Nodup
import Mathlib.Data.List.Perm.Subperm
import Mathlib.Tactic.Ring
import MinCorehdr.Requirements

/-!
# What the requirement store holds

A requirement is a type root or a record member.  The store keeps each in a bit
and in one trace; a store built by successful calls is consistent: bits and
traces say the same.
-/

namespace MinCorehdr

open Support.Bitset Support.Result

inductive RequirementKey
  | root (typeId : Nat)
  | member (typeId memberIndex : Nat)
  deriving DecidableEq, Repr

def RequirementTrace.key (trace : RequirementTrace) : RequirementKey :=
  match trace.kind with
  | .typeRoot => .root trace.typeId
  | .recordMember => .member trace.typeId trace.memberIndex

def Requirements.holds (requirements : Requirements) : RequirementKey → Bool
  | .root typeId => mchRequirementsContainsTypeRoot requirements typeId
  | .member typeId memberIndex =>
      mchRequirementsContainsRecordMember requirements typeId memberIndex

/-- The calls that can succeed, whatever the store holds. -/
def RequirementKey.Valid (base : Btf) : RequirementKey → Prop
  | .root typeId => typeId < btfTypeCnt base ∧ typeId ≤ uint32Max
  | .member typeId memberIndex => typeId ≤ uint32Max ∧ memberIndex ≤ uint32Max ∧
      ∃ type, btfTypeById base typeId = some type ∧ type.kind.isRecord = true ∧
        memberIndex < type.members.length

def addRequirement (base : Btf) (requirements : Requirements) (origin : Option RequirementOrigin) :
    RequirementKey → Requirements × Except Fault Unit
  | .root typeId => mchRequirementsAddTypeRoot allGranted requirements typeId origin
  | .member typeId memberIndex =>
      mchRequirementsAddRecordMember allGranted base requirements typeId memberIndex origin

/-! ## Bits -/

/-- The word list of a record, if it has been allocated. -/
def Requirements.memberWords (requirements : Requirements) (id : Nat) : Option Words :=
  requirements.recordMemberWords.getD id none

def Requirements.memberCount (requirements : Requirements) (id : Nat) : Nat :=
  requirements.recordMemberCounts.getD id 0

theorem hasRecordMembers_iff {requirements : Requirements} {id : Nat} :
    mchRequirementsHasRecordMembers requirements id = true ↔
      id < requirements.typeCount ∧ ∃ words, requirements.memberWords id = some words := by
  unfold mchRequirementsHasRecordMembers Requirements.memberWords
  rw [Bool.and_eq_true, decide_eq_true_eq, Option.isSome_iff_exists]

theorem containsRecordMember_iff {requirements : Requirements} {id i : Nat} :
    mchRequirementsContainsRecordMember requirements id i = true ↔
      id < requirements.typeCount ∧ ∃ words, requirements.memberWords id = some words ∧
        i < requirements.memberCount id ∧ testBit words i = true := by
  have hhas := @hasRecordMembers_iff requirements id
  unfold mchRequirementsContainsRecordMember
  change (if _ then bitsetContains (requirements.memberWords id) (requirements.memberCount id) i
    else false) = true ↔ _
  by_cases hset : mchRequirementsHasRecordMembers requirements id = true
  · obtain ⟨hid, words, hwords⟩ := hhas.mp hset
    rw [if_pos hset, hwords]
    by_cases hi : i < requirements.memberCount id
    · simp [bitsetContains, hid, hi, Nat.not_le.mpr hi]
    · simp [bitsetContains, hi, Nat.not_lt.mp hi]
  · rw [if_neg hset]
    constructor
    · intro h
      cases h
    · rintro ⟨hid, words, hwords, _⟩
      exact absurd (hhas.mpr ⟨hid, words, hwords⟩) hset

theorem containsTypeRoot_iff {requirements : Requirements} {id : Nat} :
    mchRequirementsContainsTypeRoot requirements id = true ↔
      id < requirements.typeCount ∧ testBit requirements.typeRootWords id = true := by
  unfold mchRequirementsContainsTypeRoot bitsetContains
  by_cases hid : id < requirements.typeCount
  · simp [hid, Nat.not_le.mpr hid]
  · simp [hid, Nat.not_lt.mp hid]

theorem testBit_bitsetAdd {words : Words} {count id : Nat} (hid : id < count)
    (hlength : words.length = wordsFor count) (j : Nat) :
    testBit (bitsetAdd words count id) j = (decide (j = id) || testBit words j) := by
  have hword : id / 64 < words.length := by
    rw [hlength]
    exact div_lt_wordsFor hid
  unfold bitsetAdd
  rw [if_neg (Nat.not_le.mpr hid)]
  split
  next hset =>
    by_cases hj : j = id
    · subst hj
      simp [hset]
    · simp [hj]
  next => exact testBit_setBit words id j hword

/-! ## Bits after a change -/

section

variable {requirements : Requirements} {id count : Nat} {words : Words}
  {hid : id < requirements.typeCount} {hwords : words.length = wordsFor count}

theorem memberWords_set (j : Nat) :
    (setRecordMemberWords requirements id words count hid hwords).memberWords j =
      if j = id then some words else requirements.memberWords j := by
  have hlt : id < requirements.recordMemberWords.length := by
    rw [requirements.length_recordMemberWords]
    omega
  simp only [Requirements.memberWords, setRecordMemberWords, List.getD_eq_getElem?_getD,
    List.getElem?_set]
  by_cases hj : j = id
  · subst hj
    simp [hlt]
  · rw [if_neg (Ne.symm hj), if_neg hj]

theorem memberCount_set (j : Nat) :
    (setRecordMemberWords requirements id words count hid hwords).memberCount j =
      if j = id then count else requirements.memberCount j := by
  have hlt : id < requirements.recordMemberCounts.length := by
    rw [requirements.length_recordMemberCounts]
    omega
  simp only [Requirements.memberCount, setRecordMemberWords, List.getD_eq_getElem?_getD,
    List.getElem?_set]
  by_cases hj : j = id
  · subst hj
    simp [hlt]
  · rw [if_neg (Ne.symm hj), if_neg hj]

/-- New words change the members of their own record and no other. -/
theorem contains_set (j i : Nat) :
    mchRequirementsContainsRecordMember
        (setRecordMemberWords requirements id words count hid hwords) j i = true ↔
      if j = id then i < count ∧ testBit words i = true
      else mchRequirementsContainsRecordMember requirements j i = true := by
  rw [containsRecordMember_iff, memberWords_set, memberCount_set]
  by_cases hj : j = id
  · subst hj
    simp [show (setRecordMemberWords requirements j words count hid hwords).typeCount =
      requirements.typeCount from rfl, hid]
  · rw [if_neg hj, if_neg hj, if_neg hj, containsRecordMember_iff]
    rfl

end

theorem ensureRecordMemberWords_cases {granted : AllocSite → Bool}
    {requirements requirements' : Requirements} {id count : Nat}
    {hid : id < requirements.typeCount}
    (h : ensureRecordMemberWords granted requirements id count hid = .ok requirements') :
    (∃ words, requirements.memberWords id = some words ∧ requirements' = requirements) ∨
      requirements.memberWords id = none ∧
        requirements' = setRecordMemberWords requirements id
          (List.replicate (wordsFor count) 0#64) count hid List.length_replicate := by
  unfold ensureRecordMemberWords at h
  split at h
  next words hwords => exact Or.inl ⟨words, hwords, (Except.ok.inj h).symm⟩
  next hnone =>
    split at h
    · exact Or.inr ⟨hnone, (Except.ok.inj h).symm⟩
    · cases h

theorem markRecordMember_eq {requirements : Requirements} {id i : Nat} {words : Words}
    (hid : id < requirements.typeCount) (hwords : requirements.memberWords id = some words) :
    ∃ hlength, markRecordMember requirements id i = setRecordMemberWords requirements id
      (bitsetAdd words (requirements.memberCount id) i) (requirements.memberCount id) hid
      hlength := by
  have hget : requirements.recordMemberWords[id]? = some (some words) := by
    unfold Requirements.memberWords at hwords
    rw [List.getD_eq_getElem?_getD] at hwords
    cases hopt : requirements.recordMemberWords[id]? with
    | none =>
        rw [hopt] at hwords
        cases hwords
    | some found =>
        rw [hopt] at hwords
        exact congrArg some hwords
  refine ⟨by rw [length_bitsetAdd]; exact requirements.length_memberWords id words hget, ?_⟩
  unfold markRecordMember
  split
  next found hfound =>
    rw [hget] at hfound
    cases hfound
    rw [dif_pos hid]
    rfl
  next hnone => exact absurd hget (hnone words)

/-- Marking a member adds it and leaves the sizes of the records alone. -/
theorem markRecordMember_spec {requirements : Requirements} {id i : Nat} {words : Words}
    (hid : id < requirements.typeCount) (hwords : requirements.memberWords id = some words)
    (hi : i < requirements.memberCount id) :
    (∀ j k, mchRequirementsContainsRecordMember (markRecordMember requirements id i) j k = true ↔
        mchRequirementsContainsRecordMember requirements j k = true ∨ j = id ∧ k = i) ∧
      (∀ j, (markRecordMember requirements id i).memberCount j = requirements.memberCount j) ∧
      (∀ j, (∃ w, (markRecordMember requirements id i).memberWords j = some w) ↔
        ∃ w, requirements.memberWords j = some w) := by
  obtain ⟨hlength, heq⟩ := @markRecordMember_eq requirements id i words hid hwords
  rw [heq]
  refine ⟨?_, ?_, ?_⟩
  · intro j k
    rw [contains_set]
    rw [length_bitsetAdd] at hlength
    by_cases hj : j = id
    · subst hj
      rw [if_pos rfl, testBit_bitsetAdd hi hlength, containsRecordMember_iff, hwords]
      by_cases hk : k = i
      · subst hk
        simp [hi]
      · simp [hk, hid]
    · rw [if_neg hj]
      simp [hj]
  · intro j
    rw [memberCount_set]
    split
    next hj => rw [hj]
    next => rfl
  · intro j
    rw [memberWords_set]
    split
    next hj => simp [hj, hwords]
    next => rfl

theorem markRecordMember_frame (requirements : Requirements) (id i : Nat) :
    (markRecordMember requirements id i).typeCount = requirements.typeCount ∧
      (markRecordMember requirements id i).typeRootWords = requirements.typeRootWords ∧
      (markRecordMember requirements id i).traces = requirements.traces ∧
      (markRecordMember requirements id i).traceCapacity = requirements.traceCapacity := by
  unfold markRecordMember
  split
  next =>
    split
    · exact ⟨rfl, rfl, rfl, rfl⟩
    · exact ⟨rfl, rfl, rfl, rfl⟩
  next => exact ⟨rfl, rfl, rfl, rfl⟩

/-! ## Traces -/

theorem dupOptional_granted (value : Option CString) : ∃ copy, dupOptional true value = .ok copy := by
  unfold dupOptional
  split
  · exact ⟨none, rfl⟩
  · exact ⟨none, rfl⟩
  · exact ⟨_, rfl⟩

/-- With memory at hand, a trace is appended when its ids fit and the list can
grow. -/
theorem appendTrace_succeeds {requirements : Requirements} {kind : TraceKind} {id i capacity : Nat}
    {origin : Option RequirementOrigin} (hid : id ≤ uint32Max) (hi : i ≤ uint32Max)
    (hroom : ensureTraceCapacity allGranted requirements = .ok capacity) :
    ∃ requirements', appendTrace allGranted requirements kind id i origin = .ok requirements' := by
  obtain ⟨objectPath, hpath⟩ := dupOptional_granted (origin.bind (·.objectPath))
  obtain ⟨detail, hdetail⟩ := dupOptional_granted (origin.bind (·.detail))
  obtain ⟨access, haccess⟩ := dupOptional_granted (origin.bind (·.access))
  obtain ⟨location, hlocation⟩ := dupOptional_granted (origin.bind (·.location))
  unfold appendTrace
  rw [if_neg (by omega)]
  simp only [allGranted, hpath, hdetail, haccess, hlocation, ok_bind]
  rw [hroom]
  exact ⟨_, rfl⟩

theorem appendTrace_eq_ok {requirements requirements' : Requirements} {kind : TraceKind}
    {id i : Nat} {origin : Option RequirementOrigin}
    (h : appendTrace allGranted requirements kind id i origin = .ok requirements') :
    id ≤ uint32Max ∧ i ≤ uint32Max ∧ ∃ capacity trace,
      ensureTraceCapacity allGranted requirements = .ok capacity ∧
      RequirementTrace.kind trace = kind ∧ trace.typeId = id ∧ trace.memberIndex = i ∧
      requirements' = { requirements with
        traces := requirements.traces ++ [trace]
        traceCapacity := capacity } := by
  unfold appendTrace at h
  split at h
  next => cases h
  next hrange =>
    obtain ⟨_, _, h⟩ := bind_eq_ok.mp h
    obtain ⟨_, _, h⟩ := bind_eq_ok.mp h
    obtain ⟨_, _, h⟩ := bind_eq_ok.mp h
    obtain ⟨_, _, h⟩ := bind_eq_ok.mp h
    obtain ⟨capacity, hcapacity, h⟩ := bind_eq_ok.mp h
    exact ⟨by omega, by omega, capacity, _, hcapacity, rfl, rfl, rfl, (Except.ok.inj h).symm⟩

/-- The largest capacity the trace list may grow to. -/
def traceLimit : Nat := sizeMax / traceSize

/-- What the capacity of a full list grows to. -/
theorem ensureTraceCapacity_of_full {requirements : Requirements}
    (hfull : requirements.traceCapacity ≤ requirements.traces.length)
    (hlimit : requirements.traceCapacity ≤ traceLimit) :
    ensureTraceCapacity allGranted requirements =
      if requirements.traceCapacity = 0 then .ok 16
      else if traceLimit < requirements.traceCapacity * 2 then
        fail "requirement trace list is too large".toList
      else .ok (requirements.traceCapacity * 2) := by
  have hbound : traceLimit * 2 < 2 ^ 64 := by decide
  have hsixteen : ¬traceLimit < 16 := by decide
  unfold ensureTraceCapacity
  rw [if_neg (Nat.not_lt.mpr hfull)]
  change (if _ ∨ traceLimit < _ then _ else _) = _
  by_cases hzero : requirements.traceCapacity = 0
  · simp [hzero, hsixteen, allGranted]
  · have hmod : requirements.traceCapacity * 2 % 2 ^ 64 = requirements.traceCapacity * 2 :=
      Nat.mod_eq_of_lt (by omega)
    have hgrows : ¬requirements.traceCapacity * 2 < requirements.traceCapacity := by omega
    simp only [hzero, if_false, hmod, hgrows, false_or]
    split
    · rfl
    · rfl

theorem ensureTraceCapacity_eq_ok {requirements : Requirements} {capacity : Nat}
    (hlength : requirements.traces.length ≤ requirements.traceCapacity)
    (hlimit : requirements.traceCapacity ≤ traceLimit)
    (h : ensureTraceCapacity allGranted requirements = .ok capacity) :
    requirements.traces.length < capacity ∧ capacity ≤ traceLimit ∧
      (capacity = requirements.traceCapacity ∨
        requirements.traceCapacity = 0 ∧ capacity = 16 ∨
        capacity = requirements.traceCapacity * 2) := by
  by_cases hfull : requirements.traceCapacity ≤ requirements.traces.length
  · rw [ensureTraceCapacity_of_full hfull hlimit] at h
    split at h
    next hzero =>
      cases h
      exact ⟨by omega, by decide, Or.inr (Or.inl ⟨hzero, rfl⟩)⟩
    next hzero =>
      split at h
      next => cases h
      next hfits =>
        cases h
        exact ⟨by omega, by omega, Or.inr (Or.inr rfl)⟩
  · unfold ensureTraceCapacity at h
    rw [if_pos (Nat.not_le.mp hfull)] at h
    cases h
    exact ⟨Nat.not_le.mp hfull, hlimit, Or.inl rfl⟩

/-- The trace list of a store built by successful calls. -/
structure Requirements.TraceRoom (requirements : Requirements) : Prop where
  length_le : requirements.traces.length ≤ requirements.traceCapacity
  power : requirements.traceCapacity = 0 ∨ ∃ k, requirements.traceCapacity = 16 * 2 ^ k
  capacity_le : requirements.traceCapacity ≤ traceLimit

theorem Requirements.TraceRoom.grow {requirements requirements' : Requirements} {capacity : Nat}
    {trace : RequirementTrace} (h : requirements.TraceRoom)
    (hroom : ensureTraceCapacity allGranted requirements = .ok capacity)
    (htraces : requirements'.traces = requirements.traces ++ [trace])
    (hcapacity : requirements'.traceCapacity = capacity) : requirements'.TraceRoom := by
  obtain ⟨hlt, hle, hcases⟩ := ensureTraceCapacity_eq_ok h.length_le h.capacity_le hroom
  constructor
  · rw [htraces, hcapacity, List.length_append]
    exact hlt
  · rw [hcapacity]
    rcases hcases with hsame | ⟨_, hfirst⟩ | hdouble
    · rw [hsame]
      exact h.power
    · exact Or.inr ⟨0, hfirst⟩
    · rcases h.power with hzero | ⟨k, hk⟩
      · exact Or.inl (by omega)
      · exact Or.inr ⟨k + 1, by rw [hdouble, hk, Nat.pow_succ]; ring⟩
  · rw [hcapacity]
    exact hle

/-- A list with fewer traces than another one of its kind can grow. -/
theorem Requirements.TraceRoom.hasRoom {requirements larger : Requirements}
    (h : requirements.TraceRoom) (hlarger : larger.TraceRoom)
    (hlt : requirements.traces.length < larger.traces.length) :
    ∃ capacity, ensureTraceCapacity allGranted requirements = .ok capacity := by
  by_cases hfull : requirements.traceCapacity ≤ requirements.traces.length
  · rw [ensureTraceCapacity_of_full hfull h.capacity_le]
    split
    next => exact ⟨16, rfl⟩
    next hzero =>
      have hle := hlarger.length_le
      have hcapacity := hlarger.capacity_le
      have hdouble : requirements.traceCapacity * 2 ≤ larger.traceCapacity := by
        rcases h.power with hzero' | ⟨k, hk⟩
        · exact absurd hzero' hzero
        · rcases hlarger.power with hzero' | ⟨j, hj⟩
          · omega
          · have hpow : 2 ^ k < 2 ^ j := by omega
            have hkj : k < j := (Nat.pow_lt_pow_iff_right (by omega)).mp hpow
            have hstep : 2 ^ (k + 1) ≤ 2 ^ j := Nat.pow_le_pow_right (by omega) hkj
            rw [Nat.pow_succ] at hstep
            omega
      rw [if_neg (by omega)]
      exact ⟨_, rfl⟩
  · unfold ensureTraceCapacity
    rw [if_pos (Nat.not_le.mp hfull)]
    exact ⟨_, rfl⟩

/-! ## Consistent stores -/

/-- A store built by successful calls on `base`. -/
structure Requirements.Consistent (base : Btf) (requirements : Requirements) : Prop where
  typeCount_eq : requirements.typeCount = btfTypeCnt base
  memberCount_eq : ∀ id words type, requirements.memberWords id = some words →
    btfTypeById base id = some type → requirements.memberCount id = type.members.length
  nonempty : ∀ id, mchRequirementsHasRecordMembers requirements id = true →
    ∃ i, mchRequirementsContainsRecordMember requirements id i = true
  mem_keys : ∀ key, key ∈ requirements.traces.map RequirementTrace.key ↔
    requirements.holds key = true
  nodup_keys : (requirements.traces.map RequirementTrace.key).Nodup
  valid : ∀ key, requirements.holds key = true → key.Valid base
  room : requirements.TraceRoom

theorem memberWords_init (typeCount id : Nat) :
    (mchRequirementsInit typeCount).memberWords id = none := by
  simp [Requirements.memberWords, mchRequirementsInit, List.getElem?_replicate]
  split <;> rfl

/-- A fresh store holds nothing. -/
theorem holds_init (typeCount : Nat) (key : RequirementKey) :
    (mchRequirementsInit typeCount).holds key = false := by
  rw [← Bool.not_eq_true]
  cases key with
  | root id =>
      change ¬mchRequirementsContainsTypeRoot _ id = true
      rw [containsTypeRoot_iff]
      simp [mchRequirementsInit, testBit_replicate]
  | member id i =>
      change ¬mchRequirementsContainsRecordMember _ id i = true
      rw [containsRecordMember_iff, memberWords_init]
      simp

theorem hasRecordMembers_init (typeCount id : Nat) :
    mchRequirementsHasRecordMembers (mchRequirementsInit typeCount) id = false := by
  rw [← Bool.not_eq_true, hasRecordMembers_iff, memberWords_init]
  simp

theorem Requirements.Consistent.initial (base : Btf) :
    (mchRequirementsInit (btfTypeCnt base)).Consistent base := by
  constructor
  · rfl
  · intro id words type h
    rw [memberWords_init] at h
    cases h
  · intro id h
    rw [hasRecordMembers_init] at h
    cases h
  · intro key
    rw [holds_init]
    simp [mchRequirementsInit]
  · exact List.nodup_nil
  · intro key h
    rw [holds_init] at h
    cases h
  · exact ⟨Nat.le_refl 0, Or.inl rfl, Nat.zero_le _⟩

/-- The store after a new requirement: one more trace, and one more thing held. -/
theorem Requirements.Consistent.extend {base : Btf} {requirements requirements' : Requirements}
    {key : RequirementKey} {trace : RequirementTrace} {capacity : Nat}
    (h : requirements.Consistent base) (hvalid : key.Valid base)
    (hnew : requirements.holds key = false)
    (hroom : ensureTraceCapacity allGranted requirements = .ok capacity)
    (htypeCount : requirements'.typeCount = requirements.typeCount)
    (htraces : requirements'.traces = requirements.traces ++ [trace])
    (hkey : trace.key = key) (hcapacity : requirements'.traceCapacity = capacity)
    (hholds : ∀ other, requirements'.holds other = true ↔
      requirements.holds other = true ∨ other = key)
    (hcount : ∀ id words type, requirements'.memberWords id = some words →
      btfTypeById base id = some type → requirements'.memberCount id = type.members.length)
    (hnonempty : ∀ id, mchRequirementsHasRecordMembers requirements' id = true →
      ∃ i, mchRequirementsContainsRecordMember requirements' id i = true) :
    requirements'.Consistent base where
  typeCount_eq := htypeCount.trans h.typeCount_eq
  memberCount_eq := hcount
  nonempty := hnonempty
  mem_keys := by
    intro other
    rw [htraces, List.map_append, List.mem_append, h.mem_keys, hholds]
    simp [hkey]
  nodup_keys := by
    rw [htraces, List.map_append, List.nodup_append]
    refine ⟨h.nodup_keys, by simp, ?_⟩
    intro a ha b hb
    rw [List.map_singleton, List.mem_singleton] at hb
    rintro rfl
    rw [h.mem_keys, hb, hkey, hnew] at ha
    cases ha
  valid := by
    intro other hother
    rcases (hholds other).mp hother with hold | rfl
    · exact h.valid other hold
    · exact hvalid
  room := h.room.grow hroom htraces hcapacity

/-! ## Successful calls -/

theorem addTypeRoot_spec {base : Btf} {requirements requirements' : Requirements} {id : Nat}
    {origin : Option RequirementOrigin} (h : requirements.Consistent base)
    (hadd : mchRequirementsAddTypeRoot allGranted requirements id origin =
      (requirements', .ok ())) :
    (RequirementKey.root id).Valid base ∧ requirements'.Consistent base ∧
      ∀ other, requirements'.holds other = true ↔
        requirements.holds other = true ∨ other = .root id := by
  unfold mchRequirementsAddTypeRoot at hadd
  split at hadd
  next => cases hadd
  next hlt =>
    split at hadd
    next hset =>
      cases hadd
      refine ⟨h.valid (.root id) hset, h, fun other => ?_⟩
      constructor
      · exact Or.inl
      · rintro (hold | rfl)
        · exact hold
        · exact hset
    next hclear =>
      split at hadd
      next => cases hadd
      next mid htrace =>
        obtain ⟨hid, _, capacity, trace, hroom, hkind, htypeId, _, rfl⟩ := appendTrace_eq_ok htrace
        have hrange : id < requirements.typeCount := Nat.not_le.mp hlt
        have hholds : ∀ other, requirements'.holds other = true ↔
            requirements.holds other = true ∨ other = .root id := by
          cases hadd
          intro other
          cases other with
          | root j =>
              simp only [Requirements.holds, containsTypeRoot_iff, RequirementKey.root.injEq]
              rw [testBit_bitsetAdd hrange requirements.length_typeRootWords]
              by_cases hj : j = id
              · subst hj
                simp [hrange]
              · simp [hj]
          | member j i =>
              simp only [Requirements.holds, reduceCtorEq, or_false]
              rfl
        have hvalid : (RequirementKey.root id).Valid base :=
          ⟨by rw [← h.typeCount_eq]; exact hrange, hid⟩
        have hnew : requirements.holds (.root id) = false := by
          rw [← Bool.not_eq_true]
          exact hclear
        have hkey : trace.key = .root id := by simp [RequirementTrace.key, hkind, htypeId]
        refine ⟨hvalid, ?_, hholds⟩
        cases hadd
        exact h.extend hvalid hnew hroom rfl rfl hkey rfl hholds h.memberCount_eq h.nonempty

theorem addTypeRoot_succeeds {requirements : Requirements} {id : Nat}
    {origin : Option RequirementOrigin} (hrange : id < requirements.typeCount)
    (hid : id ≤ uint32Max)
    (hroom : requirements.holds (.root id) = true ∨
      ∃ capacity, ensureTraceCapacity allGranted requirements = .ok capacity) :
    (mchRequirementsAddTypeRoot allGranted requirements id origin).2 = .ok () := by
  unfold mchRequirementsAddTypeRoot
  rw [if_neg (Nat.not_le.mpr hrange)]
  split
  next => rfl
  next hclear =>
    rcases hroom with hset | ⟨capacity, hroom⟩
    · exact absurd hset hclear
    · obtain ⟨requirements', happend⟩ :=
        @appendTrace_succeeds requirements .typeRoot id 0 capacity origin hid (Nat.zero_le _) hroom
      rw [happend]

/-- What a record's word list being there does not change, and what it adds. -/
structure EnsuredWords (requirements mid : Requirements) (id count : Nat) : Prop where
  typeCount_eq : mid.typeCount = requirements.typeCount
  rootWords_eq : mid.typeRootWords = requirements.typeRootWords
  traces_eq : mid.traces = requirements.traces
  capacity_eq : mid.traceCapacity = requirements.traceCapacity
  allocated : ∃ words, mid.memberWords id = some words
  memberCount_eq : mid.memberCount id = count
  contains_iff : ∀ j k, mchRequirementsContainsRecordMember mid j k = true ↔
    mchRequirementsContainsRecordMember requirements j k = true
  others : ∀ j, j ≠ id → mid.memberWords j = requirements.memberWords j ∧
    mid.memberCount j = requirements.memberCount j

theorem ensureRecordMemberWords_spec {granted : AllocSite → Bool}
    {requirements mid : Requirements} {id count : Nat} {hid : id < requirements.typeCount}
    (hcount : ∀ words, requirements.memberWords id = some words →
      requirements.memberCount id = count)
    (hensure : ensureRecordMemberWords granted requirements id count hid = .ok mid) :
    EnsuredWords requirements mid id count := by
  rcases ensureRecordMemberWords_cases hensure with ⟨words, hwords, rfl⟩ | ⟨hnone, rfl⟩
  · exact ⟨rfl, rfl, rfl, rfl, ⟨words, hwords⟩, hcount words hwords, fun _ _ => Iff.rfl,
      fun _ _ => ⟨rfl, rfl⟩⟩
  · refine ⟨rfl, rfl, rfl, rfl, ⟨_, by rw [memberWords_set, if_pos rfl]⟩,
      by rw [memberCount_set, if_pos rfl], ?_, ?_⟩
    · intro j k
      rw [contains_set]
      by_cases hj : j = id
      · subst hj
        rw [if_pos rfl, containsRecordMember_iff, hnone]
        simp [testBit_replicate]
      · rw [if_neg hj]
    · intro j hj
      rw [memberWords_set, memberCount_set, if_neg hj, if_neg hj]
      exact ⟨rfl, rfl⟩

/-- A first call for a member ends with the trace appended and the bit set. -/
structure MarkedMember (requirements final : Requirements) (id i count : Nat) : Prop where
  typeCount_eq : final.typeCount = requirements.typeCount
  holds_iff : ∀ other, final.holds other = true ↔
    requirements.holds other = true ∨ other = .member id i
  has_iff : ∀ j, mchRequirementsHasRecordMembers final j = true ↔
    mchRequirementsHasRecordMembers requirements j = true ∨ j = id
  memberCount_eq : final.memberCount id = count
  others : ∀ j, j ≠ id → final.memberCount j = requirements.memberCount j ∧
    ∀ words, final.memberWords j = some words → ∃ words', requirements.memberWords j = some words'

theorem EnsuredWords.marked {requirements mid : Requirements} {id i count : Nat}
    (hmid : EnsuredWords requirements mid id count) (hid : id < requirements.typeCount)
    (hi : i < count) (trace : RequirementTrace) (capacity n : Nat) :
    MarkedMember requirements { markRecordMember { mid with
      traces := mid.traces ++ [trace]
      traceCapacity := capacity } id i with recordMembers := n } id i count := by
  obtain ⟨words, hwords⟩ := hmid.allocated
  have hidMid : id < mid.typeCount := by
    rw [hmid.typeCount_eq]
    exact hid
  have hiMid : i < mid.memberCount id := by
    rw [hmid.memberCount_eq]
    exact hi
  obtain ⟨hcontains, hcounts, hallocated⟩ := @markRecordMember_spec { mid with
    traces := mid.traces ++ [trace]
    traceCapacity := capacity } id i words hidMid hwords hiMid
  obtain ⟨htypeCount, hroots, _, _⟩ := markRecordMember_frame { mid with
    traces := mid.traces ++ [trace]
    traceCapacity := capacity } id i
  constructor
  · exact htypeCount.trans hmid.typeCount_eq
  · intro other
    cases other with
    | root j =>
        simp only [Requirements.holds, reduceCtorEq, or_false, containsTypeRoot_iff]
        rw [← hmid.typeCount_eq, ← hmid.rootWords_eq]
        exact Eq.to_iff (congrArg₂ (fun count words => j < count ∧ testBit words j = true)
          htypeCount hroots)
    | member j k =>
        simp only [Requirements.holds, RequirementKey.member.injEq]
        rw [← hmid.contains_iff]
        exact hcontains j k
  · intro j
    rw [hasRecordMembers_iff, hasRecordMembers_iff, ← hmid.typeCount_eq]
    have hallocated' := hallocated j
    by_cases hj : j = id
    · subst hj
      exact iff_of_true ⟨by rw [show _ = mid.typeCount from htypeCount]; exact hidMid,
        hallocated'.mpr ⟨words, hwords⟩⟩ (Or.inr rfl)
    · rw [or_iff_left hj, ← (hmid.others j hj).1]
      exact and_congr (by rw [show _ = mid.typeCount from htypeCount]) hallocated'
  · exact (hcounts id).trans hmid.memberCount_eq
  · intro j hj
    refine ⟨(hcounts j).trans (hmid.others j hj).2, ?_⟩
    intro words' hwords'
    obtain ⟨old, hold⟩ := (hallocated j).mp ⟨words', hwords'⟩
    exact ⟨old, (hmid.others j hj).1.symm.trans hold⟩

/-- The end of a first call for a member keeps the store consistent. -/
theorem EnsuredWords.mark {base : Btf} {requirements mid : Requirements} {id i capacity : Nat}
    {type : BtfType} {trace : RequirementTrace} (h : requirements.Consistent base)
    (hmid : EnsuredWords requirements mid id type.members.length)
    (htype : btfTypeById base id = some type) (hid : id < requirements.typeCount)
    (hi : i < type.members.length) (hvalid : (RequirementKey.member id i).Valid base)
    (hnew : requirements.holds (.member id i) = false)
    (hroom : ensureTraceCapacity allGranted mid = .ok capacity)
    (hkey : trace.key = .member id i) (n : Nat) :
    let final : Requirements :=
      { markRecordMember { mid with
          traces := mid.traces ++ [trace]
          traceCapacity := capacity } id i with recordMembers := n }
    final.Consistent base ∧ ∀ other, final.holds other = true ↔
      requirements.holds other = true ∨ other = .member id i := by
  intro final
  have hmarked : MarkedMember requirements final id i type.members.length :=
    hmid.marked hid hi trace capacity n
  obtain ⟨_, _, htraces, hcapacity⟩ := markRecordMember_frame { mid with
    traces := mid.traces ++ [trace]
    traceCapacity := capacity } id i
  have hroom' : ensureTraceCapacity allGranted requirements = .ok capacity := by
    rw [← hroom]
    unfold ensureTraceCapacity
    rw [hmid.traces_eq, hmid.capacity_eq]
  have htraces' : final.traces = requirements.traces ++ [trace] :=
    htraces.trans (congrArg (· ++ [trace]) hmid.traces_eq)
  refine ⟨?_, hmarked.holds_iff⟩
  refine h.extend hvalid hnew hroom' hmarked.typeCount_eq htraces' hkey hcapacity
    hmarked.holds_iff ?_ ?_
  · intro j w type' hw htype'
    by_cases hj : j = id
    · subst hj
      rw [htype] at htype'
      cases htype'
      exact hmarked.memberCount_eq
    · obtain ⟨hcount, hwords⟩ := hmarked.others j hj
      obtain ⟨w', hw'⟩ := hwords w hw
      rw [hcount]
      exact h.memberCount_eq j w' type' hw' htype'
  · intro j hj
    rcases (hmarked.has_iff j).mp hj with hold | rfl
    · obtain ⟨k, hk⟩ := h.nonempty j hold
      exact ⟨k, (hmarked.holds_iff (.member j k)).mpr (Or.inl hk)⟩
    · exact ⟨i, (hmarked.holds_iff (.member j i)).mpr (Or.inr rfl)⟩

theorem addRecordMember_spec {base : Btf} {requirements requirements' : Requirements} {id i : Nat}
    {origin : Option RequirementOrigin} (h : requirements.Consistent base)
    (hadd : mchRequirementsAddRecordMember allGranted base requirements id i origin =
      (requirements', .ok ())) :
    (RequirementKey.member id i).Valid base ∧ requirements'.Consistent base ∧
      ∀ other, requirements'.holds other = true ↔
        requirements.holds other = true ∨ other = .member id i := by
  unfold mchRequirementsAddRecordMember at hadd
  split at hadd
  next => cases hadd
  next hlt =>
    have hid : id < requirements.typeCount := Nat.not_le.mp hlt
    split at hadd
    next => cases hadd
    next type htype =>
      split at hadd
      next => cases hadd
      next hkind =>
        split at hadd
        next => cases hadd
        next hindex =>
          split at hadd
          next => cases hadd
          next mid hensure =>
            have hmid := ensureRecordMemberWords_spec
              (fun words hwords => h.memberCount_eq id words type hwords htype) hensure
            split at hadd
            next hset =>
              have hold := (hmid.contains_iff id i).mp hset
              obtain ⟨_, words, hwords, _⟩ := containsRecordMember_iff.mp hold
              have hsame : requirements' = requirements := by
                rcases ensureRecordMemberWords_cases hensure with ⟨_, _, heq⟩ | ⟨hnone, _⟩
                · rw [← heq]
                  exact (Prod.mk.inj hadd).1.symm
                · rw [hwords] at hnone
                  cases hnone
              rw [hsame]
              refine ⟨h.valid (.member id i) hold, h, fun other => ?_⟩
              constructor
              · exact Or.inl
              · rintro (hother | rfl)
                · exact hother
                · exact hold
            next hclear =>
              split at hadd
              next => cases hadd
              next appended htrace =>
                obtain ⟨hidMax, hiMax, capacity, trace, hroom, htraceKind, htypeId, hmemberIndex,
                  rfl⟩ := appendTrace_eq_ok htrace
                have hvalid : (RequirementKey.member id i).Valid base :=
                  ⟨hidMax, hiMax, type, htype, by simpa using hkind, Nat.not_le.mp hindex⟩
                have hnew : requirements.holds (.member id i) = false := by
                  rw [← Bool.not_eq_true]
                  exact fun hold => hclear ((hmid.contains_iff id i).mpr hold)
                have hkey : trace.key = .member id i := by
                  simp [RequirementTrace.key, htraceKind, htypeId, hmemberIndex]
                rw [← (Prod.mk.inj hadd).1]
                exact ⟨hvalid, hmid.mark h htype hid (Nat.not_le.mp hindex) hvalid hnew hroom hkey _⟩

theorem addRecordMember_succeeds {base : Btf} {requirements : Requirements} {id i : Nat}
    {origin : Option RequirementOrigin} (h : requirements.Consistent base)
    (hvalid : (RequirementKey.member id i).Valid base)
    (hroom : requirements.holds (.member id i) = true ∨
      ∃ capacity, ensureTraceCapacity allGranted requirements = .ok capacity) :
    (mchRequirementsAddRecordMember allGranted base requirements id i origin).2 = .ok () := by
  obtain ⟨hid, hi, type, htype, hkind, hindex⟩ := hvalid
  have hlt : ¬requirements.typeCount ≤ id := by
    rw [h.typeCount_eq]
    exact Nat.not_le.mpr (btfTypeById_eq_some_lt htype)
  unfold mchRequirementsAddRecordMember
  rw [dif_neg hlt]
  simp only [htype, hkind, Bool.true_eq_false, if_false, Nat.not_le.mpr hindex]
  split
  next fault hensure =>
    unfold ensureRecordMemberWords at hensure
    split at hensure
    next => cases hensure
    next => cases hensure
  next mid hensure =>
    have hmid := ensureRecordMemberWords_spec
      (fun words hwords => h.memberCount_eq id words type hwords htype) hensure
    split
    next => rfl
    next hclear =>
      rcases hroom with hold | ⟨capacity, hroom⟩
      · exact absurd ((hmid.contains_iff id i).mpr hold) hclear
      · have hroom' : ensureTraceCapacity allGranted mid = .ok capacity := by
          rw [← hroom]
          unfold ensureTraceCapacity
          rw [hmid.traces_eq, hmid.capacity_eq]
        obtain ⟨requirements', happend⟩ :=
          @appendTrace_succeeds mid .recordMember id i capacity origin hid hi hroom'
        rw [happend]

/-! ## Both calls at once -/

/-- A successful call adds its requirement and keeps the store consistent. -/
theorem addRequirement_spec {base : Btf} {requirements requirements' : Requirements}
    {key : RequirementKey} {origin : Option RequirementOrigin} (h : requirements.Consistent base)
    (hadd : addRequirement base requirements origin key = (requirements', .ok ())) :
    key.Valid base ∧ requirements'.Consistent base ∧
      ∀ other, requirements'.holds other = true ↔ requirements.holds other = true ∨ other = key := by
  cases key with
  | root id => exact addTypeRoot_spec h hadd
  | member id i => exact addRecordMember_spec h hadd

/-- A valid call succeeds as long as the trace list can grow. -/
theorem addRequirement_succeeds {base : Btf} {requirements : Requirements} {key : RequirementKey}
    {origin : Option RequirementOrigin} (h : requirements.Consistent base) (hvalid : key.Valid base)
    (hroom : requirements.holds key = true ∨
      ∃ capacity, ensureTraceCapacity allGranted requirements = .ok capacity) :
    (addRequirement base requirements origin key).2 = .ok () := by
  cases key with
  | root id =>
      exact addTypeRoot_succeeds (by rw [h.typeCount_eq]; exact hvalid.1) hvalid.2 hroom
  | member id i => exact addRecordMember_succeeds h hvalid hroom

/-! ## Room for every requirement -/

/-- The limits of the BTF format: ids of 32 bits and member counts of 16. -/
structure Btf.InFormat (btf : Btf) : Prop where
  count_le : btfTypeCnt btf ≤ 2 ^ 32
  members_lt : ∀ id type, btfTypeById btf id = some type → type.members.length < 2 ^ 16

theorem Btf.InFormat.of_types {btf : Btf} (hcount : btfTypeCnt btf ≤ 2 ^ 32)
    (hmembers : ∀ type ∈ btf.types, type.members.length < 2 ^ 16) : btf.InFormat where
  count_le := hcount
  members_lt := by
    intro id type h
    cases id with
    | zero =>
        cases h
        decide
    | succ id => exact hmembers type (List.mem_of_getElem? h)

/-- A number for every requirement on a base within the format. -/
def RequirementKey.code : RequirementKey → Nat
  | .root typeId => typeId * 2 ^ 16 + (2 ^ 16 - 1)
  | .member typeId memberIndex => typeId * 2 ^ 16 + memberIndex

theorem RequirementKey.Valid.bounds {base : Btf} {key : RequirementKey} (hformat : base.InFormat)
    (h : key.Valid base) :
    key.code < 2 ^ 48 ∧ ∀ other, other.Valid base → other.code = key.code → other = key := by
  have hcount := hformat.count_le
  have hmember : ∀ {typeId i : Nat}, (RequirementKey.member typeId i).Valid base →
      typeId < 2 ^ 32 ∧ i < 2 ^ 16 - 1 := by
    rintro typeId i ⟨_, _, type, htype, _, hi⟩
    have hid := btfTypeById_eq_some_lt htype
    have hlength := hformat.members_lt typeId type htype
    omega
  cases key with
  | root typeId =>
      have hid : typeId < btfTypeCnt base := h.1
      refine ⟨by simp only [RequirementKey.code]; omega, fun other hother heq => ?_⟩
      cases other with
      | root typeId' =>
          simp only [RequirementKey.code] at heq
          exact congrArg RequirementKey.root (by omega)
      | member typeId' i' =>
          obtain ⟨_, hi⟩ := hmember hother
          simp only [RequirementKey.code] at heq
          omega
  | member typeId i =>
      obtain ⟨hid, hi⟩ := hmember h
      refine ⟨by simp only [RequirementKey.code]; omega, fun other hother heq => ?_⟩
      cases other with
      | root typeId' =>
          simp only [RequirementKey.code] at heq
          omega
      | member typeId' i' =>
          obtain ⟨_, hi'⟩ := hmember hother
          simp only [RequirementKey.code] at heq
          have htypeId : typeId' = typeId := by omega
          have hindex : i' = i := by omega
          rw [htypeId, hindex]

/-- On a base within the format the trace list never grows too large. -/
theorem Requirements.Consistent.exists_capacity {base : Btf} {requirements : Requirements}
    (h : requirements.Consistent base) (hformat : base.InFormat) :
    ∃ capacity, ensureTraceCapacity allGranted requirements = .ok capacity := by
  have hvalid : ∀ key ∈ requirements.traces.map RequirementTrace.key, key.Valid base :=
    fun key hkey => h.valid key ((h.mem_keys key).mp hkey)
  have hnodup : ((requirements.traces.map RequirementTrace.key).map RequirementKey.code).Nodup := by
    refine List.Nodup.map_on (fun key hkey other hother heq => ?_) h.nodup_keys
    exact ((hvalid other hother).bounds hformat).2 key (hvalid key hkey) heq
  have hsub : (requirements.traces.map RequirementTrace.key).map RequirementKey.code ⊆
      List.range (2 ^ 48) := by
    intro code hcode
    obtain ⟨key, hkey, rfl⟩ := List.mem_map.mp hcode
    exact List.mem_range.mpr ((hvalid key hkey).bounds hformat).1
  have hlength : requirements.traces.length ≤ 2 ^ 48 := by
    have hle := (List.subperm_of_subset hnodup hsub).length_le
    rwa [List.length_map, List.length_map, List.length_range] at hle
  have hlimit : 2 ^ 49 ≤ traceLimit := by decide
  by_cases hfull : requirements.traceCapacity ≤ requirements.traces.length
  · rw [ensureTraceCapacity_of_full hfull h.room.capacity_le]
    split
    · exact ⟨_, rfl⟩
    · rw [if_neg (by omega)]
      exact ⟨_, rfl⟩
  · unfold ensureTraceCapacity
    rw [if_pos (Nat.not_le.mp hfull)]
    exact ⟨_, rfl⟩

end MinCorehdr
