import MinCorehdr.Seeds.Objects

/-!
# Reads stay inside the section

Of the three faults only a diagnostic is an outcome of the program.  No function
that reads `.BTF.ext`, and none that follows a relocation, has another one: every
read is inside the bytes of the section and every loop ends.
-/

namespace MinCorehdr

open Support.Result

/-- The failure is a diagnostic of the program. -/
def Fault.Diagnosed : Fault → Prop
  | .error _ => True
  | .outOfFuel | .outOfBounds => False

theorem returns_iff {α : Type} {x : Except Fault α} : Returns x ↔ FailsIn Fault.Diagnosed x := by
  cases x with
  | ok a => exact iff_of_true (Or.inl ⟨a, rfl⟩) (FailsIn.ok a)
  | error fault =>
      cases fault with
      | error err => exact iff_of_true (Or.inr ⟨err, rfl⟩) (FailsIn.error trivial)
      | outOfFuel | outOfBounds =>
          refine iff_of_false ?_ fun h => h _ rfl
          rintro (⟨a, h⟩ | ⟨err, h⟩) <;> cases h

/-- What has no failure succeeds. -/
theorem succeeds_of_total {α : Type} {x : Except Fault α} (h : FailsIn (fun _ => False) x) :
    Succeeds x := by
  cases x with
  | ok a => exact ⟨a, rfl⟩
  | error fault => exact (h fault rfl).elim

theorem fail_diagnosed {α : Type} (text : CString) :
    FailsIn Fault.Diagnosed (fail text : Except Fault α) := FailsIn.error trivial

theorem onError_diagnosed {α : Type} {amend : MchError → MchError} {x : Except Fault α}
    (h : FailsIn Fault.Diagnosed x) : FailsIn Fault.Diagnosed (onError amend x) := by
  intro fault hfault
  cases x with
  | ok a => cases hfault
  | error fault' =>
      cases fault' with
      | error err =>
          cases hfault
          trivial
      | outOfFuel | outOfBounds => exact (h _ rfl).elim

theorem onError_fail_diagnosed {α : Type} {amend : MchError → MchError} (text : CString) :
    FailsIn Fault.Diagnosed (onError amend (fail text) : Except Fault α) :=
  onError_diagnosed (fail_diagnosed text)

/-! ## The bytes of the section

What only reads and looks up does not fail at all, so its failures are in any `P`. -/

section

variable {P : Fault → Prop}

theorem readU32_inside {raw : Bytes} {pos : Nat} (h : pos + 4 ≤ raw.length) :
    ∃ n, readU32 raw pos = .ok n := by
  unfold readU32
  rw [if_pos h]
  exact ⟨_, rfl⟩

theorem readU32_total {raw : Bytes} {pos : Nat} (h : pos + 4 ≤ raw.length) :
    FailsIn P (readU32 raw pos) := by
  obtain ⟨n, hn⟩ := readU32_inside h
  rw [hn]
  exact FailsIn.ok n

theorem readLineInfo_total {raw : Bytes} {pos : Nat} (h : pos + lineInfoSize ≤ raw.length) :
    FailsIn P (readLineInfo raw pos) := by
  unfold lineInfoSize at h
  refine (readU32_total (by omega)).bind fun _ _ => ?_
  refine (readU32_total (by omega)).bind fun _ _ => ?_
  refine (readU32_total (by omega)).bind fun _ _ => ?_
  exact (readU32_total (by omega)).bind fun _ _ => FailsIn.ok _

theorem readFuncInfo_total {raw : Bytes} {pos : Nat} (h : pos + funcInfoSize ≤ raw.length) :
    FailsIn P (readFuncInfo raw pos) := by
  unfold funcInfoSize at h
  refine (readU32_total (by omega)).bind fun _ _ => ?_
  exact (readU32_total (by omega)).bind fun _ _ => FailsIn.ok _

theorem readCoreRelo_inside {raw : Bytes} {pos : Nat} (h : pos + coreReloSize ≤ raw.length) :
    ∃ relo, readCoreRelo raw pos = .ok relo := by
  unfold coreReloSize at h
  obtain ⟨insnOff, hinsn⟩ := @readU32_inside raw pos (by omega)
  obtain ⟨typeId, htype⟩ := @readU32_inside raw (pos + 4) (by omega)
  obtain ⟨accessStrOff, haccess⟩ := @readU32_inside raw (pos + 8) (by omega)
  obtain ⟨kind, hkind⟩ := @readU32_inside raw (pos + 12) (by omega)
  refine ⟨{ insnOff, typeId, accessStrOff, kind }, ?_⟩
  simp only [readCoreRelo, hinsn, htype, haccess, hkind, ok_bind]

end

/-- A part that is present lies in the section, and its records have room for
the fields that are read. -/
structure ExtInfo.Inside (raw : Bytes) (minRecSize : Nat) (info : ExtInfo) : Prop where
  pos_le_stop : info.pos ≤ info.stop
  stop_le : info.stop ≤ raw.length
  minRecSize_le : info.present = true → minRecSize ≤ info.recSize

theorem rejectExtInfo_diagnosed (required : Bool) (objectPath label problem : CString) :
    FailsIn Fault.Diagnosed (rejectExtInfo required objectPath label problem) := by
  unfold rejectExtInfo
  split
  · exact onError_fail_diagnosed _
  · exact FailsIn.ok _

theorem initExtInfo_diagnosed (raw : Bytes) (hdrLen off len minRecSize : Nat)
    (label objectPath : CString) (required : Bool) :
    FailsIn Fault.Diagnosed
      (initExtInfo raw hdrLen off len minRecSize label objectPath required) := by
  unfold initExtInfo
  split
  · exact FailsIn.ok _
  · split
    · exact rejectExtInfo_diagnosed _ _ _ _
    · split
      · exact rejectExtInfo_diagnosed _ _ _ _
      · refine (readU32_total (by omega)).bind fun recSize _ => ?_
        split
        · exact rejectExtInfo_diagnosed _ _ _ _
        · exact FailsIn.ok _

theorem ExtInfo.Inside.empty (raw : Bytes) (minRecSize : Nat) :
    ({} : ExtInfo).Inside raw minRecSize := by
  refine ⟨Nat.le_refl 0, Nat.zero_le _, fun h => ?_⟩
  cases h

theorem rejectExtInfo_inside {required : Bool} {objectPath label problem : CString}
    {info : ExtInfo} (raw : Bytes) (minRecSize : Nat)
    (h : rejectExtInfo required objectPath label problem = .ok info) :
    info.Inside raw minRecSize := by
  unfold rejectExtInfo at h
  split at h
  · cases onError_eq_ok.mp h
  · cases h
    exact ExtInfo.Inside.empty raw minRecSize

theorem initExtInfo_inside {raw : Bytes} {hdrLen off len minRecSize : Nat}
    {label objectPath : CString} {required : Bool} {info : ExtInfo}
    (h : initExtInfo raw hdrLen off len minRecSize label objectPath required = .ok info) :
    info.Inside raw minRecSize := by
  unfold initExtInfo at h
  split at h
  · cases h
    exact ExtInfo.Inside.empty raw minRecSize
  · split at h
    · exact rejectExtInfo_inside raw minRecSize h
    · split at h
      · exact rejectExtInfo_inside raw minRecSize h
      · obtain ⟨recSize, _, h⟩ := bind_eq_ok.mp h
        split at h
        · exact rejectExtInfo_inside raw minRecSize h
        next hmin =>
          cases h
          exact ⟨by simp only; omega, by simp only; omega, fun _ => Nat.not_lt.mp hmin⟩

/-! ## The lenient lookup -/

section

variable {P : Fault → Prop} {raw : Bytes} {info : ExtInfo} {minRecSize : Nat}

theorem findExtInfoSectionFrom_total (hinside : info.Inside raw minRecSize)
    (secNameOff fuel : Nat) : ∀ pos, info.stop - pos < fuel →
      FailsIn P (findExtInfoSectionFrom raw info secNameOff fuel pos) := by
  have hstop := hinside.stop_le
  induction fuel with
  | zero =>
      intro pos hfuel
      omega
  | succ fuel ih =>
      intro pos hfuel
      rw [findExtInfoSectionFrom]
      unfold sectionHeaderSize
      split
      · split
        · exact FailsIn.ok _
        · refine (readU32_total (by omega)).bind fun nameOff _ => ?_
          refine (readU32_total (by omega)).bind fun numInfo _ => ?_
          dsimp only
          split
          · exact FailsIn.ok _
          · split
            · exact FailsIn.ok _
            · exact ih _ (by omega)
      · exact FailsIn.ok _

theorem findExtInfoSection_total (hinside : info.Inside raw minRecSize) (secNameOff : Nat) :
    FailsIn P (findExtInfoSection raw info secNameOff) := by
  unfold findExtInfoSection
  split
  · exact FailsIn.ok _
  · exact findExtInfoSectionFrom_total hinside secNameOff _ _ (by omega)

/-- The records that are found lie in the part. -/
theorem findExtInfoSectionFrom_records (hrec : 0 < info.recSize) {secNameOff fuel : Nat} :
    ∀ {pos records numInfo : Nat},
      findExtInfoSectionFrom raw info secNameOff fuel pos = .ok (some (records, numInfo)) →
      records + numInfo * info.recSize ≤ info.stop := by
  induction fuel with
  | zero =>
      intro pos records numInfo h
      cases h
  | succ fuel ih =>
      intro pos records numInfo h
      rw [findExtInfoSectionFrom] at h
      unfold sectionHeaderSize at h
      split at h
      · split at h
        · cases h
        · obtain ⟨nameOff, _, h⟩ := bind_eq_ok.mp h
          obtain ⟨count, _, h⟩ := bind_eq_ok.mp h
          dsimp only at h
          split at h
          · cases h
          next hfit =>
            split at h
            next =>
              cases h
              have hcount : numInfo ≤ (info.stop - (pos + 8)) / info.recSize := by omega
              have hbytes := (Nat.le_div_iff_mul_le hrec).mp hcount
              omega
            next => exact ih h
      · cases h

theorem findExtInfoSection_records (hinside : info.Inside raw minRecSize) (hmin : 0 < minRecSize)
    {secNameOff records numInfo : Nat}
    (h : findExtInfoSection raw info secNameOff = .ok (some (records, numInfo))) :
    minRecSize ≤ info.recSize ∧ records + numInfo * info.recSize ≤ raw.length := by
  unfold findExtInfoSection at h
  split at h
  · cases h
  next hpresent =>
    have hsize : minRecSize ≤ info.recSize := hinside.minRecSize_le (by simpa using hpresent)
    have hstop := findExtInfoSectionFrom_records (by omega) h
    have hraw := hinside.stop_le
    exact ⟨hsize, by omega⟩

theorem bestRecord_total {ρ : Type} {read : Nat → Except Fault ρ} {insnOffOf : ρ → Nat}
    {recSize records numInfo insnOff : Nat}
    (hread : ∀ i < numInfo, FailsIn P (read (records + i * recSize))) :
    FailsIn P (bestRecord read insnOffOf recSize records numInfo insnOff) := by
  unfold bestRecord
  refine FailsIn.foldlM (I := fun _ => True) (fun _ _ _ _ _ _ => trivial) ?_ _ trivial
  intro i hi best _
  refine (hread i (List.mem_range.mp hi)).bind fun current _ => ?_
  split
  · exact FailsIn.ok _
  · split
    · exact FailsIn.ok _
    · split
      · exact FailsIn.ok _
      · exact FailsIn.ok _

/-- Record `i` of a section ends before the section does. -/
theorem record_end_le {records numInfo recSize size i stop : Nat} (hsize : size ≤ recSize)
    (hstop : records + numInfo * recSize ≤ stop) (hi : i < numInfo) :
    records + i * recSize + size ≤ stop := by
  have hnext : (i + 1) * recSize ≤ numInfo * recSize := Nat.mul_le_mul_right recSize hi
  have hsplit : (i + 1) * recSize = i * recSize + recSize := Nat.succ_mul i recSize
  omega

theorem findLineLocation_total (hinside : info.Inside raw lineInfoSize) (objectBtf : Btf)
    (secNameOff insnOff : Nat) :
    FailsIn P (findLineLocation raw objectBtf info secNameOff insnOff) := by
  refine (findExtInfoSection_total hinside secNameOff).bind fun found hfound => ?_
  split
  · exact FailsIn.ok _
  next records numInfo =>
    obtain ⟨hsize, hend⟩ := findExtInfoSection_records hinside (by decide) hfound
    refine FailsIn.bind (bestRecord_total fun i hi => ?_) fun best _ => ?_
    · exact readLineInfo_total (record_end_le hsize hend hi)
    · split
      · exact FailsIn.ok _
      · split
        · exact FailsIn.ok _
        · exact FailsIn.ok _
        · exact FailsIn.ok _

theorem findFunctionName_total (hinside : info.Inside raw funcInfoSize) (objectBtf : Btf)
    (secNameOff insnOff : Nat) :
    FailsIn P (findFunctionName raw objectBtf info secNameOff insnOff) := by
  refine (findExtInfoSection_total hinside secNameOff).bind fun found hfound => ?_
  split
  · exact FailsIn.ok _
  next records numInfo =>
    obtain ⟨hsize, hend⟩ := findExtInfoSection_records hinside (by decide) hfound
    refine FailsIn.bind (bestRecord_total fun i hi => ?_) fun best _ => ?_
    · exact readFuncInfo_total (record_end_le hsize hend hi)
    · split
      · exact FailsIn.ok _
      · split
        · exact FailsIn.ok _
        · split
          · exact FailsIn.ok _
          · exact FailsIn.ok _

end

/-! ## One relocation -/

/-- The parts of a section as the relocation loop has them. -/
structure CoreReloParts.Inside (parts : CoreReloParts) : Prop where
  coreInfo : parts.coreInfo.Inside parts.raw coreReloSize
  funcInfo : parts.funcInfo.Inside parts.raw funcInfoSize
  lineInfo : parts.lineInfo.Inside parts.raw lineInfoSize

/-- The failure of a record: a diagnostic with a context. -/
def Fault.HasContext : Fault → Prop
  | .error err => err.context ≠ []
  | .outOfFuel | .outOfBounds => False

theorem Fault.HasContext.diagnosed {fault : Fault} (h : fault.HasContext) : fault.Diagnosed := by
  cases fault with
  | error err => trivial
  | outOfFuel | outOfBounds => exact h

theorem mchErrorSetContext_ne_nil {text : CString} (h : text ≠ []) (err : MchError) :
    (mchErrorSetContext text err).context ≠ [] := by
  cases text with
  | nil => exact (h rfl).elim
  | cons c text => exact List.cons_ne_nil _ _

theorem setCoreReloContext_hasContext {raw : Bytes} {objectBtf : Btf} {funcInfo lineInfo : ExtInfo}
    {secNameOff : Nat} {relo : CoreRelo} {reloIndex sectionReloIndex : Nat} {err amended : MchError}
    (h : setCoreReloContext raw objectBtf funcInfo lineInfo secNameOff relo reloIndex
      sectionReloIndex err = .ok amended) : amended.context ≠ [] := by
  unfold setCoreReloContext at h
  obtain ⟨function, _, h⟩ := bind_eq_ok.mp h
  obtain ⟨line, _, h⟩ := bind_eq_ok.mp h
  dsimp only at h
  generalize hset : mchErrorSetContext _ err = contexted at h
  have hne : contexted.context ≠ [] := by
    rw [← hset]
    exact mchErrorSetContext_ne_nil (by simp) err
  split at h
  · cases h
    exact hne
  · cases h
    exact hne

section

variable {P : Fault → Prop} {parts : CoreReloParts} (hparts : parts.Inside) (objectBtf : Btf)
include hparts

theorem formatCoreReloLocation_total (secNameOff : Nat) (relo : CoreRelo) :
    FailsIn P (formatCoreReloLocation parts.raw objectBtf parts.funcInfo
      parts.lineInfo secNameOff relo) := by
  refine (findLineLocation_total hparts.lineInfo objectBtf secNameOff _).bind fun line _ => ?_
  split
  · exact FailsIn.ok _
  · refine (findFunctionName_total hparts.funcInfo objectBtf secNameOff _).bind fun _ _ => ?_
    exact FailsIn.ok _

theorem setCoreReloContext_total (secNameOff : Nat) (relo : CoreRelo)
    (reloIndex sectionReloIndex : Nat) (err : MchError) :
    FailsIn P (setCoreReloContext parts.raw objectBtf parts.funcInfo parts.lineInfo
      secNameOff relo reloIndex sectionReloIndex err) := by
  refine (findFunctionName_total hparts.funcInfo objectBtf secNameOff _).bind fun _ _ => ?_
  refine (findLineLocation_total hparts.lineInfo objectBtf secNameOff _).bind fun _ _ => ?_
  dsimp only
  generalize mchErrorSetContext _ err = err
  split
  · exact FailsIn.ok _
  · exact FailsIn.ok _

/-- A failed call comes back with a context. -/
theorem withReloContext_hasContext {α : Type} {x : Except Fault α} (secNameOff : Nat)
    (relo : CoreRelo) (reloIndex sectionReloIndex : Nat) (h : FailsIn Fault.Diagnosed x) :
    FailsIn Fault.HasContext
      (withReloContext parts objectBtf secNameOff relo reloIndex sectionReloIndex x) := by
  unfold withReloContext
  split
  next err =>
    refine FailsIn.bind (setCoreReloContext_total hparts objectBtf secNameOff relo reloIndex
      sectionReloIndex err) fun amended hamended => ?_
    exact FailsIn.error (setCoreReloContext_hasContext hamended)
  next hne =>
    intro fault hfault
    have hdiagnosed := h fault hfault
    cases fault with
    | error err => exact (hne err hfault).elim
    | outOfFuel | outOfBounds => exact hdiagnosed.elim

end

theorem withRequirements_diagnosed {state : SeedState} {call : Requirements × Except Fault Unit}
    (h : FailsIn Fault.Diagnosed call.2) : FailsIn Fault.Diagnosed (state.withRequirements call) := by
  obtain ⟨requirements, result⟩ := call
  cases result with
  | ok u => exact FailsIn.ok _
  | error fault => exact FailsIn.error (h fault rfl)

theorem dupOptional_diagnosed (granted : Bool) (text : Option CString) :
    FailsIn Fault.Diagnosed (dupOptional granted text) := by
  unfold dupOptional
  split
  · exact FailsIn.ok _
  · exact FailsIn.ok _
  · split
    · exact FailsIn.ok _
    · exact fail_diagnosed _

theorem ensureTraceCapacity_diagnosed (granted : AllocSite → Bool) (requirements : Requirements) :
    FailsIn Fault.Diagnosed (ensureTraceCapacity granted requirements) := by
  unfold ensureTraceCapacity
  dsimp only
  generalize (if requirements.traceCapacity = 0 then 16 else _) = nextCapacity
  split
  · exact FailsIn.ok _
  · split
    · exact fail_diagnosed _
    · split
      · exact FailsIn.ok _
      · exact fail_diagnosed _

theorem appendTrace_diagnosed (granted : AllocSite → Bool) (requirements : Requirements)
    (kind : TraceKind) (typeId memberIndex : Nat) (origin : Option RequirementOrigin) :
    FailsIn Fault.Diagnosed
      (appendTrace granted requirements kind typeId memberIndex origin) := by
  unfold appendTrace
  split
  · exact fail_diagnosed _
  · refine (dupOptional_diagnosed _ _).bind fun _ _ => ?_
    refine (dupOptional_diagnosed _ _).bind fun _ _ => ?_
    refine (dupOptional_diagnosed _ _).bind fun _ _ => ?_
    refine (dupOptional_diagnosed _ _).bind fun _ _ => ?_
    exact (ensureTraceCapacity_diagnosed _ _).bind fun _ _ => FailsIn.ok _

theorem requireTypeRoot_diagnosed (state : SeedState) (baseId : Nat)
    (origin : Option RequirementOrigin) :
    FailsIn Fault.Diagnosed (requireTypeRoot state baseId origin) := by
  apply withRequirements_diagnosed
  unfold mchRequirementsAddTypeRoot
  split
  · exact fail_diagnosed _
  · split
    · exact FailsIn.ok _
    · have htrace := appendTrace_diagnosed allGranted state.requirements .typeRoot baseId 0 origin
      split
      next fault heq => exact FailsIn.error (htrace fault heq)
      next => exact FailsIn.ok _

theorem requireMember_diagnosed (baseBtf : Btf) (state : SeedState) (recordId memberIndex : Nat)
    (origin : Option RequirementOrigin) :
    FailsIn Fault.Diagnosed (requireMember baseBtf state recordId memberIndex origin) := by
  refine (withRequirements_diagnosed ?_).bind fun _ _ => FailsIn.ok _
  unfold mchRequirementsAddRecordMember
  split
  · exact fail_diagnosed _
  · split
    · exact fail_diagnosed _
    · split
      · exact fail_diagnosed _
      · split
        · exact fail_diagnosed _
        · split
          next fault heq =>
            refine FailsIn.error ?_
            unfold ensureRecordMemberWords at heq
            split at heq
            · cases heq
            · cases heq
          next requirements _ =>
            split
            · exact FailsIn.ok _
            · have htrace := appendTrace_diagnosed allGranted requirements .recordMember recordId
                memberIndex origin
              split
              next fault heq => exact FailsIn.error (htrace fault heq)
              next => exact FailsIn.ok _

theorem searchAnonymousMembers_diagnosed (baseBtf : Btf) (recordId : Nat)
    (origin : Option RequirementOrigin)
    {search : SeedState → Nat → BtfType → Except Fault (SeedState × Option Nat)}
    (hsearch : ∀ state id record, FailsIn Fault.Diagnosed (search state id record))
    (members : List (BtfMember × Nat)) : ∀ state, FailsIn Fault.Diagnosed
      (searchAnonymousMembers baseBtf recordId origin search members state) := by
  induction members with
  | nil =>
      intro state
      exact FailsIn.ok _
  | cons member rest ih =>
      intro state
      obtain ⟨member, i⟩ := member
      rw [searchAnonymousMembers]
      split
      · exact ih state
      · split
        · exact ih state
        · refine (hsearch _ _ _).bind fun result _ => ?_
          dsimp only
          split
          · exact ih _
          · exact (requireMember_diagnosed _ _ _ _ _).bind fun _ _ => FailsIn.ok _

theorem markBaseMemberPath_diagnosed (baseBtf : Btf) (memberName : Option CString)
    (origin : Option RequirementOrigin) (levels : Nat) : ∀ fallbackIndex state recordId record,
      FailsIn Fault.Diagnosed (markBaseMemberPath baseBtf memberName origin levels fallbackIndex
        state recordId record) := by
  induction levels with
  | zero =>
      intro fallbackIndex state recordId record
      exact fail_diagnosed _
  | succ levels ih =>
      intro fallbackIndex state recordId record
      rw [markBaseMemberPath]
      split
      · exact (requireMember_diagnosed _ _ _ _ _).bind fun _ _ => FailsIn.ok _
      · split
        · exact FailsIn.ok _
        · exact searchAnonymousMembers_diagnosed _ _ _ (ih uint32Max) _ _

/-- A digit loop leaves no more than it was given. -/
theorem parseDigits_length {cursor rest : CString} {parsed value : Nat}
    (h : parseDigits cursor parsed = some (value, rest)) : rest.length ≤ cursor.length := by
  induction cursor generalizing parsed with
  | nil =>
      cases h
      exact Nat.le_refl _
  | cons c cursor ih =>
      rw [parseDigits] at h
      split at h
      · dsimp only at h
        split at h
        · cases h
        · have hrest := ih h
          rw [List.length_cons]
          omega
      · cases h
        exact Nat.le_refl _

/-- A component takes at least one character. -/
theorem parseAccessComponent_length {cursor rest : CString} {value : Nat}
    (h : parseAccessComponent cursor = some (value, rest)) : rest.length < cursor.length := by
  cases cursor with
  | nil => cases h
  | cons c cursor =>
      rw [parseAccessComponent] at h
      split at h
      next hdigit =>
        have hlength : ∀ {parsed : Nat} {left : CString},
            parseDigits (c :: cursor) 0 = some (parsed, left) →
            left.length ≤ cursor.length := by
          intro parsed left hparsed
          rw [parseDigits, if_pos hdigit] at hparsed
          dsimp only at hparsed
          split at hparsed
          · cases hparsed
          · exact parseDigits_length hparsed
        split at h
        next => cases h
        next hparsed =>
          cases h
          exact Nat.zero_lt_succ _
        next hparsed =>
          cases h
          have hleft := hlength hparsed
          rw [List.length_cons] at hleft ⊢
          omega
        next => cases h
      next => cases h

theorem recordAccessPath_diagnosed (baseBtf objectBtf : Btf) (objectPath access : CString)
    (origin : Option RequirementOrigin) (fuel : Nat) :
    ∀ cursor objectId currentBaseId state, cursor.length < fuel →
      FailsIn Fault.Diagnosed (recordAccessPath baseBtf objectBtf objectPath access origin fuel
        cursor objectId currentBaseId state) := by
  induction fuel with
  | zero =>
      intro cursor objectId currentBaseId state hfuel
      omega
  | succ fuel ih =>
      intro cursor objectId currentBaseId state hfuel
      rw [recordAccessPath]
      split
      · exact FailsIn.ok _
      · split
        · exact onError_fail_diagnosed _
        next hparsed =>
          have hshorter := parseAccessComponent_length hparsed
          split
          · split
            · exact onError_fail_diagnosed _
            · refine FailsIn.bind (onError_diagnosed (markBaseMemberPath_diagnosed _ _ _ _ _ _ _ _))
                fun result _ => ?_
              dsimp only
              split
              · exact onError_fail_diagnosed _
              · exact ih _ _ _ _ (by omega)
          · exact onError_fail_diagnosed _

theorem recordCoreReloRequirements_diagnosed (baseBtf objectBtf : Btf) (objectPath : CString)
    (relo : CoreRelo) (baseId : Nat) (access : Option CString) (origin : Option RequirementOrigin)
    (state : SeedState) :
    FailsIn Fault.Diagnosed (recordCoreReloRequirements baseBtf objectBtf objectPath relo baseId
      access origin state) := by
  unfold recordCoreReloRequirements
  split
  · exact FailsIn.ok _
  · split
    · exact FailsIn.ok _
    · split
      · exact onError_fail_diagnosed _
      next hparsed =>
        have hshorter := parseAccessComponent_length hparsed
        exact recordAccessPath_diagnosed _ _ _ _ _ _ _ _ _ _ (by omega)

theorem resolutionFailure_diagnosed {α : Type} (objectBtf : Btf) (objectTypeId : Nat)
    (objectPath reference : CString) (query : ResolutionQuery) (text baseResult hint : CString) :
    FailsIn Fault.Diagnosed (resolutionFailure objectBtf objectTypeId objectPath reference query
      text baseResult hint : Except Fault α) := onError_fail_diagnosed _

theorem resolveObjectTypeToBase_diagnosed (baseIndex : BtfIndex) (objectBtf : Btf)
    (objectTypeId : Nat) (objectPath reference : CString) (allowProgramLocal : Bool) :
    FailsIn Fault.Diagnosed (resolveObjectTypeToBase baseIndex objectBtf objectTypeId objectPath
      reference allowProgramLocal) := by
  have hfrom : ∀ depth id rootName query, FailsIn Fault.Diagnosed
      (resolveObjectTypeFrom baseIndex objectBtf objectTypeId objectPath reference
        allowProgramLocal depth id rootName query) := by
    intro depth
    induction depth with
    | zero =>
        intro id rootName query
        exact resolutionFailure_diagnosed _ _ _ _ _ _ _ _
    | succ depth ih =>
        intro id rootName query
        rw [resolveObjectTypeFrom]
        have hmissing : ∀ {chain rest rootName query query' text baseResult hint},
            FailsIn Fault.Diagnosed (if chain = true then
                resolveObjectTypeFrom baseIndex objectBtf objectTypeId objectPath reference
                  allowProgramLocal depth rest rootName query
              else if allowProgramLocal = true then .ok none
              else resolutionFailure objectBtf objectTypeId objectPath reference query' text
                baseResult hint) := by
          intro chain rest rootName query query' text baseResult hint
          split
          · exact ih _ _ _
          · split
            · exact FailsIn.ok _
            · exact resolutionFailure_diagnosed _ _ _ _ _ _ _ _
        split
        · exact onError_fail_diagnosed _
        · split
          · exact onError_fail_diagnosed _
          · dsimp only
            split
            · split
              · exact resolutionFailure_diagnosed _ _ _ _ _ _ _ _
              · exact FailsIn.ok _
              · exact hmissing
            · split
              · split
                · exact resolutionFailure_diagnosed _ _ _ _ _ _ _ _
                · exact FailsIn.ok _
                · exact hmissing
              · exact hmissing
  exact hfrom 32 objectTypeId none _

theorem extractCoreRelo_hasContext (baseIndex : BtfIndex) (objectBtf : Btf) (objectPath : CString)
    {parts : CoreReloParts} (hparts : parts.Inside) (secNameOff sectionReloIndex : Nat)
    (relo : CoreRelo) (seedState : SeedState) (stats : SeedStats) :
    FailsIn Fault.HasContext (extractCoreRelo baseIndex objectBtf objectPath parts secNameOff
      sectionReloIndex relo seedState stats) := by
  refine (formatCoreReloLocation_total hparts objectBtf secNameOff relo).bind fun _ _ => ?_
  refine FailsIn.bind (withReloContext_hasContext hparts objectBtf _ _ _ _
    (resolveObjectTypeToBase_diagnosed _ _ _ _ _ _)) fun _ _ => ?_
  refine FailsIn.bind (withReloContext_hasContext hparts objectBtf _ _ _ _
    (requireTypeRoot_diagnosed _ _ _)) fun _ _ => ?_
  refine FailsIn.bind (withReloContext_hasContext hparts objectBtf _ _ _ _
    (recordCoreReloRequirements_diagnosed _ _ _ _ _ _ _ _)) fun _ _ => ?_
  exact FailsIn.ok _

end MinCorehdr
