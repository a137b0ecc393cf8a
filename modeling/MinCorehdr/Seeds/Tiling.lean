import MinCorehdr.Seeds.Bounds

/-!
# The sections tile the relocation part

What the relocation loop accepts is described by `Tiles`: section headers and
their records follow one another from the record size to the end of the part.
-/

namespace MinCorehdr

open Support.Result

/-- A section of the part: its name, where its records start, how many there are. -/
structure ReloSection where
  secNameOff : Nat
  records : Nat
  numInfo : Nat
  deriving DecidableEq, Repr

/-- The sections fill the bytes from `pos` to `stop`. -/
inductive Tiles (raw : Bytes) (recSize stop : Nat) : Nat → List ReloSection → Prop
  | done : Tiles raw recSize stop stop []
  | cons {pos secNameOff numInfo : Nat} {rest : List ReloSection}
      (hname : readU32 raw pos = .ok secNameOff) (hnum : readU32 raw (pos + 4) = .ok numInfo)
      (hfit : pos + sectionHeaderSize + numInfo * recSize ≤ stop)
      (hrest : Tiles raw recSize stop (pos + sectionHeaderSize + numInfo * recSize) rest) :
      Tiles raw recSize stop pos ({ secNameOff, records := pos + sectionHeaderSize, numInfo } :: rest)

/-- The fields of the header that the extraction uses. -/
structure ExtHeader where
  hdrLen : Nat
  funcInfoOff : Nat
  funcInfoLen : Nat
  lineInfoOff : Nat
  lineInfoLen : Nat
  coreReloOff : Nat
  coreReloLen : Nat
  deriving DecidableEq, Repr

/-- The section starts with a header that is accepted and has these fields. -/
structure BtfExt.HasHeader (ext : BtfExt) (header : ExtHeader) : Prop where
  endianness : ext.endianness = .little
  size : extHeaderSize ≤ ext.raw.length
  magic : byteAt ext.raw 0 + byteAt ext.raw 1 * 2 ^ 8 = btfMagic
  version : byteAt ext.raw 2 = btfVersion
  hdrLen : readU32 ext.raw 4 = .ok header.hdrLen
  funcInfoOff : readU32 ext.raw 8 = .ok header.funcInfoOff
  funcInfoLen : readU32 ext.raw 12 = .ok header.funcInfoLen
  lineInfoOff : readU32 ext.raw 16 = .ok header.lineInfoOff
  lineInfoLen : readU32 ext.raw 20 = .ok header.lineInfoLen
  coreReloOff : readU32 ext.raw 24 = .ok header.coreReloOff
  coreReloLen : readU32 ext.raw 28 = .ok header.coreReloLen
  extHeaderSize_le : extHeaderSize ≤ header.hdrLen
  hdrLen_le : header.hdrLen ≤ ext.raw.length

/-- The relocation part lies in the section and is a record size, large enough,
followed by sections that tile it. -/
structure ReloPartTiles (raw : Bytes) (header : ExtHeader) (recSize : Nat)
    (sections : List ReloSection) : Prop where
  inside : header.hdrLen + header.coreReloOff + header.coreReloLen ≤ raw.length
  room : 4 ≤ header.coreReloLen
  recSize_eq : readU32 raw (header.hdrLen + header.coreReloOff) = .ok recSize
  coreReloSize_le : coreReloSize ≤ recSize
  tiles : Tiles raw recSize (header.hdrLen + header.coreReloOff + header.coreReloLen)
    (header.hdrLen + header.coreReloOff + 4) sections

/-- A record as the loop meets it: the section's name, its index there, where it is. -/
structure ReloVisit where
  secNameOff : Nat
  index : Nat
  pos : Nat
  deriving DecidableEq, Repr

/-- The records of a section in file order. -/
def ReloSection.visits (recSize : Nat) (part : ReloSection) : List ReloVisit :=
  (List.range part.numInfo).map fun i =>
    { secNameOff := part.secNameOff, index := i, pos := part.records + i * recSize }

/-- One round of the loop over records. -/
def visitRelo (baseIndex : BtfIndex) (objectBtf : Btf) (objectPath : CString)
    (parts : CoreReloParts) (state : SeedState × SeedStats) (visit : ReloVisit) :
    Except Fault (SeedState × SeedStats) := do
  let relo ← readCoreRelo parts.raw visit.pos
  extractCoreRelo baseIndex objectBtf objectPath parts visit.secNameOff visit.index relo state.1
    state.2

/-- The three calls of `init_ext_info` for a header. -/
def coreReloParts (raw : Bytes) (header : ExtHeader) (objectPath : CString) :
    Except Fault CoreReloParts := do
  let coreInfo ← initExtInfo raw header.hdrLen header.coreReloOff header.coreReloLen coreReloSize
    "CO-RE relocation".toList objectPath true
  let funcInfo ← initExtInfo raw header.hdrLen header.funcInfoOff header.funcInfoLen funcInfoSize
    "function info".toList objectPath false
  let lineInfo ← initExtInfo raw header.hdrLen header.lineInfoOff header.lineInfoLen lineInfoSize
    "line info".toList objectPath false
  .ok { raw, coreInfo, funcInfo, lineInfo }

def trailingBytesText : CString :=
  "object .BTF.ext CO-RE relocation section has trailing bytes".toList

/-- What is said of a part that is out of shape. -/
def formatErrorTexts : List CString :=
  ["object .BTF.ext CO-RE relocation section is out of bounds".toList,
    "object .BTF.ext CO-RE relocation section is truncated".toList,
    "object .BTF.ext CO-RE relocation record size is unsupported".toList,
    "object .BTF.ext CO-RE relocation records are truncated".toList]

def formatError (objectPath text : CString) : Fault :=
  .error (mchErrorSetFile objectPath (mchErrorSet text))

/-- A diagnostic about the shape of the relocation part. -/
def Fault.IsFormatError (objectPath : CString) (fault : Fault) : Prop :=
  ∃ text ∈ trailingBytesText :: formatErrorTexts, fault = formatError objectPath text

/-- The failure of a record of the part. -/
def RecordFailure (baseIndex : BtfIndex) (objectBtf : Btf) (objectPath : CString)
    (parts : CoreReloParts) (fault : Fault) : Prop :=
  ∃ state visit, parts.coreInfo.pos ≤ visit.pos ∧
    visit.pos + parts.coreInfo.recSize ≤ parts.coreInfo.stop ∧
    visitRelo baseIndex objectBtf objectPath parts state visit = .error fault

/-- The loop reports no error about the shape of the part. -/
def FormatFree (objectPath : CString) (run : Except Fault (SeedState × SeedStats)) : Prop :=
  ∀ fault, run = .error fault → ¬fault.IsFormatError objectPath

/-- No record of the part stops the run. -/
def NoRecordFails (baseIndex : BtfIndex) (objectBtf : Btf) (objectPath : CString) (raw : Bytes)
    (header : ExtHeader) (run : Except Fault (SeedState × SeedStats)) : Prop :=
  ∀ parts, coreReloParts raw header objectPath = .ok parts →
    ∀ fault, run = .error fault → ¬RecordFailure baseIndex objectBtf objectPath parts fault

/-! ## The parts -/

theorem initExtInfo_required {raw : Bytes} {hdrLen off len minRecSize : Nat}
    {label objectPath : CString} {info : ExtInfo} (hlen : len ≠ 0)
    (h : initExtInfo raw hdrLen off len minRecSize label objectPath true = .ok info) :
    hdrLen + off + len ≤ raw.length ∧ 4 ≤ len ∧ ∃ recSize,
      readU32 raw (hdrLen + off) = .ok recSize ∧ minRecSize ≤ recSize ∧
      info = { pos := hdrLen + off + 4, stop := hdrLen + off + len, recSize, present := true } := by
  have hreject : ∀ problem, rejectExtInfo true objectPath label problem ≠ .ok info := by
    intro problem heq
    unfold rejectExtInfo at heq
    rw [if_pos rfl] at heq
    cases onError_eq_ok.mp heq
  unfold initExtInfo at h
  rw [if_neg hlen] at h
  split at h
  · exact (hreject _ h).elim
  next hinside =>
    split at h
    next => exact (hreject _ h).elim
    next hroom =>
      obtain ⟨recSize, hread, h⟩ := bind_eq_ok.mp h
      split at h
      next => exact (hreject _ h).elim
      next hmin =>
        cases h
        exact ⟨by omega, by omega, recSize, hread, Nat.not_lt.mp hmin, rfl⟩

/-- A relocation part that is rejected at once is out of shape. -/
theorem initExtInfo_formatError {raw : Bytes} {hdrLen off len : Nat} {objectPath : CString}
    {fault : Fault}
    (h : initExtInfo raw hdrLen off len coreReloSize "CO-RE relocation".toList objectPath true =
      .error fault) : ∃ text ∈ formatErrorTexts, fault = formatError objectPath text := by
  unfold initExtInfo at h
  split at h
  · cases h
  · split at h
    · cases h
      exact ⟨_, List.mem_cons_self, rfl⟩
    · split at h
      · cases h
        exact ⟨_, List.mem_cons_of_mem _ List.mem_cons_self, rfl⟩
      · obtain ⟨recSize, hread⟩ := @readU32_inside raw (hdrLen + off) (by omega)
        rw [hread, ok_bind] at h
        split at h
        · cases h
          exact ⟨_, List.mem_cons_of_mem _ (List.mem_cons_of_mem _ List.mem_cons_self), rfl⟩
        · cases h

theorem initExtInfo_optional (raw : Bytes) (hdrLen off len minRecSize : Nat)
    (label objectPath : CString) :
    ∃ info, initExtInfo raw hdrLen off len minRecSize label objectPath false = .ok info := by
  unfold initExtInfo rejectExtInfo
  split
  · exact ⟨_, rfl⟩
  · split
    · exact ⟨_, rfl⟩
    · split
      · exact ⟨_, rfl⟩
      · obtain ⟨recSize, hread⟩ := @readU32_inside raw (hdrLen + off) (by omega)
        rw [hread, ok_bind]
        split
        · exact ⟨_, rfl⟩
        · exact ⟨_, rfl⟩

theorem coreReloParts_eq_ok {raw : Bytes} {header : ExtHeader} {objectPath : CString}
    {parts : CoreReloParts} (h : coreReloParts raw header objectPath = .ok parts) :
    parts.raw = raw ∧ parts.Inside ∧
      initExtInfo raw header.hdrLen header.coreReloOff header.coreReloLen coreReloSize
        "CO-RE relocation".toList objectPath true = .ok parts.coreInfo := by
  obtain ⟨coreInfo, hcore, h⟩ := bind_eq_ok.mp h
  obtain ⟨funcInfo, hfunc, h⟩ := bind_eq_ok.mp h
  obtain ⟨lineInfo, hline, h⟩ := bind_eq_ok.mp h
  cases h
  exact ⟨rfl, ⟨initExtInfo_inside hcore, initExtInfo_inside hfunc, initExtInfo_inside hline⟩, hcore⟩

/-- Only the relocation part can be rejected. -/
theorem coreReloParts_cases (raw : Bytes) (header : ExtHeader) (objectPath : CString) :
    (∃ parts, coreReloParts raw header objectPath = .ok parts) ∨
      ∃ text ∈ formatErrorTexts,
        coreReloParts raw header objectPath = .error (formatError objectPath text) := by
  unfold coreReloParts
  cases hcore : initExtInfo raw header.hdrLen header.coreReloOff header.coreReloLen coreReloSize
      "CO-RE relocation".toList objectPath true with
  | error fault =>
      obtain ⟨text, htext, rfl⟩ := initExtInfo_formatError hcore
      exact Or.inr ⟨text, htext, rfl⟩
  | ok coreInfo =>
      obtain ⟨funcInfo, hfunc⟩ := initExtInfo_optional raw header.hdrLen header.funcInfoOff
        header.funcInfoLen funcInfoSize "function info".toList objectPath
      obtain ⟨lineInfo, hline⟩ := initExtInfo_optional raw header.hdrLen header.lineInfoOff
        header.lineInfoLen lineInfoSize "line info".toList objectPath
      simp only [hfunc, hline, ok_bind]
      exact Or.inl ⟨_, rfl⟩

/-! ## The loops -/

section

variable {baseIndex : BtfIndex} {objectBtf : Btf} {objectPath : CString} {parts : CoreReloParts}

theorem visitRelo_hasContext (hparts : parts.Inside)
    (hrec : coreReloSize ≤ parts.coreInfo.recSize) {visit : ReloVisit}
    (hvisit : visit.pos + parts.coreInfo.recSize ≤ parts.coreInfo.stop)
    (state : SeedState × SeedStats) :
    FailsIn Fault.HasContext (visitRelo baseIndex objectBtf objectPath parts state visit) := by
  have hstop := hparts.coreInfo.stop_le
  obtain ⟨relo, hrelo⟩ := @readCoreRelo_inside parts.raw visit.pos (by omega)
  unfold visitRelo
  rw [hrelo, ok_bind]
  exact extractCoreRelo_hasContext _ _ _ hparts _ _ _ _ _

theorem RecordFailure.hasContext {fault : Fault} (hparts : parts.Inside)
    (hrec : coreReloSize ≤ parts.coreInfo.recSize)
    (h : RecordFailure baseIndex objectBtf objectPath parts fault) : fault.HasContext := by
  obtain ⟨state, visit, _, hend, hfail⟩ := h
  exact visitRelo_hasContext hparts hrec hend state fault hfail

/-- A record that is passed counts once. -/
theorem visitRelo_coreRelocations {state state' : SeedState × SeedStats} {visit : ReloVisit}
    (h : visitRelo baseIndex objectBtf objectPath parts state visit = .ok state') :
    state'.2.coreRelocations = state.2.coreRelocations + 1 := by
  obtain ⟨relo, _, h⟩ := bind_eq_ok.mp h
  obtain ⟨location, _, h⟩ := bind_eq_ok.mp h
  obtain ⟨resolved, _, h⟩ := bind_eq_ok.mp h
  obtain ⟨rooted, _, h⟩ := bind_eq_ok.mp h
  obtain ⟨recorded, _, h⟩ := bind_eq_ok.mp h
  cases h
  dsimp only
  rw [apply_ite SeedStats.coreRelocations]
  exact ite_self _

theorem foldlM_visitRelo_coreRelocations {visits : List ReloVisit}
    {state state' : SeedState × SeedStats}
    (h : visits.foldlM (visitRelo baseIndex objectBtf objectPath parts) state = .ok state') :
    state'.2.coreRelocations = state.2.coreRelocations + visits.length := by
  induction visits generalizing state with
  | nil =>
      cases h
      rfl
  | cons visit visits ih =>
      obtain ⟨mid, hmid, hrest⟩ := foldlM_cons_eq_ok.mp h
      rw [ih hrest, visitRelo_coreRelocations hmid, List.length_cons]
      omega

/-- The visits of `left` records from `pos`, the first with index `i`. -/
def visitsFrom (recSize secNameOff left i pos : Nat) : List ReloVisit :=
  (List.range left).map fun k => { secNameOff, index := i + k, pos := pos + k * recSize }

theorem visitsFrom_succ (recSize secNameOff left i pos : Nat) :
    visitsFrom recSize secNameOff (left + 1) i pos =
      { secNameOff, index := i, pos } :: visitsFrom recSize secNameOff left (i + 1)
        (pos + recSize) := by
  unfold visitsFrom
  rw [List.range_succ_eq_map, List.map_cons, List.map_map]
  congr 1
  · simp
  · apply List.map_congr_left
    intro k _
    have hindex : i + (k + 1) = i + 1 + k := by omega
    have hpos : pos + (k + 1) * recSize = pos + recSize + k * recSize := by
      rw [Nat.succ_mul]
      omega
    simp only [Function.comp_apply, hindex, hpos]

theorem ReloSection.visits_eq (recSize : Nat) (part : ReloSection) :
    part.visits recSize = visitsFrom recSize part.secNameOff part.numInfo 0 part.records := by
  unfold ReloSection.visits visitsFrom
  simp only [Nat.zero_add]

theorem mem_visitsFrom_inside {recSize secNameOff left i pos stop : Nat}
    (hfit : pos + left * recSize ≤ stop) {visit : ReloVisit}
    (h : visit ∈ visitsFrom recSize secNameOff left i pos) :
    pos ≤ visit.pos ∧ visit.pos + recSize ≤ stop := by
  obtain ⟨k, hk, rfl⟩ := List.mem_map.mp h
  have hend := record_end_le (Nat.le_refl recSize) hfit (List.mem_range.mp hk)
  exact ⟨Nat.le_add_right _ _, hend⟩

/-- A section whose records fit is a fold over them. -/
theorem extractSectionRelos_of_fit {secNameOff left : Nat} :
    ∀ {i pos : Nat} {state : SeedState × SeedStats},
      pos + left * parts.coreInfo.recSize ≤ parts.coreInfo.stop →
      extractSectionRelos baseIndex objectBtf objectPath parts secNameOff left i pos state =
        (visitsFrom parts.coreInfo.recSize secNameOff left i pos).foldlM
            (visitRelo baseIndex objectBtf objectPath parts) state >>=
          fun state => .ok (pos + left * parts.coreInfo.recSize, state) := by
  induction left with
  | zero =>
      intro i pos state _
      rw [extractSectionRelos, Nat.zero_mul]
      rfl
  | succ left ih =>
      intro i pos state hfit
      rw [Nat.succ_mul] at hfit
      have hnext : pos + (left + 1) * parts.coreInfo.recSize =
          pos + parts.coreInfo.recSize + left * parts.coreInfo.recSize := by
        rw [Nat.succ_mul]
        omega
      rw [extractSectionRelos, if_neg (by omega), visitsFrom_succ, List.foldlM_cons, hnext]
      unfold visitRelo
      cases hread : readCoreRelo parts.raw pos with
      | error fault => rfl
      | ok relo =>
          simp only [ok_bind]
          cases hrelo : extractCoreRelo baseIndex objectBtf objectPath parts secNameOff i relo
              state.1 state.2 with
          | error fault => rfl
          | ok state' =>
              simp only [ok_bind]
              exact ih (by omega)

theorem foldlM_visitRelo_error {visits : List ReloVisit}
    (hinside : ∀ visit ∈ visits, parts.coreInfo.pos ≤ visit.pos ∧
      visit.pos + parts.coreInfo.recSize ≤ parts.coreInfo.stop)
    {state : SeedState × SeedStats} {fault : Fault}
    (h : visits.foldlM (visitRelo baseIndex objectBtf objectPath parts) state = .error fault) :
    RecordFailure baseIndex objectBtf objectPath parts fault := by
  induction visits generalizing state with
  | nil => cases h
  | cons visit visits ih =>
      rcases foldlM_cons_eq_error.mp h with hfail | ⟨mid, _, hrest⟩
      · obtain ⟨hpos, hend⟩ := hinside visit List.mem_cons_self
        exact ⟨state, visit, hpos, hend, hfail⟩
      · exact ih (fun other hother => hinside other (List.mem_cons_of_mem _ hother)) hrest

/-- A section whose records do not fit is reported, unless a record fails first. -/
theorem extractSectionRelos_of_not_fit (hrec : 0 < parts.coreInfo.recSize) {secNameOff left : Nat} :
    ∀ {i pos : Nat} {state : SeedState × SeedStats}, parts.coreInfo.pos ≤ pos →
      parts.coreInfo.stop < pos + left * parts.coreInfo.recSize → pos ≤ parts.coreInfo.stop →
      ∃ fault, extractSectionRelos baseIndex objectBtf objectPath parts secNameOff left i pos state =
          .error fault ∧
        ((∃ text ∈ formatErrorTexts, fault = formatError objectPath text) ∨
          RecordFailure baseIndex objectBtf objectPath parts fault) := by
  induction left with
  | zero =>
      intro i pos state _ hlong hpos
      omega
  | succ left ih =>
      intro i pos state hstart hlong hpos
      rw [Nat.succ_mul] at hlong
      rw [extractSectionRelos]
      by_cases hroom : parts.coreInfo.stop - pos < parts.coreInfo.recSize
      · rw [if_pos hroom]
        refine ⟨_, rfl, Or.inl ⟨_, ?_, rfl⟩⟩
        simp [formatErrorTexts]
      · rw [if_neg hroom]
        have hone : ∀ fault, visitRelo baseIndex objectBtf objectPath parts state
              { secNameOff, index := i, pos } = .error fault →
            RecordFailure baseIndex objectBtf objectPath parts fault :=
          fun fault hfail => ⟨state, _, hstart, by dsimp only; omega, hfail⟩
        unfold visitRelo at hone
        cases hread : readCoreRelo parts.raw pos with
        | error fault =>
            rw [hread] at hone
            exact ⟨fault, rfl, Or.inr (hone fault rfl)⟩
        | ok relo =>
            simp only [hread, ok_bind] at hone ⊢
            cases hrelo : extractCoreRelo baseIndex objectBtf objectPath parts secNameOff i relo
                state.1 state.2 with
            | error fault => exact ⟨fault, rfl, Or.inr (hone fault hrelo)⟩
            | ok state' =>
                simp only [ok_bind]
                exact ih (by omega) (by omega) (by omega)

/-- A part that its sections tile is a fold over the records of all sections. -/
theorem extractReloSections_of_tiles {pos : Nat} {sections : List ReloSection}
    (htiles : Tiles parts.raw parts.coreInfo.recSize parts.coreInfo.stop pos sections) :
    ∀ {fuel : Nat} {state : SeedState × SeedStats}, parts.coreInfo.stop - pos < fuel →
      extractReloSections baseIndex objectBtf objectPath parts fuel pos state =
        (sections.flatMap (ReloSection.visits parts.coreInfo.recSize)).foldlM
          (visitRelo baseIndex objectBtf objectPath parts) state := by
  induction htiles with
  | done =>
      intro fuel state hfuel
      cases fuel with
      | zero => omega
      | succ fuel =>
          rw [extractReloSections, if_neg (by omega), if_neg (by omega)]
          rfl
  | @cons pos secNameOff numInfo rest hname hnum hfit _ ih =>
      intro fuel state hfuel
      unfold sectionHeaderSize at hfit ih
      cases fuel with
      | zero => omega
      | succ fuel =>
          rw [extractReloSections, if_pos (by omega)]
          unfold sectionHeaderSize
          rw [if_neg (by omega), hname, ok_bind, hnum, ok_bind, extractSectionRelos_of_fit hfit,
            List.flatMap_cons, List.foldlM_append, ReloSection.visits_eq]
          cases hfirst : (visitsFrom parts.coreInfo.recSize secNameOff numInfo 0 (pos + 8)).foldlM
              (visitRelo baseIndex objectBtf objectPath parts) state with
          | error fault => rfl
          | ok state' =>
              simp only [ok_bind]
              exact ih (by omega)

theorem Tiles.visits_inside {raw : Bytes} {recSize stop pos : Nat} {sections : List ReloSection}
    (htiles : Tiles raw recSize stop pos sections) :
    ∀ visit ∈ sections.flatMap (ReloSection.visits recSize),
      pos ≤ visit.pos ∧ visit.pos + recSize ≤ stop := by
  induction htiles with
  | done =>
      intro visit hvisit
      cases hvisit
  | @cons pos secNameOff numInfo rest hname hnum hfit _ ih =>
      intro visit hvisit
      rw [List.flatMap_cons, List.mem_append, ReloSection.visits_eq] at hvisit
      rcases hvisit with hvisit | hvisit
      · obtain ⟨hlow, hhigh⟩ := mem_visitsFrom_inside hfit hvisit
        exact ⟨by omega, hhigh⟩
      · obtain ⟨hlow, hhigh⟩ := ih visit hvisit
        exact ⟨by omega, hhigh⟩

/-- The failure of the first record ends the loop. -/
theorem extractReloSections_of_first_fails {fuel pos secNameOff numInfo : Nat}
    {state : SeedState × SeedStats} {fault : Fault} (hpos : pos + sectionHeaderSize ≤ parts.coreInfo.stop)
    (hname : readU32 parts.raw pos = .ok secNameOff)
    (hnum : readU32 parts.raw (pos + 4) = .ok (numInfo + 1))
    (hfit : pos + sectionHeaderSize + parts.coreInfo.recSize ≤ parts.coreInfo.stop)
    (hfail : visitRelo baseIndex objectBtf objectPath parts state
      { secNameOff, index := 0, pos := pos + sectionHeaderSize } = .error fault) :
    extractReloSections baseIndex objectBtf objectPath parts (fuel + 1) pos state = .error fault := by
  unfold sectionHeaderSize at hpos
  rw [extractReloSections, if_pos (by omega), if_neg (by unfold sectionHeaderSize; omega), hname,
    ok_bind, hnum, ok_bind, extractSectionRelos, if_neg (by omega)]
  unfold visitRelo at hfail
  rcases bind_eq_error.mp hfail with hread | ⟨relo, hread, hrelo⟩
  · rw [hread]
    rfl
  · rw [hread, ok_bind, hrelo]
    rfl

/-- A part that no sections tile is reported, unless a record fails first. -/
theorem extractReloSections_of_not_tiles (hrec : 0 < parts.coreInfo.recSize)
    (hraw : parts.coreInfo.stop ≤ parts.raw.length) {fuel : Nat} :
    ∀ {pos : Nat} {state : SeedState × SeedStats}, parts.coreInfo.pos ≤ pos →
      pos ≤ parts.coreInfo.stop → parts.coreInfo.stop - pos < fuel →
      (∀ sections, ¬Tiles parts.raw parts.coreInfo.recSize parts.coreInfo.stop pos sections) →
      ∃ fault, extractReloSections baseIndex objectBtf objectPath parts fuel pos state =
          .error fault ∧
        ((∃ text ∈ formatErrorTexts, fault = formatError objectPath text) ∨
          RecordFailure baseIndex objectBtf objectPath parts fault) := by
  induction fuel with
  | zero =>
      intro pos state _ _ hfuel
      omega
  | succ fuel ih =>
      intro pos state hstart hpos hfuel hnot
      have hinside : pos < parts.coreInfo.stop := by
        refine Nat.lt_of_le_of_ne hpos fun heq => ?_
        rw [heq] at hnot
        exact hnot [] .done
      rw [extractReloSections, if_pos hinside]
      unfold sectionHeaderSize
      by_cases hroom : parts.coreInfo.stop - pos < 8
      · rw [if_pos hroom]
        refine ⟨_, rfl, Or.inl ⟨_, ?_, rfl⟩⟩
        simp [formatErrorTexts]
      · obtain ⟨secNameOff, hname⟩ := @readU32_inside parts.raw pos (by omega)
        obtain ⟨numInfo, hnum⟩ := @readU32_inside parts.raw (pos + 4) (by omega)
        rw [if_neg hroom, hname, ok_bind, hnum, ok_bind]
        by_cases hfit : pos + 8 + numInfo * parts.coreInfo.recSize ≤ parts.coreInfo.stop
        · rw [extractSectionRelos_of_fit hfit]
          cases hfirst : (visitsFrom parts.coreInfo.recSize secNameOff numInfo 0 (pos + 8)).foldlM
              (visitRelo baseIndex objectBtf objectPath parts) state with
          | error fault =>
              refine ⟨fault, rfl, Or.inr (foldlM_visitRelo_error ?_ hfirst)⟩
              intro visit hvisit
              obtain ⟨hlow, hhigh⟩ := mem_visitsFrom_inside hfit hvisit
              exact ⟨by omega, hhigh⟩
          | ok state' =>
              simp only [ok_bind]
              refine ih (by omega) hfit (by omega) fun sections htiles => ?_
              exact hnot _ (.cons hname hnum hfit htiles)
        · obtain ⟨fault, hfault, hkind⟩ := @extractSectionRelos_of_not_fit baseIndex objectBtf
            objectPath parts hrec secNameOff numInfo 0 (pos + 8) state (by omega) (by omega) (by omega)
          refine ⟨fault, ?_, hkind⟩
          rw [hfault]
          rfl

end

/-! ## The whole part -/

section

variable {baseIndex : BtfIndex} {objectBtf : Btf} {objectPath : CString} {ext : BtfExt}
  {header : ExtHeader} {state : SeedState} {stats : SeedStats}

theorem mchExtractCoreReloSeedsWithRequirements_eq (hheader : ext.HasHeader header)
    (hlen : header.coreReloLen ≠ 0) :
    mchExtractCoreReloSeedsWithRequirements baseIndex objectBtf (some ext) objectPath state stats =
      coreReloParts ext.raw header objectPath >>= fun parts =>
        extractReloSections baseIndex objectBtf objectPath parts
          (parts.coreInfo.stop - parts.coreInfo.pos + 1) parts.coreInfo.pos (state, stats) := by
  have hendian : ¬ext.endianness ≠ .little := fun hne => hne hheader.endianness
  have hsize : ¬ext.raw.length < extHeaderSize := Nat.not_lt.mpr hheader.size
  have hmagic : ¬(byteAt ext.raw 0 + byteAt ext.raw 1 * 2 ^ 8 ≠ btfMagic ∨
      byteAt ext.raw 2 ≠ btfVersion) := by
    rw [hheader.magic, hheader.version]
    simp
  have hrange : ¬(header.hdrLen < extHeaderSize ∨ ext.raw.length < header.hdrLen) := by
    have hlow := hheader.extHeaderSize_le
    have hhigh := hheader.hdrLen_le
    omega
  unfold mchExtractCoreReloSeedsWithRequirements coreReloParts
  simp only [if_neg hendian, if_neg hsize, if_neg hmagic, if_neg hrange, if_neg hlen,
    hheader.hdrLen, hheader.funcInfoOff, hheader.funcInfoLen, hheader.lineInfoOff,
    hheader.lineInfoLen, hheader.coreReloOff, hheader.coreReloLen, ok_bind, bind_assoc]

/-- The tiling that a part's loop works on is the one of the header's fields. -/
theorem coreReloParts_tiles_iff {parts : CoreReloParts} (hlen : header.coreReloLen ≠ 0)
    (h : coreReloParts ext.raw header objectPath = .ok parts) (sections : List ReloSection)
    (recSize : Nat) : ReloPartTiles ext.raw header recSize sections ↔
      recSize = parts.coreInfo.recSize ∧
        Tiles parts.raw parts.coreInfo.recSize parts.coreInfo.stop parts.coreInfo.pos sections := by
  obtain ⟨hraw, _, hcore⟩ := coreReloParts_eq_ok h
  obtain ⟨hinside, hroom, found, hread, hmin, hinfo⟩ := initExtInfo_required hlen hcore
  rw [hraw, hinfo]
  constructor
  · intro htiles
    have hsame : (Except.ok found : Except Fault Nat) = .ok recSize :=
      hread.symm.trans htiles.recSize_eq
    cases hsame
    exact ⟨rfl, htiles.tiles⟩
  · rintro ⟨rfl, htiles⟩
    exact ⟨hinside, hroom, hread, hmin, htiles⟩

/-- A part that tiles passes the checks before the loop. -/
theorem ReloPartTiles.exists_parts {recSize : Nat} {sections : List ReloSection}
    (htiles : ReloPartTiles ext.raw header recSize sections) :
    ∃ parts, coreReloParts ext.raw header objectPath = .ok parts := by
  have hinside := htiles.inside
  have hroom := htiles.room
  have hcore : initExtInfo ext.raw header.hdrLen header.coreReloOff header.coreReloLen coreReloSize
      "CO-RE relocation".toList objectPath true =
        .ok { pos := header.hdrLen + header.coreReloOff + 4
              stop := header.hdrLen + header.coreReloOff + header.coreReloLen
              recSize, present := true } := by
    unfold initExtInfo
    rw [if_neg (by omega), if_neg (by omega), if_neg (by omega), htiles.recSize_eq, ok_bind,
      if_neg (Nat.not_lt.mpr htiles.coreReloSize_le)]
  rcases coreReloParts_cases ext.raw header objectPath with hparts | ⟨text, _, herror⟩
  · exact hparts
  · obtain ⟨funcInfo, hfunc⟩ := initExtInfo_optional ext.raw header.hdrLen header.funcInfoOff
      header.funcInfoLen funcInfoSize "function info".toList objectPath
    obtain ⟨lineInfo, hline⟩ := initExtInfo_optional ext.raw header.hdrLen header.lineInfoOff
      header.lineInfoLen lineInfoSize "line info".toList objectPath
    unfold coreReloParts at herror
    rw [hcore, ok_bind, hfunc, ok_bind, hline, ok_bind] at herror
    cases herror

/-- A part that tiles: the run is a fold over its records, and fails as they do. -/
theorem mchExtractCoreReloSeedsWithRequirements_of_tiles (hheader : ext.HasHeader header)
    (hlen : header.coreReloLen ≠ 0) {recSize : Nat} {sections : List ReloSection}
    (htiles : ReloPartTiles ext.raw header recSize sections) :
    ∃ parts, coreReloParts ext.raw header objectPath = .ok parts ∧
      mchExtractCoreReloSeedsWithRequirements baseIndex objectBtf (some ext) objectPath state stats =
        (sections.flatMap (ReloSection.visits recSize)).foldlM
          (visitRelo baseIndex objectBtf objectPath parts) (state, stats) ∧
      ∀ fault, mchExtractCoreReloSeedsWithRequirements baseIndex objectBtf (some ext) objectPath
          state stats = .error fault →
        RecordFailure baseIndex objectBtf objectPath parts fault := by
  obtain ⟨parts, hparts⟩ := @ReloPartTiles.exists_parts objectPath ext header recSize sections htiles
  obtain ⟨rfl, hsections⟩ := (coreReloParts_tiles_iff hlen hparts sections recSize).mp htiles
  have hrun := @mchExtractCoreReloSeedsWithRequirements_eq baseIndex objectBtf objectPath ext header
    state stats hheader hlen
  rw [hparts, ok_bind, extractReloSections_of_tiles hsections (by omega)] at hrun
  refine ⟨parts, hparts, hrun, fun fault hfault => ?_⟩
  rw [hrun] at hfault
  exact foldlM_visitRelo_error hsections.visits_inside hfault

/-- A part that does not tile: the run reports it, unless a record fails first. -/
theorem mchExtractCoreReloSeedsWithRequirements_of_not_tiles (hheader : ext.HasHeader header)
    (hlen : header.coreReloLen ≠ 0)
    (hnot : ∀ recSize sections, ¬ReloPartTiles ext.raw header recSize sections) :
    ∃ fault, mchExtractCoreReloSeedsWithRequirements baseIndex objectBtf (some ext) objectPath state
        stats = .error fault ∧
      ((∃ text ∈ formatErrorTexts, fault = formatError objectPath text) ∨
        ∃ parts, coreReloParts ext.raw header objectPath = .ok parts ∧
          RecordFailure baseIndex objectBtf objectPath parts fault) := by
  have hrun := @mchExtractCoreReloSeedsWithRequirements_eq baseIndex objectBtf objectPath ext header
    state stats hheader hlen
  rcases coreReloParts_cases ext.raw header objectPath with ⟨parts, hparts⟩ | ⟨text, htext, herror⟩
  · obtain ⟨_, hinside, hcore⟩ := coreReloParts_eq_ok hparts
    obtain ⟨_, _, found, _, hmin, hinfo⟩ := initExtInfo_required hlen hcore
    have hrec : 0 < parts.coreInfo.recSize := by
      rw [hinfo]
      exact Nat.lt_of_lt_of_le (by decide) hmin
    rw [hparts, ok_bind] at hrun
    obtain ⟨fault, hfault, hkind⟩ := @extractReloSections_of_not_tiles baseIndex objectBtf objectPath
      parts hrec hinside.coreInfo.stop_le (parts.coreInfo.stop - parts.coreInfo.pos + 1)
      parts.coreInfo.pos (state, stats) (Nat.le_refl _) hinside.coreInfo.pos_le_stop (by omega)
      fun sections hsections => hnot _ sections
        ((coreReloParts_tiles_iff hlen hparts sections _).mpr ⟨rfl, hsections⟩)
    rw [hfault] at hrun
    exact ⟨fault, hrun, hkind.imp_right fun hrecord => ⟨parts, hparts, hrecord⟩⟩
  · rw [herror, error_bind] at hrun
    exact ⟨_, hrun, Or.inl ⟨text, htext, rfl⟩⟩

theorem RecordFailure.hasContext_of_parts {parts : CoreReloParts} {fault : Fault}
    (hlen : header.coreReloLen ≠ 0) (hparts : coreReloParts ext.raw header objectPath = .ok parts)
    (h : RecordFailure baseIndex objectBtf objectPath parts fault) : fault.HasContext := by
  obtain ⟨_, hinside, hcore⟩ := coreReloParts_eq_ok hparts
  obtain ⟨_, _, recSize, _, hmin, hinfo⟩ := initExtInfo_required hlen hcore
  refine RecordFailure.hasContext hinside ?_ h
  rw [hinfo]
  exact hmin

theorem mchExtractCoreReloSeedsWithRequirements_diagnosed_of_header (hheader : ext.HasHeader header)
    (hlen : header.coreReloLen ≠ 0) :
    FailsIn Fault.Diagnosed (mchExtractCoreReloSeedsWithRequirements baseIndex objectBtf (some ext)
      objectPath state stats) := by
  intro fault hfault
  by_cases htiles : ∃ recSize sections, ReloPartTiles ext.raw header recSize sections
  · obtain ⟨recSize, sections, htiles⟩ := htiles
    obtain ⟨parts, hparts, _, hfail⟩ := mchExtractCoreReloSeedsWithRequirements_of_tiles hheader hlen
      htiles
    exact ((hfail fault hfault).hasContext_of_parts hlen hparts).diagnosed
  · obtain ⟨fault', hfault', hkind⟩ := mchExtractCoreReloSeedsWithRequirements_of_not_tiles hheader
      hlen fun recSize sections hpart => htiles ⟨recSize, sections, hpart⟩
    cases hfault.symm.trans hfault'
    rcases hkind with ⟨text, _, rfl⟩ | ⟨parts, hparts, hrecord⟩
    · trivial
    · exact (hrecord.hasContext_of_parts hlen hparts).diagnosed

end

theorem mchExtractCoreReloSeedsWithRequirements_diagnosed (baseIndex : BtfIndex) (objectBtf : Btf)
    (objectExt : Option BtfExt) (objectPath : CString) (state : SeedState) (stats : SeedStats) :
    FailsIn Fault.Diagnosed (mchExtractCoreReloSeedsWithRequirements baseIndex objectBtf objectExt
      objectPath state stats) := by
  cases objectExt with
  | none => exact FailsIn.ok _
  | some ext =>
      have hall := @mchExtractCoreReloSeedsWithRequirements_diagnosed_of_header baseIndex objectBtf
        objectPath ext
      unfold mchExtractCoreReloSeedsWithRequirements at hall ⊢
      dsimp only at hall ⊢
      by_cases hendian : ext.endianness ≠ .little
      · rw [if_pos hendian]
        exact onError_fail_diagnosed _
      by_cases hsize : ext.raw.length < extHeaderSize
      · rw [if_neg hendian, if_pos hsize]
        exact onError_fail_diagnosed _
      by_cases hmagic : byteAt ext.raw 0 + byteAt ext.raw 1 * 2 ^ 8 ≠ btfMagic ∨
          byteAt ext.raw 2 ≠ btfVersion
      · rw [if_neg hendian, if_neg hsize, if_pos hmagic]
        exact onError_fail_diagnosed _
      have hread : ∀ pos, pos + 4 ≤ 32 → ∃ n, readU32 ext.raw pos = .ok n := by
        intro pos hpos
        unfold extHeaderSize at hsize
        exact readU32_inside (by omega)
      obtain ⟨hdrLen, hhdrLen⟩ := hread 4 (by omega)
      obtain ⟨funcInfoOff, hfuncInfoOff⟩ := hread 8 (by omega)
      obtain ⟨funcInfoLen, hfuncInfoLen⟩ := hread 12 (by omega)
      obtain ⟨lineInfoOff, hlineInfoOff⟩ := hread 16 (by omega)
      obtain ⟨lineInfoLen, hlineInfoLen⟩ := hread 20 (by omega)
      obtain ⟨coreReloOff, hcoreReloOff⟩ := hread 24 (by omega)
      obtain ⟨coreReloLen, hcoreReloLen⟩ := hread 28 (by omega)
      by_cases hrange : hdrLen < extHeaderSize ∨ ext.raw.length < hdrLen
      · simp only [if_neg hendian, if_neg hsize, if_neg hmagic, hhdrLen, hfuncInfoOff, hfuncInfoLen,
          hlineInfoOff, hlineInfoLen, hcoreReloOff, hcoreReloLen, ok_bind, if_pos hrange]
        exact onError_fail_diagnosed _
      by_cases hlen : coreReloLen = 0
      · simp only [if_neg hendian, if_neg hsize, if_neg hmagic, hhdrLen, hfuncInfoOff, hfuncInfoLen,
          hlineInfoOff, hlineInfoLen, hcoreReloOff, hcoreReloLen, ok_bind, if_neg hrange, if_pos hlen]
        exact FailsIn.ok _
      have hle : extHeaderSize ≤ hdrLen ∧ hdrLen ≤ ext.raw.length := by omega
      refine @hall ⟨hdrLen, funcInfoOff, funcInfoLen, lineInfoOff, lineInfoLen, coreReloOff,
        coreReloLen⟩ state stats ?_ hlen
      exact {
        endianness := by simpa using hendian
        size := Nat.not_lt.mp hsize
        magic := by simp only [not_or, ne_eq, not_not] at hmagic; exact hmagic.1
        version := by simp only [not_or, ne_eq, not_not] at hmagic; exact hmagic.2
        hdrLen := hhdrLen
        funcInfoOff := hfuncInfoOff
        funcInfoLen := hfuncInfoLen
        lineInfoOff := hlineInfoOff
        lineInfoLen := hlineInfoLen
        coreReloOff := hcoreReloOff
        coreReloLen := hcoreReloLen
        extHeaderSize_le := hle.1
        hdrLen_le := hle.2 }

theorem length_visits (recSize : Nat) (sections : List ReloSection) :
    (sections.flatMap (ReloSection.visits recSize)).length =
      (sections.map ReloSection.numInfo).sum := by
  rw [List.length_flatMap]
  congr 1
  apply List.map_congr_left
  intro part _
  unfold ReloSection.visits
  rw [List.length_map, List.length_range]

theorem not_isFormatError_of_hasContext {objectPath : CString} {fault : Fault}
    (h : fault.HasContext) : ¬fault.IsFormatError objectPath := by
  rintro ⟨text, _, rfl⟩
  exact h rfl

theorem formatError_ne_trailingBytes {objectPath text : CString} (h : text ∈ formatErrorTexts) :
    formatError objectPath trailingBytesText ≠ formatError objectPath text := by
  intro heq
  simp only [formatError, mchErrorSetFile, mchErrorSet, Fault.error.injEq, MchError.mk.injEq,
    and_true] at heq
  simp only [formatErrorTexts, List.mem_cons, List.not_mem_nil, or_false] at h
  rcases h with rfl | rfl | rfl | rfl <;> exact absurd heq (by decide)

/-! ## The section is read safely, and exactly -/

/-- Every read is inside the section and every loop ends; a run that no record
stops reports nothing about the shape of the part exactly where sections tile
it, and then visits each record once, in file order. -/
theorem mchExtractCoreReloSeedsWithRequirements_exact :
    (∀ raw hdrLen off len minRecSize label objectPath required,
      Returns (initExtInfo raw hdrLen off len minRecSize label objectPath required) ∧
      ∀ info, initExtInfo raw hdrLen off len minRecSize label objectPath required = .ok info →
        ∀ objectBtf secNameOff insnOff,
          Succeeds (findExtInfoSection raw info secNameOff) ∧
          (lineInfoSize ≤ minRecSize →
            Succeeds (findLineLocation raw objectBtf info secNameOff insnOff)) ∧
          (funcInfoSize ≤ minRecSize →
            Succeeds (findFunctionName raw objectBtf info secNameOff insnOff))) ∧
    ∀ baseIndex objectBtf objectPath state stats,
      (∀ objectExt, Returns (mchExtractCoreReloSeedsWithRequirements baseIndex objectBtf objectExt
        objectPath state stats)) ∧
      ∀ (ext : BtfExt) (header : ExtHeader), ext.HasHeader header → header.coreReloLen ≠ 0 →
        ∀ run, run = mchExtractCoreReloSeedsWithRequirements baseIndex objectBtf (some ext)
            objectPath state stats →
          (NoRecordFails baseIndex objectBtf objectPath ext.raw header run →
            (FormatFree objectPath run ↔
              ∃ recSize sections, ReloPartTiles ext.raw header recSize sections)) ∧
          run ≠ .error (formatError objectPath trailingBytesText) ∧
          ∀ recSize sections, ReloPartTiles ext.raw header recSize sections →
            FormatFree objectPath run ∧
            (∃ parts, coreReloParts ext.raw header objectPath = .ok parts ∧
              run = (sections.flatMap (ReloSection.visits recSize)).foldlM
                (visitRelo baseIndex objectBtf objectPath parts) (state, stats)) ∧
            ∀ state' stats', run = .ok (state', stats') →
              stats'.coreRelocations =
                stats.coreRelocations + (sections.map ReloSection.numInfo).sum := by
  refine ⟨fun raw hdrLen off len minRecSize label objectPath required => ⟨?_, ?_⟩, ?_⟩
  · exact returns_iff.mpr (initExtInfo_diagnosed _ _ _ _ _ _ _ _)
  · intro info hinfo objectBtf secNameOff insnOff
    have hinside := initExtInfo_inside hinfo
    have hwider : ∀ size, size ≤ minRecSize → info.Inside raw size := fun size hsize =>
      ⟨hinside.pos_le_stop, hinside.stop_le, fun hpresent =>
        Nat.le_trans hsize (hinside.minRecSize_le hpresent)⟩
    exact ⟨succeeds_of_total (findExtInfoSection_total hinside secNameOff),
      fun hsize => succeeds_of_total (findLineLocation_total (hwider _ hsize) _ _ _),
      fun hsize => succeeds_of_total (findFunctionName_total (hwider _ hsize) _ _ _)⟩
  · intro baseIndex objectBtf objectPath state stats
    refine ⟨fun objectExt => returns_iff.mpr
      (mchExtractCoreReloSeedsWithRequirements_diagnosed _ _ objectExt _ _ _), ?_⟩
    rintro ext header hheader hlen run rfl
    have hfree : ∀ recSize sections, ReloPartTiles ext.raw header recSize sections →
        FormatFree objectPath (mchExtractCoreReloSeedsWithRequirements baseIndex objectBtf (some ext)
          objectPath state stats) := by
      intro recSize sections htiles fault hfault
      obtain ⟨parts, hparts, _, hfail⟩ := mchExtractCoreReloSeedsWithRequirements_of_tiles hheader
        hlen htiles
      exact not_isFormatError_of_hasContext ((hfail fault hfault).hasContext_of_parts hlen hparts)
    refine ⟨fun hrecords => ⟨fun hformat => ?_, ?_⟩, ?_, fun recSize sections htiles => ?_⟩
    · by_contra hnot
      obtain ⟨fault, hfault, hkind⟩ := mchExtractCoreReloSeedsWithRequirements_of_not_tiles hheader
        hlen fun recSize sections hpart => hnot ⟨recSize, sections, hpart⟩
      rcases hkind with ⟨text, htext, rfl⟩ | ⟨parts, hparts, hrecord⟩
      · exact hformat _ hfault ⟨text, List.mem_cons_of_mem _ htext, rfl⟩
      · exact hrecords parts hparts fault hfault hrecord
    · rintro ⟨recSize, sections, htiles⟩
      exact hfree recSize sections htiles
    · intro htrailing
      by_cases htiles : ∃ recSize sections, ReloPartTiles ext.raw header recSize sections
      · obtain ⟨recSize, sections, htiles⟩ := htiles
        exact hfree recSize sections htiles _ htrailing ⟨_, List.mem_cons_self, rfl⟩
      · obtain ⟨fault, hfault, hkind⟩ := mchExtractCoreReloSeedsWithRequirements_of_not_tiles hheader
          hlen fun recSize sections hpart => htiles ⟨recSize, sections, hpart⟩
        rw [htrailing] at hfault
        cases hfault
        rcases hkind with ⟨text, htext, heq⟩ | ⟨parts, hparts, hrecord⟩
        · exact formatError_ne_trailingBytes htext heq
        · exact not_isFormatError_of_hasContext (hrecord.hasContext_of_parts hlen hparts)
            ⟨_, List.mem_cons_self, rfl⟩
    · obtain ⟨parts, hparts, hrun, _⟩ := mchExtractCoreReloSeedsWithRequirements_of_tiles hheader
        hlen htiles
      refine ⟨hfree recSize sections htiles, ⟨parts, hparts, hrun⟩, fun state' stats' hok => ?_⟩
      rw [hrun] at hok
      rw [← length_visits recSize sections]
      exact foldlM_visitRelo_coreRelocations hok

/-- A section whose relocation part is `part`, with no other part. -/
def extOfPart (part : Bytes) (length : UInt8) : BtfExt where
  endianness := .little
  raw := [0x9f, 0xeb, 1, 0, 32, 0, 0, 0] ++ List.replicate 16 0 ++ [0, 0, 0, 0, length, 0, 0, 0] ++
    part

/-- The header of such a section. -/
def soleReloHeader (coreReloLen : Nat) : ExtHeader :=
  { hdrLen := 32, funcInfoOff := 0, funcInfoLen := 0, lineInfoOff := 0, lineInfoLen := 0,
    coreReloOff := 0, coreReloLen }

/-- `struct R { int x; int y; }`, with `0:0` and `0:1` among the strings. -/
def twoFields : Btf where
  types := [
    { nameOff := 1, kind := .struct, size := 8,
      members := [{ nameOff := 3, type := 2 }, { nameOff := 5, type := 2, offset := 32 }] },
    { nameOff := 7, kind := .int, size := 4, intInfo := 0x01000020 }]
  strs := "\x00R\x00x\x00y\x00int\x000:0\x000:1\x00".toList

/-- A record that reads a field of `struct R`. -/
def fieldRecord (accessStrOff : UInt8) : Bytes :=
  [0, 0, 0, 0, 1, 0, 0, 0, accessStrOff, 0, 0, 0, 0, 0, 0, 0]

/-- One section with two records, and one with one. -/
def twoSections : Bytes :=
  [16, 0, 0, 0] ++ [1, 0, 0, 0, 2, 0, 0, 0] ++ fieldRecord 11 ++ fieldRecord 15 ++
    [3, 0, 0, 0, 1, 0, 0, 0] ++ fieldRecord 11

def twoFieldsState : SeedState where
  seeds := mchTypeSetInit (btfTypeCnt twoFields)
  requirements := mchRequirementsInit (btfTypeCnt twoFields)

theorem twoSections_hasHeader : (extOfPart twoSections 68).HasHeader (soleReloHeader 68) := by
  constructor <;> decide

theorem twoSections_tiles : ReloPartTiles (extOfPart twoSections 68).raw (soleReloHeader 68) 16
    [{ secNameOff := 1, records := 44, numInfo := 2 }, { secNameOff := 3, records := 84, numInfo := 1 }] :=
  ⟨by decide, by decide, by decide, by decide,
    .cons rfl rfl (by decide) (.cons rfl rfl (by decide) .done)⟩

/-- The three records succeed, so their part is tiled, and they are visited in order. -/
theorem mchExtractCoreReloSeedsWithRequirements_exact_twoSections : ∃ index state stats parts,
    mchBtfIndexInit twoFields = .ok index ∧
      mchExtractCoreReloSeedsWithRequirements index twoFields (some (extOfPart twoSections 68)) []
        twoFieldsState {} = .ok (state, stats) ∧
      (∃ recSize sections,
        ReloPartTiles (extOfPart twoSections 68).raw (soleReloHeader 68) recSize sections) ∧
      coreReloParts (extOfPart twoSections 68).raw (soleReloHeader 68) [] = .ok parts ∧
      [{ secNameOff := 1, index := 0, pos := 44 }, { secNameOff := 1, index := 1, pos := 60 },
          { secNameOff := 3, index := 0, pos := 84 }].foldlM
        (visitRelo index twoFields [] parts) (twoFieldsState, {}) = .ok (state, stats) ∧
      stats.coreRelocations = 3 := by
  have hruns : ∃ out, (do
      let index ← mchBtfIndexInit twoFields
      mchExtractCoreReloSeedsWithRequirements index twoFields (some (extOfPart twoSections 68)) []
        twoFieldsState {}) = .ok out :=
    exists_ok_of_isSome (by decide +kernel)
  obtain ⟨⟨state, stats⟩, hruns⟩ := hruns
  obtain ⟨index, hindex, hrun⟩ := bind_eq_ok.mp hruns
  obtain ⟨hiff, _, hexact⟩ := (mchExtractCoreReloSeedsWithRequirements_exact.2 index twoFields []
    twoFieldsState {}).2 _ _ twoSections_hasHeader (by decide) _ rfl
  have hfree : FormatFree [] (mchExtractCoreReloSeedsWithRequirements index twoFields
      (some (extOfPart twoSections 68)) [] twoFieldsState {}) := by
    rw [hrun]
    intro fault hfault
    cases hfault
  have hrecords : NoRecordFails index twoFields [] (extOfPart twoSections 68).raw (soleReloHeader 68)
      (mchExtractCoreReloSeedsWithRequirements index twoFields (some (extOfPart twoSections 68)) []
        twoFieldsState {}) := by
    rw [hrun]
    intro parts _ fault hfault
    cases hfault
  obtain ⟨_, ⟨parts, hparts, hvisits⟩, hcount⟩ := hexact 16 _ twoSections_tiles
  exact ⟨index, state, stats, parts, hindex, hrun, (hiff hrecords).mp hfree, hparts,
    hvisits.symm.trans hrun, hcount state stats hrun⟩

/-- A record whose type the object lacks fails. -/
theorem visitRelo_of_unresolved {baseIndex : BtfIndex} {objectBtf : Btf} {objectPath : CString}
    {parts : CoreReloParts} {state : SeedState × SeedStats} {visit : ReloVisit} {relo : CoreRelo}
    {err : MchError} (hread : readCoreRelo parts.raw visit.pos = .ok relo)
    (hresolve : resolveObjectTypeToBase baseIndex objectBtf relo.typeId objectPath
      "CO-RE relocation".toList false = .error (.error err)) :
    ∃ fault, visitRelo baseIndex objectBtf objectPath parts state visit = .error fault := by
  obtain ⟨fault, hfault⟩ : ∃ fault, withReloContext parts objectBtf visit.secNameOff relo
      (state.2.coreRelocations + 1) visit.index
      (.error (.error err) : Except Fault (Option Nat)) = .error fault := by
    cases hset : setCoreReloContext parts.raw objectBtf parts.funcInfo parts.lineInfo
        visit.secNameOff relo (state.2.coreRelocations + 1) visit.index err with
    | error fault => exact ⟨fault, by simp only [withReloContext, hset, error_bind]⟩
    | ok amended => exact ⟨.error amended, by simp only [withReloContext, hset, ok_bind]⟩
  unfold visitRelo extractCoreRelo
  rw [hread, ok_bind]
  cases formatCoreReloLocation parts.raw objectBtf parts.funcInfo parts.lineInfo visit.secNameOff
      relo with
  | error fault => exact ⟨fault, rfl⟩
  | ok location =>
      simp only [ok_bind, hresolve, hfault, error_bind]
      exact ⟨fault, rfl⟩

/-- One section with one record, of type 0. -/
def oneRecord : Bytes := [16, 0, 0, 0, 0, 0, 0, 0, 1, 0, 0, 0] ++ List.replicate 16 0

def emptyIndex : BtfIndex where
  btf := { types := [], strs := [] }
  buckets := [0]
  entries := []
  bucketCount := 1

def oneRecordState : SeedState where
  seeds := mchTypeSetInit 1
  requirements := mchRequirementsInit 1

/-- The record fails first, so the three bytes behind it are not reported. -/
theorem strayBytes_notReported :
    (extOfPart (oneRecord ++ [0, 0, 0]) 31).HasHeader (soleReloHeader 31) ∧
      FormatFree [] (mchExtractCoreReloSeedsWithRequirements emptyIndex { types := [], strs := [] }
        (some (extOfPart (oneRecord ++ [0, 0, 0]) 31)) [] oneRecordState {}) ∧
      ∀ recSize sections, ¬ReloPartTiles (extOfPart (oneRecord ++ [0, 0, 0]) 31).raw
        (soleReloHeader 31) recSize sections := by
  have hheader : (extOfPart (oneRecord ++ [0, 0, 0]) 31).HasHeader (soleReloHeader 31) := by
    constructor <;> decide
  refine ⟨hheader, ?_, ?_⟩
  · obtain ⟨parts, hparts⟩ : ∃ parts, coreReloParts (extOfPart (oneRecord ++ [0, 0, 0]) 31).raw
        (soleReloHeader 31) [] = .ok parts := ⟨_, rfl⟩
    obtain ⟨hraw, hinside, _⟩ := coreReloParts_eq_ok hparts
    have hinfo : parts.coreInfo = { pos := 36, stop := 63, recSize := 16, present := true } := by
      cases hparts
      rfl
    obtain ⟨fault, hfault⟩ := @visitRelo_of_unresolved emptyIndex { types := [], strs := [] } []
      parts (oneRecordState, {}) { secNameOff := 0, index := 0, pos := 44 } ⟨0, 0, 0, 0⟩ _
      (by rw [hraw]; rfl) rfl
    have hcontext := visitRelo_hasContext hinside (by rw [hinfo]; decide)
      (by rw [hinfo]; decide) _ fault hfault
    have hrun := @mchExtractCoreReloSeedsWithRequirements_eq emptyIndex { types := [], strs := [] } []
      _ _ oneRecordState {} hheader (by decide)
    rw [hparts, ok_bind, extractReloSections_of_first_fails (by rw [hinfo]; decide)
      (by rw [hraw, hinfo]; rfl) (by rw [hraw, hinfo]; rfl) (by rw [hinfo]; decide)
      (by rw [hinfo]; exact hfault)] at hrun
    intro fault' hfault'
    cases hrun.symm.trans hfault'
    exact not_isFormatError_of_hasContext hcontext
  · rintro recSize sections ⟨_, _, hrecSize, _, htiles⟩
    have hsize : recSize = 16 := by
      have hread : readU32 (extOfPart (oneRecord ++ [0, 0, 0]) 31).raw 32 = .ok 16 := by decide
      cases hrecSize.symm.trans hread
      rfl
    cases htiles with
    | @cons _ _ numInfo rest _ hnum hfit hrest =>
        have hone : numInfo = 1 := by
          have hread : readU32 (extOfPart (oneRecord ++ [0, 0, 0]) 31).raw 40 = .ok 1 := by decide
          cases hnum.symm.trans hread
          rfl
        subst hsize hone
        cases hrest with
        | cons _ _ hfit _ =>
            simp only [soleReloHeader, sectionHeaderSize] at hfit
            omega

end MinCorehdr
