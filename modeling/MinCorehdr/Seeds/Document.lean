import Mathlib.Data.List.MinMax
import MinCorehdr.Seeds.Tiling
import MinCorehdr.Support.Packed

/-!
# The section as a document

What the bytes of a `.BTF.ext` section stand for: sections of function records, of line
records and of relocations.  The extraction over the bytes is one over the document.
-/

namespace MinCorehdr

open Support.Packed Support.Result

/-! ## The three records -/

theorem readU32_eq_ok {raw : Bytes} {pos n : Nat} :
    readU32 raw pos = .ok n ↔ n < 2 ^ 32 ∧ Occurs raw pos (word n) := by
  unfold readU32
  split
  next hin =>
    rw [← occurs_word_iff hin]
    exact iff_of_eq (Except.ok.injEq _ _)
  next hout =>
    refine iff_of_false (by simp) ?_
    rintro ⟨_, hoccurs⟩
    exact hout hoccurs.le_length

def CoreRelo.bytes (relo : CoreRelo) : Bytes :=
  word relo.insnOff ++ (word relo.typeId ++ (word relo.accessStrOff ++ word relo.kind))

/-- The fields fit their words. -/
def CoreRelo.IsValid (relo : CoreRelo) : Prop :=
  relo.insnOff < 2 ^ 32 ∧ relo.typeId < 2 ^ 32 ∧ relo.accessStrOff < 2 ^ 32 ∧ relo.kind < 2 ^ 32

theorem readCoreRelo_eq_ok (raw : Bytes) (pos : Nat) (relo : CoreRelo) :
    readCoreRelo raw pos = .ok relo ↔ relo.IsValid ∧ Occurs raw pos relo.bytes := by
  have hwords : readCoreRelo raw pos = .ok relo ↔ readU32 raw pos = .ok relo.insnOff ∧
      readU32 raw (pos + 4) = .ok relo.typeId ∧ readU32 raw (pos + 8) = .ok relo.accessStrOff ∧
        readU32 raw (pos + 12) = .ok relo.kind := by
    constructor
    · intro h
      obtain ⟨insnOff, hinsn, h⟩ := bind_eq_ok.mp h
      obtain ⟨typeId, htype, h⟩ := bind_eq_ok.mp h
      obtain ⟨accessStrOff, haccess, h⟩ := bind_eq_ok.mp h
      obtain ⟨kind, hkind, h⟩ := bind_eq_ok.mp h
      cases h
      exact ⟨hinsn, htype, haccess, hkind⟩
    · rintro ⟨hinsn, htype, haccess, hkind⟩
      simp only [readCoreRelo, hinsn, htype, haccess, hkind, ok_bind]
  rw [hwords]
  simp only [readU32_eq_ok, CoreRelo.IsValid, CoreRelo.bytes, occurs_append_iff, length_word,
    Nat.add_assoc]
  tauto

def BpfFuncInfo.bytes (info : BpfFuncInfo) : Bytes := word info.insnOff ++ word info.typeId

def BpfFuncInfo.IsValid (info : BpfFuncInfo) : Prop := info.insnOff < 2 ^ 32 ∧ info.typeId < 2 ^ 32

theorem readFuncInfo_eq_ok (raw : Bytes) (pos : Nat) (info : BpfFuncInfo) :
    readFuncInfo raw pos = .ok info ↔ info.IsValid ∧ Occurs raw pos info.bytes := by
  have hwords : readFuncInfo raw pos = .ok info ↔ readU32 raw pos = .ok info.insnOff ∧
      readU32 raw (pos + 4) = .ok info.typeId := by
    constructor
    · intro h
      obtain ⟨insnOff, hinsn, h⟩ := bind_eq_ok.mp h
      obtain ⟨typeId, htype, h⟩ := bind_eq_ok.mp h
      cases h
      exact ⟨hinsn, htype⟩
    · rintro ⟨hinsn, htype⟩
      simp only [readFuncInfo, hinsn, htype, ok_bind]
  rw [hwords]
  simp only [readU32_eq_ok, BpfFuncInfo.IsValid, BpfFuncInfo.bytes, occurs_append_iff, length_word]
  tauto

def BpfLineInfo.bytes (info : BpfLineInfo) : Bytes :=
  word info.insnOff ++ (word info.fileNameOff ++ (word info.lineOff ++ word info.lineCol))

def BpfLineInfo.IsValid (info : BpfLineInfo) : Prop :=
  info.insnOff < 2 ^ 32 ∧ info.fileNameOff < 2 ^ 32 ∧ info.lineOff < 2 ^ 32 ∧
    info.lineCol < 2 ^ 32

theorem readLineInfo_eq_ok (raw : Bytes) (pos : Nat) (info : BpfLineInfo) :
    readLineInfo raw pos = .ok info ↔ info.IsValid ∧ Occurs raw pos info.bytes := by
  have hwords : readLineInfo raw pos = .ok info ↔ readU32 raw pos = .ok info.insnOff ∧
      readU32 raw (pos + 4) = .ok info.fileNameOff ∧ readU32 raw (pos + 8) = .ok info.lineOff ∧
        readU32 raw (pos + 12) = .ok info.lineCol := by
    constructor
    · intro h
      obtain ⟨insnOff, hinsn, h⟩ := bind_eq_ok.mp h
      obtain ⟨fileNameOff, hfile, h⟩ := bind_eq_ok.mp h
      obtain ⟨lineOff, hline, h⟩ := bind_eq_ok.mp h
      obtain ⟨lineCol, hcol, h⟩ := bind_eq_ok.mp h
      cases h
      exact ⟨hinsn, hfile, hline, hcol⟩
    · rintro ⟨hinsn, hfile, hline, hcol⟩
      simp only [readLineInfo, hinsn, hfile, hline, hcol, ok_bind]
  rw [hwords]
  simp only [readU32_eq_ok, BpfLineInfo.IsValid, BpfLineInfo.bytes, occurs_append_iff, length_word,
    Nat.add_assoc]
  tauto

theorem exists_readFuncInfo (raw : Bytes) (pos : Nat) (h : pos + funcInfoSize ≤ raw.length) :
    ∃ info, readFuncInfo raw pos = .ok info :=
  succeeds_of_total (readFuncInfo_total h)

theorem exists_readLineInfo (raw : Bytes) (pos : Nat) (h : pos + lineInfoSize ≤ raw.length) :
    ∃ info, readLineInfo raw pos = .ok info :=
  succeeds_of_total (readLineInfo_total h)

def coreReloCodec : Codec Fault CoreRelo where
  size := coreReloSize
  Valid := CoreRelo.IsValid
  encode := CoreRelo.bytes
  read := readCoreRelo
  length_encode := fun _ => rfl
  read_eq_ok := readCoreRelo_eq_ok
  exists_read := fun _ _ h => readCoreRelo_inside h

def funcInfoCodec : Codec Fault BpfFuncInfo where
  size := funcInfoSize
  Valid := BpfFuncInfo.IsValid
  encode := BpfFuncInfo.bytes
  read := readFuncInfo
  length_encode := fun _ => rfl
  read_eq_ok := readFuncInfo_eq_ok
  exists_read := exists_readFuncInfo

def lineInfoCodec : Codec Fault BpfLineInfo where
  size := lineInfoSize
  Valid := BpfLineInfo.IsValid
  encode := BpfLineInfo.bytes
  read := readLineInfo
  length_encode := fun _ => rfl
  read_eq_ok := readLineInfo_eq_ok
  exists_read := exists_readLineInfo

/-! ## Documents -/

structure ExtDocument where
  functions : List (Section BpfFuncInfo)
  lines : List (Section BpfLineInfo)
  relos : List (Section CoreRelo)

/-- A relocation, the section that lists it and its index there. -/
structure PlacedRelo where
  secNameOff : Nat
  index : Nat
  relo : CoreRelo

def placedRelos (part : Section CoreRelo) : List PlacedRelo :=
  part.records.zipIdx.map fun indexed =>
    { secNameOff := part.name, index := indexed.2, relo := indexed.1.value }

/-- The relocations in file order. -/
def ExtDocument.placed (doc : ExtDocument) : List PlacedRelo := doc.relos.flatMap placedRelos

/-- Of the records at or before the instruction, the last of those that are closest to it. -/
def latest {ρ : Type} (insnOffOf : ρ → Nat) (insnOff : Nat) (records : List ρ) : Option ρ :=
  (records.filter (fun record => insnOffOf record ≤ insnOff)).reverse.argmax insnOffOf

/-- The same in the first section of that name. -/
def latestIn {ρ : Type} (insnOffOf : ρ → Nat) (sections : List (Section ρ))
    (secNameOff insnOff : Nat) : Option ρ :=
  (sections.find? (fun part => part.name = secNameOff)).bind fun part =>
    latest insnOffOf insnOff (part.records.map Record.value)

/-- The place that a line record names. -/
def BpfLineInfo.location (objectBtf : Btf) (info : BpfLineInfo) : LineLocation :=
  match btfStrByOffset objectBtf info.fileNameOff with
  | none => {}
  | some [] => { fileName := some [] }
  | some name =>
      { fileName := some name, place := some (info.lineCol >>> 10, info.lineCol &&& 0x3ff) }

/-- The function that a function record names. -/
def BpfFuncInfo.functionName (objectBtf : Btf) (info : BpfFuncInfo) : Option CString :=
  match btfTypeById objectBtf info.typeId with
  | none => none
  | some type =>
      if type.kind = .func ∧ mchBtfTypeName objectBtf type ≠ [] then
        some (mchBtfTypeName objectBtf type)
      else
        none

def ExtDocument.line (doc : ExtDocument) (objectBtf : Btf) (secNameOff insnOff : Nat) :
    LineLocation :=
  (latestIn BpfLineInfo.insnOff doc.lines secNameOff insnOff).elim {} (BpfLineInfo.location objectBtf)

def ExtDocument.functionName (doc : ExtDocument) (objectBtf : Btf) (secNameOff insnOff : Nat) :
    Option CString :=
  (latestIn BpfFuncInfo.insnOff doc.functions secNameOff insnOff).bind
    (BpfFuncInfo.functionName objectBtf)

/-- The location that the requirements of a relocation are recorded with. -/
def ExtDocument.location (doc : ExtDocument) (objectBtf : Btf) (placed : PlacedRelo) : CString :=
  clip 160 (locationText (doc.line objectBtf placed.secNameOff placed.relo.insnOff)
    (doc.functionName objectBtf placed.secNameOff placed.relo.insnOff)
    (textOr "<unknown>".toList (btfStrByOffset objectBtf placed.secNameOff)))

/-- A diagnostic about a relocation, with what is known of it. -/
def reloContext (objectBtf : Btf) (placed : PlacedRelo) (line : LineLocation)
    (function : Option CString) (reloIndex : Nat) (err : MchError) : MchError :=
  let section_ := textOr "<unknown>".toList (btfStrByOffset objectBtf placed.secNameOff)
  let access := textOr "<none>".toList (btfStrByOffset objectBtf placed.relo.accessStrOff)
  let functionPart := match function, line.fileName with
    | some name, some _ => "function: ".toList ++ name ++ ", ".toList
    | _, _ => []
  let err := mchErrorSetContext (clip 160 (locationText line function section_) ++ " (".toList ++
    functionPart ++ "section: ".toList ++ section_ ++ ", insn: ".toList ++
    decimal placed.relo.insnOff ++ ", CO-RE ".toList ++ coreReloKindName placed.relo.kind ++
    ", access: ".toList ++ access ++ ", type_id: ".toList ++ decimal placed.relo.typeId ++
    ", relo: #".toList ++ decimal reloIndex ++ ", section relo: #".toList ++
    decimal (placed.index + 1) ++ [')']) err
  if err.hint = [] then
    mchErrorSetHint "check the CO-RE relocation type id against the object BTF".toList err
  else
    err

def ExtDocument.context (doc : ExtDocument) (objectBtf : Btf) (placed : PlacedRelo)
    (reloIndex : Nat) (err : MchError) : MchError :=
  reloContext objectBtf placed (doc.line objectBtf placed.secNameOff placed.relo.insnOff)
    (doc.functionName objectBtf placed.secNameOff placed.relo.insnOff) reloIndex err

/-- What one relocation of the document adds. -/
def ExtDocument.extractRelo (doc : ExtDocument) (baseIndex : BtfIndex) (objectBtf : Btf)
    (objectPath : CString) (state : SeedState × SeedStats) (placed : PlacedRelo) :
    Except Fault (SeedState × SeedStats) := do
  let relo := placed.relo
  let reloIndex := state.2.coreRelocations + 1
  let stats := { state.2 with coreRelocations := state.2.coreRelocations + 1 }
  let access := btfStrByOffset objectBtf relo.accessStrOff
  let origin : RequirementOrigin :=
    { source := .coreRelo, objectPath := some objectPath
      detail := some (coreReloKindName relo.kind), access
      location := some (doc.location objectBtf placed) }
  let resolved ← onError (doc.context objectBtf placed reloIndex)
    (resolveObjectTypeToBase baseIndex objectBtf relo.typeId objectPath "CO-RE relocation".toList
      false)
  let baseId := resolved.getD 0
  let (seedState, fresh) := addSeed state.1 baseId
  let stats := if fresh then { stats with coreKernelTypes := stats.coreKernelTypes + 1 } else stats
  let seedState ← onError (doc.context objectBtf placed reloIndex)
    (requireTypeRoot seedState baseId (some origin))
  let seedState ← onError (doc.context objectBtf placed reloIndex)
    (recordCoreReloRequirements baseIndex.btf objectBtf objectPath relo baseId access (some origin)
      seedState)
  .ok (seedState, stats)

/-- The extraction over a document. -/
def ExtDocument.extract (doc : ExtDocument) (baseIndex : BtfIndex) (objectBtf : Btf)
    (objectPath : CString) (state : SeedState × SeedStats) : Except Fault (SeedState × SeedStats) :=
  doc.placed.foldlM (doc.extractRelo baseIndex objectBtf objectPath) state

/-- The section stands for the document: its relocation part is filled by the relocations, and
of the two other parts the sections are those that can be read. -/
inductive BtfExt.Holds (ext : BtfExt) (doc : ExtDocument) : Prop
  | noRelocations {header : ExtHeader} (hheader : ext.HasHeader header)
      (hlen : header.coreReloLen = 0) (hrelos : doc.relos = [])
  | relocations {header : ExtHeader} {stride : Nat} (hheader : ext.HasHeader header)
      (hrelos : Fills coreReloCodec ext.raw (header.hdrLen + header.coreReloOff) header.coreReloLen
        stride doc.relos)
      (hfunctions : Opens funcInfoCodec ext.raw (header.hdrLen + header.funcInfoOff)
        header.funcInfoLen doc.functions)
      (hlines : Opens lineInfoCodec ext.raw (header.hdrLen + header.lineInfoOff)
        header.lineInfoLen doc.lines)

/-! ## The parts -/

section

variable {ρ : Type} {codec : Codec Fault ρ} {raw : Bytes} {hdrLen off len stride : Nat}
  {sections : List (Section ρ)} {label objectPath : CString}

/-- What is kept of a part that can be read. -/
def openInfo (start len stride : Nat) : ExtInfo where
  pos := start + 4
  stop := start + len
  recSize := stride
  present := true

theorem initExtInfo_of_startsWith {required : Bool}
    (h : StartsWith codec raw (hdrLen + off) len stride sections) :
    initExtInfo raw hdrLen off len codec.size label objectPath required =
      .ok (openInfo (hdrLen + off) len stride) := by
  have hinside := h.inside
  have hlength := h.length_le
  have hsize := h.size_le
  rw [length_partBytes] at hlength
  have hread : readU32 raw (hdrLen + off) = .ok stride :=
    readU32_eq_ok.mpr ⟨h.stride_lt, (occurs_partBytes_iff.mp h.occurs).1⟩
  unfold initExtInfo
  rw [if_neg (by omega), if_neg (by omega), if_neg (by omega), hread, ok_bind, if_neg (by omega)]
  rfl

/-- A part that starts with no stride is rejected, or absent. -/
theorem startsWith_of_initExtInfo {required : Bool} {info : ExtInfo}
    (h : initExtInfo raw hdrLen off len codec.size label objectPath required = .ok info)
    (hpresent : info.present = true) :
    StartsWith codec raw (hdrLen + off) len info.recSize [] ∧
      info = openInfo (hdrLen + off) len info.recSize := by
  have hreject : ∀ problem : CString, rejectExtInfo required objectPath label problem = .ok info →
      False := by
    intro problem hok
    unfold rejectExtInfo at hok
    split at hok
    · cases hok
    · cases hok
      cases hpresent
  unfold initExtInfo at h
  split at h
  · cases h
    cases hpresent
  next hlen =>
    split at h
    · exact (hreject _ h).elim
    next hinside =>
      split at h
      · exact (hreject _ h).elim
      next hroom =>
        obtain ⟨found, hread, h⟩ := bind_eq_ok.mp h
        split at h
        · exact (hreject _ h).elim
        next hsize =>
          cases h
          obtain ⟨hlt, hoccurs⟩ := readU32_eq_ok.mp hread
          refine ⟨⟨by omega, by dsimp only; omega, hlt, by simp, ?_, ?_⟩, rfl⟩
          · rw [length_partBytes, List.flatMap_nil, List.length_nil]
            omega
          · rw [occurs_partBytes_iff]
            refine ⟨hoccurs, ?_⟩
            obtain ⟨piece, hnil, hpiece⟩ := @exists_occurs _ raw (hdrLen + off + 4) 0 (by omega)
            rw [List.flatMap_nil, ← List.length_eq_zero_iff.mp hnil]
            exact hpiece

theorem initExtInfo_of_absent {info : ExtInfo}
    (h : ∀ stride, ¬StartsWith codec raw (hdrLen + off) len stride [])
    (hinfo : initExtInfo raw hdrLen off len codec.size label objectPath false = .ok info) :
    info.present = false := by
  by_contra hpresent
  obtain ⟨hstarts, _⟩ := startsWith_of_initExtInfo hinfo (by simpa using hpresent)
  exact h _ hstarts

/-! ## Looking a section up -/

/-- The records that were found are those of the section. -/
def FoundRecords (codec : Codec Fault ρ) (raw : Bytes) (found : Nat × Nat) (part : Section ρ) :
    Prop :=
  found.2 = part.records.length ∧ Occurs raw found.1 (part.records.flatMap (Record.bytes codec))

/-- The loop over sections, from where some of them stand to where no other one does. -/
theorem findExtInfoSectionFrom_eq {info : ExtInfo} {secNameOff : Nat}
    (hsize : codec.size ≤ info.recSize) (hpositive : 0 < codec.size)
    (hstop : info.stop ≤ raw.length) :
    ∀ {pos fuel : Nat}, (∀ part ∈ sections, part.Fits codec info.recSize) →
      Occurs raw pos (sections.flatMap (Section.bytes codec)) →
      pos + (sections.flatMap (Section.bytes codec)).length ≤ info.stop →
      (∀ next : Section ρ, next.Fits codec info.recSize →
        Occurs raw (pos + (sections.flatMap (Section.bytes codec)).length) (next.bytes codec) →
          info.stop <
            pos + (sections.flatMap (Section.bytes codec)).length + (next.bytes codec).length) →
      info.stop - pos < fuel →
      ∃ found, findExtInfoSectionFrom raw info secNameOff fuel pos = .ok found ∧
        Option.Rel (FoundRecords codec raw) found
          (sections.find? (fun part => part.name = secNameOff)) := by
  induction sections with
  | nil =>
      intro pos fuel _ _ _ hlast hfuel
      rw [List.flatMap_nil, List.length_nil, Nat.add_zero] at hlast
      obtain ⟨fuel, rfl⟩ : ∃ less, fuel = less + 1 := ⟨fuel - 1, by omega⟩
      refine ⟨none, ?_, .none⟩
      rw [findExtInfoSectionFrom]
      unfold sectionHeaderSize
      by_cases hend : pos < info.stop
      · rw [if_pos hend]
        by_cases hroom : info.stop - pos < 8
        · rw [if_pos hroom]
        · obtain ⟨name, hname⟩ := @readU32_inside raw pos (by omega)
          obtain ⟨count, hcount⟩ := @readU32_inside raw (pos + 4) (by omega)
          rw [if_neg hroom, hname, ok_bind, hcount, ok_bind]
          obtain ⟨hnameLt, hnameAt⟩ := readU32_eq_ok.mp hname
          obtain ⟨hcountLt, hcountAt⟩ := readU32_eq_ok.mp hcount
          -- a section that fits could be appended
          have hlong : info.stop < pos + 8 + count * info.recSize := by
            by_contra hfits
            obtain ⟨next, rfl, rfl, hnext, hoccurs⟩ := exists_section hsize hnameLt hcountLt hnameAt
              hcountAt (by omega)
            have hbeyond := hlast next hnext hoccurs
            rw [hnext.length_bytes] at hbeyond
            omega
          have hrecSize : 0 < info.recSize := by omega
          have hcountDiv : (info.stop - (pos + 8)) / info.recSize < count := by
            rw [Nat.div_lt_iff_lt_mul hrecSize]
            omega
          dsimp only
          rw [if_pos ⟨by omega, hcountDiv⟩]
      · rw [if_neg hend]
  | cons part sections ih =>
      intro pos fuel hfits hoccurs hend hlast hfuel
      have hpart := hfits part List.mem_cons_self
      have hrest := fun other hother => hfits other (List.mem_cons_of_mem part hother)
      rw [List.flatMap_cons, List.length_append, hpart.length_bytes] at hend hlast
      rw [List.flatMap_cons, occurs_append_iff, hpart.length_bytes] at hoccurs
      obtain ⟨hbytes, hmore⟩ := hoccurs
      obtain ⟨hname, hcount, hrecords⟩ := occurs_section_iff.mp hbytes
      obtain ⟨fuel, rfl⟩ : ∃ less, fuel = less + 1 := ⟨fuel - 1, by omega⟩
      have hnext : pos + 8 + part.records.length * info.recSize =
          pos + (8 + part.records.length * info.recSize) := by omega
      rw [findExtInfoSectionFrom, if_pos (by omega)]
      unfold sectionHeaderSize
      have hrecSize : 0 < info.recSize := by omega
      have hcountDiv : part.records.length ≤ (info.stop - (pos + 8)) / info.recSize := by
        rw [Nat.le_div_iff_mul_le hrecSize]
        omega
      rw [if_neg (by omega), readU32_eq_ok.mpr ⟨hpart.name_lt, hname⟩, ok_bind,
        readU32_eq_ok.mpr ⟨hpart.count_lt, hcount⟩, ok_bind]
      dsimp only
      rw [if_neg (by omega)]
      by_cases hsame : part.name = secNameOff
      · rw [if_pos hsame, List.find?_cons_of_pos (by simpa using hsame)]
        exact ⟨_, rfl, .some ⟨rfl, hrecords⟩⟩
      · rw [if_neg hsame, List.find?_cons_of_neg (by simpa using hsame), hnext]
        refine ih hrest hmore (by omega) ?_ (by omega)
        intro next hnextFits hnextOccurs
        have hbeyond := hlast next hnextFits (by rw [← Nat.add_assoc]; exact hnextOccurs)
        omega

/-- A part that can be read as some sections: the lookup is one in their list. -/
theorem findExtInfoSection_eq {info : ExtInfo} {secNameOff : Nat} (hpositive : 0 < codec.size)
    (h : Opens codec raw (hdrLen + off) len sections)
    (hinfo : initExtInfo raw hdrLen off len codec.size label objectPath false = .ok info) :
    ∃ found, findExtInfoSection raw info secNameOff = .ok found ∧
      Option.Rel (FoundRecords codec raw) found
        (sections.find? (fun part => part.name = secNameOff)) ∧
      ∀ part ∈ sections, part.Fits codec info.recSize := by
  cases h with
  | absent hnone =>
      rw [findExtInfoSection, if_pos (initExtInfo_of_absent hnone hinfo)]
      exact ⟨none, rfl, .none, by simp⟩
  | @present stride _ hstarts hlast =>
      rw [initExtInfo_of_startsWith hstarts] at hinfo
      cases hinfo
      have hlength := hstarts.length_le
      rw [length_partBytes] at hlength
      obtain ⟨found, hfound, hrel⟩ := @findExtInfoSectionFrom_eq ρ codec raw sections
        (openInfo (hdrLen + off) len stride) secNameOff hstarts.size_le hpositive hstarts.inside
        (hdrLen + off + 4) (hdrLen + off + len - (hdrLen + off + 4) + 1) hstarts.fits
        (occurs_partBytes_iff.mp hstarts.occurs).2 (by simp only [openInfo]; omega)
        (by
          intro next hnext hoccurs
          by_contra hfits
          refine hlast next (hstarts.concat hnext ?_ ?_)
          · rw [length_partBytes, ← Nat.add_assoc]
            exact hoccurs
          · rw [length_partBytes]
            simp only [openInfo] at hfits
            omega)
        (by simp only [openInfo]; omega)
      exact ⟨found, hfound, hrel, hstarts.fits⟩

end

/-! ## The record closest to an instruction -/

theorem latest_concat {ρ : Type} (insnOffOf : ρ → Nat) (insnOff : Nat) (records : List ρ)
    (current : ρ) :
    latest insnOffOf insnOff (records ++ [current]) =
      if insnOff < insnOffOf current then latest insnOffOf insnOff records
      else
        match latest insnOffOf insnOff records with
        | none => some current
        | some found => if insnOffOf found ≤ insnOffOf current then some current else some found := by
  unfold latest
  rw [List.filter_append, List.reverse_append]
  by_cases hlater : insnOff < insnOffOf current
  · rw [if_pos hlater, List.filter_cons_of_neg (by simpa using hlater)]
    simp
  · rw [if_neg hlater, List.filter_cons_of_pos (by simpa using hlater), List.filter_nil,
      List.reverse_singleton, List.singleton_append, List.argmax_cons]
    cases (records.filter (fun record => insnOffOf record ≤ insnOff)).reverse.argmax insnOffOf with
    | none => rfl
    | some found =>
        by_cases hcloser : insnOffOf current < insnOffOf found
        · simp only [if_pos hcloser, if_neg (Nat.not_le.mpr hcloser)]
        · simp only [if_neg hcloser, if_pos (Nat.not_lt.mp hcloser)]

/-- The scan finds the last of the closest records. -/
theorem bestRecord_eq {ρ : Type} {read : Nat → Except Fault ρ} {insnOffOf : ρ → Nat}
    {recSize records insnOff : Nat} {values : List ρ}
    (hread : ∀ i value, values[i]? = some value → read (records + i * recSize) = .ok value) :
    bestRecord read insnOffOf recSize records values.length insnOff =
      .ok (latest insnOffOf insnOff values) := by
  unfold bestRecord
  induction values using List.reverseRecOn with
  | nil => rfl
  | append_singleton values current ih =>
      have hvalues := ih fun i value hvalue => hread i value (by
        have hi := (List.getElem?_eq_some_iff.mp hvalue).1
        rw [List.getElem?_append_left hi]
        exact hvalue)
      have hcurrent := hread values.length current (by simp)
      rw [List.length_append, List.length_singleton, List.range_succ, List.foldlM_append, hvalues,
        ok_bind, List.foldlM_cons, hcurrent, ok_bind, latest_concat]
      by_cases hlater : insnOff < insnOffOf current
      · simp only [if_pos hlater]
        rfl
      · simp only [if_neg hlater]
        cases latest insnOffOf insnOff values with
        | none => rfl
        | some found =>
            by_cases hcloser : insnOffOf found ≤ insnOffOf current
            · simp only [if_pos hcloser]
              rfl
            · simp only [if_neg hcloser]
              rfl

/-! ## What is said of a relocation -/

section

variable {ρ : Type} {codec : Codec Fault ρ} {raw : Bytes} {hdrLen off len : Nat}
  {sections : List (Section ρ)} {label objectPath : CString} {info : ExtInfo}

/-- A section that is found holds the records that are looked through. -/
theorem findExtInfoSection_latest {secNameOff : Nat} (hpositive : 0 < codec.size)
    (h : Opens codec raw (hdrLen + off) len sections)
    (hinfo : initExtInfo raw hdrLen off len codec.size label objectPath false = .ok info)
    (insnOffOf : ρ → Nat) (insnOff : Nat) :
    (∃ records numInfo, findExtInfoSection raw info secNameOff = .ok (some (records, numInfo)) ∧
      bestRecord (codec.read raw) insnOffOf info.recSize records numInfo insnOff =
        .ok (latestIn insnOffOf sections secNameOff insnOff)) ∨
    findExtInfoSection raw info secNameOff = .ok none ∧
      latestIn insnOffOf sections secNameOff insnOff = none := by
  obtain ⟨found, hfound, hrel, hfits⟩ :=
    @findExtInfoSection_eq ρ codec raw hdrLen off len sections label objectPath info secNameOff
      hpositive h hinfo
  cases hpart : sections.find? (fun part => part.name = secNameOff) with
  | none =>
      rw [hpart] at hrel
      cases hrel
      refine Or.inr ⟨hfound, ?_⟩
      rw [latestIn, hpart, Option.bind_none]
  | some part =>
      rw [hpart] at hrel
      cases hrel with
      | @some found _ hrecords =>
          obtain ⟨hcount, hoccurs⟩ := hrecords
          refine Or.inl ⟨found.1, found.2, hfound, ?_⟩
          rw [latestIn, hpart, Option.bind_some, hcount, ← List.length_map Record.value]
          apply bestRecord_eq
          intro i value hvalue
          rw [List.getElem?_map] at hvalue
          obtain ⟨record, hrecord, rfl⟩ := Option.map_eq_some_iff.mp hvalue
          have hpartFits := hfits part (List.mem_of_find?_eq_some hpart)
          exact occurs_record hpartFits.records hoccurs hrecord

end

section

variable {raw : Bytes} {header : ExtHeader} {objectPath : CString} {parts : CoreReloParts}
  {doc : ExtDocument}

/-- The two parts that say where a relocation is. -/
structure CoreReloParts.Places (parts : CoreReloParts) (doc : ExtDocument) : Prop where
  functionName : ∀ objectBtf secNameOff insnOff,
    findFunctionName parts.raw objectBtf parts.funcInfo secNameOff insnOff =
      .ok (doc.functionName objectBtf secNameOff insnOff)
  line : ∀ objectBtf secNameOff insnOff,
    findLineLocation parts.raw objectBtf parts.lineInfo secNameOff insnOff =
      .ok (doc.line objectBtf secNameOff insnOff)

theorem CoreReloParts.places (hparts : coreReloParts raw header objectPath = .ok parts)
    (hfunctions : Opens funcInfoCodec raw (header.hdrLen + header.funcInfoOff) header.funcInfoLen
      doc.functions)
    (hlines : Opens lineInfoCodec raw (header.hdrLen + header.lineInfoOff) header.lineInfoLen
      doc.lines) : parts.Places doc := by
  obtain ⟨coreInfo, hcore, hparts⟩ := bind_eq_ok.mp hparts
  obtain ⟨funcInfo, hfunc, hparts⟩ := bind_eq_ok.mp hparts
  obtain ⟨lineInfo, hline, hparts⟩ := bind_eq_ok.mp hparts
  cases hparts
  constructor
  · intro objectBtf secNameOff insnOff
    unfold findFunctionName ExtDocument.functionName
    have hfound := @findExtInfoSection_latest BpfFuncInfo funcInfoCodec raw header.hdrLen
      header.funcInfoOff header.funcInfoLen doc.functions _ objectPath funcInfo secNameOff (by decide)
      hfunctions hfunc BpfFuncInfo.insnOff insnOff
    rcases hfound with ⟨records, numInfo, hfound, hbest⟩ | ⟨hfound, hnone⟩
    · change bestRecord (readFuncInfo raw) _ _ _ _ _ = _ at hbest
      simp only [hfound, ok_bind, hbest]
      cases latestIn BpfFuncInfo.insnOff doc.functions secNameOff insnOff with
      | none => rfl
      | some best =>
          simp only [Option.bind_some, BpfFuncInfo.functionName]
          cases btfTypeById objectBtf best.typeId with
          | none => rfl
          | some type => exact (apply_ite Except.ok _ _ _).symm
    · simp only [hfound, ok_bind, hnone, Option.bind_none]
  · intro objectBtf secNameOff insnOff
    unfold findLineLocation ExtDocument.line
    have hfound := @findExtInfoSection_latest BpfLineInfo lineInfoCodec raw header.hdrLen
      header.lineInfoOff header.lineInfoLen doc.lines _ objectPath lineInfo secNameOff (by decide)
      hlines hline BpfLineInfo.insnOff insnOff
    rcases hfound with ⟨records, numInfo, hfound, hbest⟩ | ⟨hfound, hnone⟩
    · change bestRecord (readLineInfo raw) _ _ _ _ _ = _ at hbest
      simp only [hfound, ok_bind, hbest]
      cases latestIn BpfLineInfo.insnOff doc.lines secNameOff insnOff with
      | none => rfl
      | some best =>
          simp only [Option.elim_some, BpfLineInfo.location]
          cases btfStrByOffset objectBtf best.fileNameOff with
          | none => rfl
          | some name =>
              cases name with
              | nil => rfl
              | cons c name => rfl
    · simp only [hfound, ok_bind, hnone, Option.elim_none]

variable {objectBtf : Btf} (hplaces : parts.Places doc)

include hplaces

theorem formatCoreReloLocation_eq (placed : PlacedRelo) :
    formatCoreReloLocation parts.raw objectBtf parts.funcInfo parts.lineInfo placed.secNameOff
      placed.relo = .ok (doc.location objectBtf placed) := by
  unfold formatCoreReloLocation ExtDocument.location
  simp only [hplaces.line, hplaces.functionName, ok_bind]
  unfold locationText
  cases (doc.line objectBtf placed.secNameOff placed.relo.insnOff).place with
  | none => rfl
  | some place => rfl

theorem setCoreReloContext_eq (placed : PlacedRelo) (reloIndex : Nat) (err : MchError) :
    setCoreReloContext parts.raw objectBtf parts.funcInfo parts.lineInfo placed.secNameOff
      placed.relo reloIndex placed.index err = .ok (doc.context objectBtf placed reloIndex err) := by
  unfold setCoreReloContext ExtDocument.context reloContext
  simp only [hplaces.line, hplaces.functionName, ok_bind]
  exact (apply_ite Except.ok _ _ _).symm

theorem withReloContext_eq {α : Type} (placed : PlacedRelo) (reloIndex : Nat) (x : Except Fault α) :
    withReloContext parts objectBtf placed.secNameOff placed.relo reloIndex placed.index x =
      onError (doc.context objectBtf placed reloIndex) x := by
  cases x with
  | ok a => rfl
  | error fault =>
      cases fault with
      | error err =>
          simp only [withReloContext, setCoreReloContext_eq hplaces, ok_bind]
          rfl
      | outOfFuel => rfl
      | outOfBounds => rfl

theorem extractCoreRelo_eq (baseIndex : BtfIndex) (placed : PlacedRelo)
    (state : SeedState × SeedStats) :
    extractCoreRelo baseIndex objectBtf objectPath parts placed.secNameOff placed.index placed.relo
      state.1 state.2 = doc.extractRelo baseIndex objectBtf objectPath state placed := by
  unfold extractCoreRelo ExtDocument.extractRelo
  simp only [formatCoreReloLocation_eq hplaces, withReloContext_eq hplaces, ok_bind]

end

end MinCorehdr
