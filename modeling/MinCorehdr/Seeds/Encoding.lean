import Mathlib.Data.List.Forall2
import MinCorehdr.Seeds.Document

/-!
# Bytes and documents

The sections that tile a relocation part are those of a document, and a document can be
written: the extraction over the bytes is the one over the document.
-/

namespace MinCorehdr

open Support.Packed Support.Result

/-! ## Sections and tiles -/

section

variable {raw : Bytes} {recSize pos stop : Nat}

theorem exists_sections_of_tiles {parts : List ReloSection} (hsize : coreReloSize ≤ recSize)
    (hstop : stop ≤ raw.length) (h : Tiles raw recSize stop pos parts) :
    ∃ sections : List (Section CoreRelo), (∀ part ∈ sections, part.Fits coreReloCodec recSize) ∧
      Occurs raw pos (sections.flatMap (Section.bytes coreReloCodec)) ∧
        pos + (sections.flatMap (Section.bytes coreReloCodec)).length = stop := by
  induction h with
  | done =>
      obtain ⟨piece, hnil, hpiece⟩ := @exists_occurs _ raw stop 0 hstop
      rw [List.length_eq_zero_iff.mp hnil] at hpiece
      exact ⟨[], by simp, hpiece, rfl⟩
  | @cons pos secNameOff numInfo rest hname hnum hfit _ ih =>
      unfold sectionHeaderSize at hfit ih
      obtain ⟨hnameLt, hnameAt⟩ := readU32_eq_ok.mp hname
      obtain ⟨hnumLt, hnumAt⟩ := readU32_eq_ok.mp hnum
      obtain ⟨part, rfl, rfl, hpart, hoccurs⟩ := @exists_section _ _ coreReloCodec raw pos recSize
        hsize secNameOff numInfo hnameLt hnumLt hnameAt hnumAt (by omega)
      obtain ⟨sections, hfits, hrest, hend⟩ := ih
      have hlength := hpart.length_bytes
      have hnext : pos + 8 + part.records.length * recSize = pos + (part.bytes coreReloCodec).length := by
        rw [hlength]
        omega
      rw [hnext] at hrest hend
      refine ⟨part :: sections, ?_, ?_, ?_⟩
      · intro other hother
        rcases List.mem_cons.mp hother with rfl | hother
        · exact hpart
        · exact hfits other hother
      · rw [List.flatMap_cons, occurs_append_iff]
        exact ⟨hoccurs, hrest⟩
      · rw [List.flatMap_cons, List.length_append, ← Nat.add_assoc]
        exact hend

/-- The visits read the relocations of the document. -/
def ReadsPlaced (raw : Bytes) (visit : ReloVisit) (placed : PlacedRelo) : Prop :=
  visit.secNameOff = placed.secNameOff ∧ visit.index = placed.index ∧
    readCoreRelo raw visit.pos = .ok placed.relo

theorem visits_readsPlaced {part : Section CoreRelo} (hpart : part.Fits coreReloCodec recSize)
    (h : Occurs raw pos (part.records.flatMap (Record.bytes coreReloCodec))) :
    List.Forall₂ (ReadsPlaced raw)
      (ReloSection.visits recSize
        { secNameOff := part.name, records := pos, numInfo := part.records.length })
      (placedRelos part) := by
  rw [List.forall₂_iff_get]
  constructor
  · simp [ReloSection.visits, placedRelos]
  · intro i hi _
    have hlt : i < part.records.length := by simpa [ReloSection.visits] using hi
    have hread : readCoreRelo raw (pos + i * recSize) = .ok part.records[i].value :=
      occurs_record hpart.records h (List.getElem?_eq_getElem hlt)
    simpa [ReloSection.visits, placedRelos, ReadsPlaced] using hread

theorem exists_tiles_of_sections {sections : List (Section CoreRelo)} :
    ∀ {pos : Nat}, (∀ part ∈ sections, part.Fits coreReloCodec recSize) →
      Occurs raw pos (sections.flatMap (Section.bytes coreReloCodec)) →
      pos + (sections.flatMap (Section.bytes coreReloCodec)).length = stop →
      ∃ parts, Tiles raw recSize stop pos parts ∧
        List.Forall₂ (ReadsPlaced raw) (parts.flatMap (ReloSection.visits recSize))
          (sections.flatMap placedRelos) := by
  induction sections with
  | nil =>
      rintro pos _ _ rfl
      exact ⟨[], .done, .nil⟩
  | cons part sections ih =>
      intro pos hfits hoccurs hend
      have hpart := hfits part List.mem_cons_self
      rw [List.flatMap_cons, List.length_append, hpart.length_bytes] at hend
      rw [List.flatMap_cons, occurs_append_iff, hpart.length_bytes] at hoccurs
      obtain ⟨hname, hcount, hrecords⟩ := occurs_section_iff.mp hoccurs.1
      have hnext : pos + (8 + part.records.length * recSize) =
          pos + sectionHeaderSize + part.records.length * recSize := by
        unfold sectionHeaderSize
        omega
      obtain ⟨parts, htiles, hreads⟩ := @ih _
        (fun other hother => hfits other (List.mem_cons_of_mem _ hother)) hoccurs.2 (by omega)
      rw [hnext] at htiles
      have hfit : pos + sectionHeaderSize + part.records.length * recSize ≤ stop := by
        unfold sectionHeaderSize
        omega
      refine ⟨_, .cons (readU32_eq_ok.mpr ⟨hpart.name_lt, hname⟩)
        (readU32_eq_ok.mpr ⟨hpart.count_lt, hcount⟩) hfit htiles, ?_⟩
      rw [List.flatMap_cons, List.flatMap_cons]
      exact List.rel_append (visits_readsPlaced hpart hrecords) hreads

end

section

variable {baseIndex : BtfIndex} {objectBtf : Btf} {objectPath : CString} {parts : CoreReloParts}
  {doc : ExtDocument}

/-- The fold over the visits is the one over the document. -/
theorem foldlM_visitRelo_eq (hplaces : parts.Places doc) {visits : List ReloVisit}
    {placed : List PlacedRelo} (h : List.Forall₂ (ReadsPlaced parts.raw) visits placed) :
    ∀ state, visits.foldlM (visitRelo baseIndex objectBtf objectPath parts) state =
      placed.foldlM (doc.extractRelo baseIndex objectBtf objectPath) state := by
  induction h with
  | nil => exact fun state => rfl
  | @cons visit relo visits placed hhead _ ih =>
      intro state
      obtain ⟨hname, hindex, hread⟩ := hhead
      have hvisit : visitRelo baseIndex objectBtf objectPath parts state visit =
          doc.extractRelo baseIndex objectBtf objectPath state relo := by
        rw [visitRelo, hread, ok_bind, hname, hindex, extractCoreRelo_eq hplaces]
      rw [List.foldlM_cons, List.foldlM_cons, hvisit]
      exact bind_congr ih

end

section

variable {baseIndex : BtfIndex} {objectBtf : Btf} {objectPath : CString} {ext : BtfExt}
  {doc : ExtDocument} {state : SeedState} {stats : SeedStats}

theorem extract_of_no_relocations {header : ExtHeader} (hheader : ext.HasHeader header)
    (hlen : header.coreReloLen = 0) :
    mchExtractCoreReloSeedsWithRequirements baseIndex objectBtf (some ext) objectPath state stats =
      .ok (state, stats) := by
  have hendian : ¬ext.endianness ≠ .little := fun hne => hne hheader.endianness
  have hsize : ¬ext.raw.length < extHeaderSize := Nat.not_lt.mpr hheader.size
  have hmagic : ¬(byteAt ext.raw 0 + byteAt ext.raw 1 * 2 ^ 8 ≠ btfMagic ∨
      byteAt ext.raw 2 ≠ btfVersion) := by
    rw [hheader.magic, hheader.version]
    simp
  have hrange : ¬(header.hdrLen < extHeaderSize ∨ ext.raw.length < header.hdrLen) := by
    have hlow := hheader.extHeaderSize_le
    have hhigh := hheader.hdrLen_le
    omega
  unfold mchExtractCoreReloSeedsWithRequirements
  simp only [if_neg hendian, if_neg hsize, if_neg hmagic, if_neg hrange, if_pos hlen,
    hheader.hdrLen, hheader.funcInfoOff, hheader.funcInfoLen, hheader.lineInfoOff,
    hheader.lineInfoLen, hheader.coreReloOff, hheader.coreReloLen, ok_bind]

/-- The bytes are extracted as their document is. -/
theorem mchExtractCoreReloSeedsWithRequirements_of_holds (h : ext.Holds doc) :
    mchExtractCoreReloSeedsWithRequirements baseIndex objectBtf (some ext) objectPath state stats =
      doc.extract baseIndex objectBtf objectPath (state, stats) := by
  cases h with
  | noRelocations hheader hlen hrelos =>
      rw [extract_of_no_relocations hheader hlen, ExtDocument.extract, ExtDocument.placed, hrelos]
      rfl
  | @relocations header stride hheader hrelos hfunctions hlines =>
      obtain ⟨hstarts, hfills⟩ := hrelos
      obtain ⟨hstride, hsections⟩ := occurs_partBytes_iff.mp hstarts.occurs
      rw [length_partBytes] at hfills
      obtain ⟨sections, htiles, hreads⟩ := @exists_tiles_of_sections ext.raw stride
        (header.hdrLen + header.coreReloOff + header.coreReloLen) doc.relos
        (header.hdrLen + header.coreReloOff + 4) hstarts.fits hsections (by omega)
      have hpart : ReloPartTiles ext.raw header stride sections :=
        ⟨hstarts.inside, by omega, readU32_eq_ok.mpr ⟨hstarts.stride_lt, hstride⟩, hstarts.size_le,
          htiles⟩
      obtain ⟨parts, hparts, hrun, _⟩ := @mchExtractCoreReloSeedsWithRequirements_of_tiles baseIndex
        objectBtf objectPath ext header state stats hheader (by omega) stride sections hpart
      obtain ⟨hraw, _⟩ := coreReloParts_eq_ok hparts
      rw [← hraw] at hreads
      rw [hrun, foldlM_visitRelo_eq (CoreReloParts.places hparts hfunctions hlines) hreads]
      rfl

/-- What is extracted starts with a header. -/
theorem exists_header {final : SeedState × SeedStats}
    (h : mchExtractCoreReloSeedsWithRequirements baseIndex objectBtf (some ext) objectPath state
      stats = .ok final) : ∃ header, ext.HasHeader header := by
  unfold mchExtractCoreReloSeedsWithRequirements at h
  dsimp only at h
  split at h
  · rw [onError_eq_ok] at h
    cases h
  next hendian =>
    split at h
    · rw [onError_eq_ok] at h
      cases h
    next hsize =>
      split at h
      · rw [onError_eq_ok] at h
        cases h
      next hmagic =>
        obtain ⟨hdrLen, hhdrLen, h⟩ := bind_eq_ok.mp h
        obtain ⟨funcInfoOff, hfuncInfoOff, h⟩ := bind_eq_ok.mp h
        obtain ⟨funcInfoLen, hfuncInfoLen, h⟩ := bind_eq_ok.mp h
        obtain ⟨lineInfoOff, hlineInfoOff, h⟩ := bind_eq_ok.mp h
        obtain ⟨lineInfoLen, hlineInfoLen, h⟩ := bind_eq_ok.mp h
        obtain ⟨coreReloOff, hcoreReloOff, h⟩ := bind_eq_ok.mp h
        obtain ⟨coreReloLen, hcoreReloLen, h⟩ := bind_eq_ok.mp h
        split at h
        · rw [onError_eq_ok] at h
          cases h
        next hrange =>
          simp only [not_or, ne_eq, not_not] at hendian hmagic
          refine ⟨⟨hdrLen, funcInfoOff, funcInfoLen, lineInfoOff, lineInfoLen, coreReloOff,
            coreReloLen⟩, hendian, by omega, hmagic.1, hmagic.2, hhdrLen, hfuncInfoOff, hfuncInfoLen,
            hlineInfoOff, hlineInfoLen, hcoreReloOff, hcoreReloLen, ?_, ?_⟩
          · dsimp only
            omega
          · dsimp only
            omega

/-- What is extracted stands for a document. -/
theorem exists_holds {final : SeedState × SeedStats}
    (h : mchExtractCoreReloSeedsWithRequirements baseIndex objectBtf (some ext) objectPath state
      stats = .ok final) : ∃ doc, ext.Holds doc := by
  obtain ⟨header, hheader⟩ := exists_header h
  by_cases hlen : header.coreReloLen = 0
  · exact ⟨{ functions := [], lines := [], relos := [] }, .noRelocations hheader hlen rfl⟩
  · obtain ⟨recSize, sections, hpart⟩ : ∃ recSize sections,
        ReloPartTiles ext.raw header recSize sections := by
      by_contra hnot
      obtain ⟨fault, hfault, _⟩ := @mchExtractCoreReloSeedsWithRequirements_of_not_tiles baseIndex
        objectBtf objectPath ext header state stats hheader hlen
        fun recSize sections hpart => hnot ⟨recSize, sections, hpart⟩
      cases h.symm.trans hfault
    have hinside := hpart.inside
    have hroom := hpart.room
    obtain ⟨hstride, hstrideAt⟩ := readU32_eq_ok.mp hpart.recSize_eq
    obtain ⟨relos, hfits, hoccurs, hend⟩ :=
      exists_sections_of_tiles hpart.coreReloSize_le hinside hpart.tiles
    obtain ⟨functions, hfunctions⟩ := exists_opens funcInfoCodec ext.raw
      (header.hdrLen + header.funcInfoOff) header.funcInfoLen
    obtain ⟨lines, hlines⟩ := exists_opens lineInfoCodec ext.raw
      (header.hdrLen + header.lineInfoOff) header.lineInfoLen
    have hlength : (partBytes coreReloCodec recSize relos).length = header.coreReloLen := by
      rw [length_partBytes]
      omega
    exact ⟨{ functions, lines, relos }, .relocations hheader
      ⟨⟨hinside, hpart.coreReloSize_le, hstride, hfits, hlength.le,
        occurs_partBytes_iff.mpr ⟨hstrideAt, hoccurs⟩⟩, hlength⟩ hfunctions hlines⟩

end

/-! ## Writing a document -/

/-- The sizes of the three kinds of records. -/
structure ExtStrides where
  functions : Nat
  lines : Nat
  relos : Nat

/-- A header of 32 bytes in front of parts of these lengths. -/
def extHeaderBytes (functions lines relos : Nat) : Bytes :=
  [0x9f, 0xeb, 1, 0] ++ (word extHeaderSize ++ (word 0 ++ (word functions ++ (word functions ++
    (word lines ++ (word (functions + lines) ++ word relos))))))

def ExtDocument.encode (doc : ExtDocument) (strides : ExtStrides) : BtfExt where
  endianness := .little
  raw :=
    extHeaderBytes (partBytes funcInfoCodec strides.functions doc.functions).length
        (partBytes lineInfoCodec strides.lines doc.lines).length
        (partBytes coreReloCodec strides.relos doc.relos).length ++
      (partBytes funcInfoCodec strides.functions doc.functions ++
        (partBytes lineInfoCodec strides.lines doc.lines ++
          partBytes coreReloCodec strides.relos doc.relos))

/-- Everything fits: the records their strides, the section 32-bit offsets. -/
structure ExtDocument.Encodable (doc : ExtDocument) (strides : ExtStrides) : Prop where
  functions : ∀ part ∈ doc.functions, part.Fits funcInfoCodec strides.functions
  lines : ∀ part ∈ doc.lines, part.Fits lineInfoCodec strides.lines
  relos : ∀ part ∈ doc.relos, part.Fits coreReloCodec strides.relos
  functionStride : funcInfoSize ≤ strides.functions ∧ strides.functions < 2 ^ 32
  lineStride : lineInfoSize ≤ strides.lines ∧ strides.lines < 2 ^ 32
  reloStride : coreReloSize ≤ strides.relos ∧ strides.relos < 2 ^ 32
  length_lt : (doc.encode strides).raw.length < 2 ^ 32

theorem length_extHeaderBytes (functions lines relos : Nat) :
    (extHeaderBytes functions lines relos).length = extHeaderSize := rfl

/-- The header that these bytes are. -/
theorem hasHeader_of_occurs {ext : BtfExt} {functions lines relos : Nat}
    (hendian : ext.endianness = .little) (h : Occurs ext.raw 0 (extHeaderBytes functions lines relos))
    (hlt : functions + lines + relos < 2 ^ 32) :
    ext.HasHeader
      { hdrLen := extHeaderSize
        funcInfoOff := 0, funcInfoLen := functions
        lineInfoOff := functions, lineInfoLen := lines
        coreReloOff := functions + lines, coreReloLen := relos } := by
  have hlength := h.le_length
  have hbyte := fun i (hi : i < 32) => h.getD (i := i) hi 0
  simp only [Nat.zero_add] at hbyte
  have hzero : byteAt ext.raw 0 = 0x9f := congrArg UInt8.toNat (hbyte 0 (by omega))
  have hone : byteAt ext.raw 1 = 0xeb := congrArg UInt8.toNat (hbyte 1 (by omega))
  have htwo : byteAt ext.raw 2 = 1 := congrArg UInt8.toNat (hbyte 2 (by omega))
  have hmagic : byteAt ext.raw 0 + byteAt ext.raw 1 * 2 ^ 8 = btfMagic := by
    rw [hzero, hone]
    decide
  rw [length_extHeaderBytes, Nat.zero_add] at hlength
  unfold extHeaderBytes at h
  simp only [occurs_append_iff, length_word, List.length_cons, List.length_nil, Nat.zero_add,
    Nat.reduceAdd] at h
  obtain ⟨_, hhdrLen, hfuncOff, hfuncLen, hlineOff, hlineLen, hreloOff, hreloLen⟩ := h
  have hread : ∀ pos n, n < 2 ^ 32 → Occurs ext.raw pos (word n) → readU32 ext.raw pos = .ok n :=
    fun _ _ hn hoccurs => readU32_eq_ok.mpr ⟨hn, hoccurs⟩
  exact {
    endianness := hendian
    size := hlength
    magic := hmagic
    version := htwo
    hdrLen := hread 4 extHeaderSize (by decide) hhdrLen
    funcInfoOff := hread 8 0 (by decide) hfuncOff
    funcInfoLen := hread 12 functions (by omega) hfuncLen
    lineInfoOff := hread 16 functions (by omega) hlineOff
    lineInfoLen := hread 20 lines (by omega) hlineLen
    coreReloOff := hread 24 (functions + lines) (by omega) hreloOff
    coreReloLen := hread 28 relos (by omega) hreloLen
    extHeaderSize_le := Nat.le_refl _
    hdrLen_le := hlength }

/-- The bytes that are written stand for the document. -/
theorem ExtDocument.Encodable.holds {doc : ExtDocument} {strides : ExtStrides}
    (h : doc.Encodable strides) : (doc.encode strides).Holds doc := by
  have hlength : (doc.encode strides).raw.length = extHeaderSize +
      ((partBytes funcInfoCodec strides.functions doc.functions).length +
        ((partBytes lineInfoCodec strides.lines doc.lines).length +
          (partBytes coreReloCodec strides.relos doc.relos).length)) := by
    simp only [ExtDocument.encode, List.length_append, length_extHeaderBytes]
  have hlt := h.length_lt
  have hself : Occurs (doc.encode strides).raw 0 (doc.encode strides).raw := occurs_self
  obtain ⟨hheader, hself⟩ := occurs_append_iff.mp hself
  obtain ⟨hfunctions, hself⟩ := occurs_append_iff.mp hself
  obtain ⟨hlines, hrelos⟩ := occurs_append_iff.mp hself
  rw [length_extHeaderBytes, Nat.zero_add] at hfunctions hlines hrelos
  have hfilled : ∀ {ρ : Type} {codec : Codec Fault ρ} {start stride : Nat} {sections : List (Section ρ)},
      codec.size ≤ stride ∧ stride < 2 ^ 32 → (∀ part ∈ sections, part.Fits codec stride) →
      Occurs (doc.encode strides).raw start (partBytes codec stride sections) →
      Fills codec (doc.encode strides).raw start (partBytes codec stride sections).length stride
        sections := by
    intro ρ codec start stride sections hstride hfits hoccurs
    exact ⟨⟨hoccurs.le_length, hstride.1, hstride.2, hfits, Nat.le_refl _, hoccurs⟩, rfl⟩
  rw [Nat.add_assoc] at hrelos
  have hreloPart : Fills coreReloCodec _ _ _ strides.relos doc.relos :=
    hfilled h.reloStride h.relos hrelos
  exact .relocations (hasHeader_of_occurs rfl hheader (by omega)) hreloPart
    (hfilled h.functionStride h.functions hfunctions).opens
    (hfilled h.lineStride h.lines hlines).opens

/-- The extraction is one over documents: bytes that stand for a document are extracted as it
is, what is extracted stands for one, and every document can be written. -/
theorem mchExtractCoreReloSeedsWithRequirements_document (baseIndex : BtfIndex) (objectBtf : Btf)
    (objectPath : CString) (state : SeedState) (stats : SeedStats) :
    (∀ ext doc, BtfExt.Holds ext doc →
      mchExtractCoreReloSeedsWithRequirements baseIndex objectBtf (some ext) objectPath state stats =
        doc.extract baseIndex objectBtf objectPath (state, stats)) ∧
    (∀ ext final, mchExtractCoreReloSeedsWithRequirements baseIndex objectBtf (some ext) objectPath
      state stats = .ok final → ∃ doc, ext.Holds doc) ∧
    ∀ doc strides, ExtDocument.Encodable doc strides →
      (doc.encode strides).Holds doc ∧
        mchExtractCoreReloSeedsWithRequirements baseIndex objectBtf (some (doc.encode strides))
          objectPath state stats = doc.extract baseIndex objectBtf objectPath (state, stats) :=
  ⟨fun _ _ hholds => mchExtractCoreReloSeedsWithRequirements_of_holds hholds,
    fun _ _ hfinal => exists_holds hfinal,
    fun _ _ hencodable => ⟨hencodable.holds,
      mchExtractCoreReloSeedsWithRequirements_of_holds hencodable.holds⟩⟩

/-- `struct S`, in a file `f`. -/
def namedStruct : Btf where
  types := [{ nameOff := 1, kind := .struct }]
  strs := "\x00S\x00f\x00".toList

/-- Whether `struct S` exists is asked at instruction 8, between lines 1 and 2 of `f`. -/
def askedAtLine : ExtDocument where
  functions := []
  lines := [{ name := 0, records := [
    { value := { insnOff := 0, fileNameOff := 3, lineOff := 0, lineCol := 1 <<< 10 }, rest := [] },
    { value := { insnOff := 16, fileNameOff := 3, lineOff := 0, lineCol := 2 <<< 10 }, rest := [] }] }]
  relos := [{ name := 0, records := [
    { value := { insnOff := 8, typeId := 1, accessStrOff := 0, kind := 8 }, rest := [] }] }]

def askedAtLineStrides : ExtStrides := { functions := 8, lines := 16, relos := 16 }

example : askedAtLine.location namedStruct ⟨0, 0, ⟨8, 1, 0, 8⟩⟩ = "f:1".toList := by decide

theorem askedAtLine_encodable : askedAtLine.Encodable askedAtLineStrides where
  functions := by simp [askedAtLine]
  lines := by
    intro part hpart
    obtain rfl := List.mem_singleton.mp hpart
    refine ⟨by decide, by decide, fun record hrecord => ?_⟩
    have hword : 0 < 2 ^ 32 ∧ 16 < 2 ^ 32 ∧ 3 < 2 ^ 32 ∧ 1 <<< 10 < 2 ^ 32 ∧ 2 <<< 10 < 2 ^ 32 := by
      decide
    obtain ⟨hzero, hinsn, hname, hfirst, hsecond⟩ := hword
    rcases List.mem_pair.mp hrecord with rfl | rfl
    · exact ⟨⟨hzero, hname, hzero, hfirst⟩, rfl⟩
    · exact ⟨⟨hinsn, hname, hzero, hsecond⟩, rfl⟩
  relos := by
    intro part hpart
    obtain rfl := List.mem_singleton.mp hpart
    refine ⟨by decide, by decide, fun record hrecord => ?_⟩
    obtain rfl := List.mem_singleton.mp hrecord
    have hvalid : 8 < 2 ^ 32 ∧ 1 < 2 ^ 32 ∧ 0 < 2 ^ 32 ∧ 8 < 2 ^ 32 := by decide
    exact ⟨hvalid, rfl⟩
  functionStride := by decide
  lineStride := by decide
  reloStride := by decide
  length_lt := by decide

def askedAtLineState : SeedState where
  seeds := mchTypeSetInit 2
  requirements := mchRequirementsInit 2

theorem mchExtractCoreReloSeedsWithRequirements_document_askedAtLine : ∃ index,
    mchBtfIndexInit namedStruct = .ok index ∧
      mchExtractCoreReloSeedsWithRequirements index namedStruct
          (some (askedAtLine.encode askedAtLineStrides)) ['o'] askedAtLineState {} =
        askedAtLine.extract index namedStruct ['o'] (askedAtLineState, {}) := by
  obtain ⟨index, hindex⟩ := exists_ok_of_isSome (x := mchBtfIndexInit namedStruct) (by decide)
  exact ⟨index, hindex, ((mchExtractCoreReloSeedsWithRequirements_document index namedStruct ['o']
    askedAtLineState {}).2.2 _ _ askedAtLine_encodable).2⟩

end MinCorehdr
