import MinCorehdr.Seeds.Access

/-!
# The .BTF.ext section of an object

The section is read as raw bytes; every read goes through `readU32`, which
faults outside them.  The host is little-endian.
-/

namespace MinCorehdr

open Support.Result

abbrev Bytes := List UInt8

inductive Endianness
  | little | big
  deriving DecidableEq, Repr

/-- What libbpf keeps of the section. -/
structure BtfExt where
  endianness : Endianness
  raw : Bytes
  deriving DecidableEq, Repr

def byteAt (raw : Bytes) (pos : Nat) : Nat := (raw.getD pos 0).toNat

def readU32 (raw : Bytes) (pos : Nat) : Except Fault Nat :=
  if pos + 4 ≤ raw.length then
    .ok (byteAt raw pos + byteAt raw (pos + 1) * 2 ^ 8 + byteAt raw (pos + 2) * 2 ^ 16 +
      byteAt raw (pos + 3) * 2 ^ 24)
  else
    .error .outOfBounds

/-- `struct mch_ext_info`; `pos` and `stop` are offsets into the section. -/
structure ExtInfo where
  pos : Nat := 0
  stop : Nat := 0
  recSize : Nat := 0
  present : Bool := false
  deriving DecidableEq, Repr

/-- `sizeof(struct mch_btf_ext_info_sec)`. -/
def sectionHeaderSize : Nat := 8

def coreReloSize : Nat := 16

def funcInfoSize : Nat := 8

def lineInfoSize : Nat := 16

/-- A required part is rejected with a diagnostic, an optional one is absent. -/
def rejectExtInfo (required : Bool) (objectPath label problem : CString) : Except Fault ExtInfo :=
  if required then
    onError (mchErrorSetFile objectPath)
      (fail ("object .BTF.ext ".toList ++ label ++ [' '] ++ problem))
  else
    .ok {}

def initExtInfo (raw : Bytes) (hdrLen off len minRecSize : Nat) (label objectPath : CString)
    (required : Bool) : Except Fault ExtInfo :=
  if len = 0 then .ok {}
  else if raw.length < hdrLen ∨ raw.length - hdrLen < off ∨ raw.length - hdrLen - off < len then
    rejectExtInfo required objectPath label "section is out of bounds".toList
  else if len < 4 then
    rejectExtInfo required objectPath label "section is truncated".toList
  else do
    let recSize ← readU32 raw (hdrLen + off)
    if recSize < minRecSize then
      rejectExtInfo required objectPath label "record size is unsupported".toList
    else
      .ok { pos := hdrLen + off + 4, stop := hdrLen + off + len, recSize, present := true }

/-- The loop over the sections of a part; each takes at least its header. -/
def findExtInfoSectionFrom (raw : Bytes) (info : ExtInfo) (secNameOff : Nat) :
    Nat → Nat → Except Fault (Option (Nat × Nat))
  | 0, _ => .error .outOfFuel
  | fuel + 1, pos =>
      if pos < info.stop then
        if info.stop - pos < sectionHeaderSize then .ok none
        else do
          let nameOff ← readU32 raw pos
          let numInfo ← readU32 raw (pos + 4)
          let pos := pos + sectionHeaderSize
          if info.recSize ≠ 0 ∧ (info.stop - pos) / info.recSize < numInfo then .ok none
          else if nameOff = secNameOff then .ok (some (pos, numInfo))
          else findExtInfoSectionFrom raw info secNameOff fuel (pos + numInfo * info.recSize)
      else
        .ok none

/-- Where the records of the named section start, and how many there are. -/
def findExtInfoSection (raw : Bytes) (info : ExtInfo) (secNameOff : Nat) :
    Except Fault (Option (Nat × Nat)) :=
  if info.present = false then .ok none
  else findExtInfoSectionFrom raw info secNameOff (info.stop - info.pos + 1) info.pos

structure BpfLineInfo where
  insnOff : Nat
  fileNameOff : Nat
  lineOff : Nat
  lineCol : Nat
  deriving DecidableEq, Repr

structure BpfFuncInfo where
  insnOff : Nat
  typeId : Nat
  deriving DecidableEq, Repr

def readLineInfo (raw : Bytes) (pos : Nat) : Except Fault BpfLineInfo := do
  let insnOff ← readU32 raw pos
  let fileNameOff ← readU32 raw (pos + 4)
  let lineOff ← readU32 raw (pos + 8)
  let lineCol ← readU32 raw (pos + 12)
  .ok { insnOff, fileNameOff, lineOff, lineCol }

def readFuncInfo (raw : Bytes) (pos : Nat) : Except Fault BpfFuncInfo := do
  let insnOff ← readU32 raw pos
  let typeId ← readU32 raw (pos + 4)
  .ok { insnOff, typeId }

def readCoreRelo (raw : Bytes) (pos : Nat) : Except Fault CoreRelo := do
  let insnOff ← readU32 raw pos
  let typeId ← readU32 raw (pos + 4)
  let accessStrOff ← readU32 raw (pos + 8)
  let kind ← readU32 raw (pos + 12)
  .ok { insnOff, typeId, accessStrOff, kind }

/-- The scan for the last record at or before an instruction, later ones winning
ties. -/
def bestRecord {ρ : Type} (read : Nat → Except Fault ρ) (insnOffOf : ρ → Nat)
    (recSize records numInfo insnOff : Nat) : Except Fault (Option ρ) :=
  (List.range numInfo).foldlM
    (fun best i => do
      let current ← read (records + i * recSize)
      if insnOff < insnOffOf current then .ok best
      else
        match best with
        | none => .ok (some current)
        | some found =>
            if insnOffOf found ≤ insnOffOf current then .ok (some current) else .ok (some found))
    none

/-- What `find_line_location` wrote: the file name is stored even when it is
empty and the call then answers `false`. -/
structure LineLocation where
  fileName : Option CString := none
  place : Option (Nat × Nat) := none
  deriving DecidableEq, Repr

def findLineLocation (raw : Bytes) (objectBtf : Btf) (lineInfo : ExtInfo)
    (secNameOff insnOff : Nat) : Except Fault LineLocation := do
  match ← findExtInfoSection raw lineInfo secNameOff with
  | none => .ok {}
  | some (records, numInfo) =>
      match ← bestRecord (readLineInfo raw) BpfLineInfo.insnOff lineInfo.recSize records numInfo
          insnOff with
      | none => .ok {}
      | some best =>
          match btfStrByOffset objectBtf best.fileNameOff with
          | none => .ok {}
          | some [] => .ok { fileName := some [] }
          | some name =>
              .ok { fileName := some name, place := some (best.lineCol >>> 10, best.lineCol &&& 0x3ff) }

def findFunctionName (raw : Bytes) (objectBtf : Btf) (funcInfo : ExtInfo)
    (secNameOff insnOff : Nat) : Except Fault (Option CString) := do
  match ← findExtInfoSection raw funcInfo secNameOff with
  | none => .ok none
  | some (records, numInfo) =>
      match ← bestRecord (readFuncInfo raw) BpfFuncInfo.insnOff funcInfo.recSize records numInfo
          insnOff with
      | none => .ok none
      | some best =>
          match btfTypeById objectBtf best.typeId with
          | none => .ok none
          | some type =>
              if type.kind = .func ∧ mchBtfTypeName objectBtf type ≠ [] then
                .ok (some (mchBtfTypeName objectBtf type))
              else
                .ok none

def textOr (fallback : CString) : Option CString → CString
  | some (c :: text) => c :: text
  | _ => fallback

/-- The text both location formatters put into their 160 bytes. -/
def locationText (line : LineLocation) (function : Option CString) (section_ : CString) :
    CString :=
  match line.place with
  | some (number, column) =>
      line.fileName.getD [] ++ [':'] ++ decimal number ++
        (if column = 0 then [] else ':' :: decimal column)
  | none =>
      match function with
      | some name => "function: ".toList ++ name
      | none => "section: ".toList ++ section_

def formatCoreReloLocation (raw : Bytes) (objectBtf : Btf) (funcInfo lineInfo : ExtInfo)
    (secNameOff : Nat) (relo : CoreRelo) : Except Fault CString := do
  let section_ := textOr "<unknown>".toList (btfStrByOffset objectBtf secNameOff)
  let line ← findLineLocation raw objectBtf lineInfo secNameOff relo.insnOff
  match line.place with
  | some _ => .ok (clip 160 (locationText line none section_))
  | none => do
      let function ← findFunctionName raw objectBtf funcInfo secNameOff relo.insnOff
      .ok (clip 160 (locationText line function section_))

/-- Add what is known of the relocation to a diagnostic. -/
def setCoreReloContext (raw : Bytes) (objectBtf : Btf) (funcInfo lineInfo : ExtInfo)
    (secNameOff : Nat) (relo : CoreRelo) (reloIndex sectionReloIndex : Nat) (err : MchError) :
    Except Fault MchError := do
  let section_ := textOr "<unknown>".toList (btfStrByOffset objectBtf secNameOff)
  let access := textOr "<none>".toList (btfStrByOffset objectBtf relo.accessStrOff)
  let function ← findFunctionName raw objectBtf funcInfo secNameOff relo.insnOff
  let line ← findLineLocation raw objectBtf lineInfo secNameOff relo.insnOff
  let functionPart := match function, line.fileName with
    | some name, some _ => "function: ".toList ++ name ++ ", ".toList
    | _, _ => []
  let err := mchErrorSetContext (clip 160 (locationText line function section_) ++ " (".toList ++
    functionPart ++ "section: ".toList ++ section_ ++ ", insn: ".toList ++ decimal relo.insnOff ++
    ", CO-RE ".toList ++ coreReloKindName relo.kind ++ ", access: ".toList ++ access ++
    ", type_id: ".toList ++ decimal relo.typeId ++ ", relo: #".toList ++ decimal reloIndex ++
    ", section relo: #".toList ++ decimal (sectionReloIndex + 1) ++ [')']) err
  if err.hint = [] then
    .ok (mchErrorSetHint "check the CO-RE relocation type id against the object BTF".toList err)
  else
    .ok err

end MinCorehdr
