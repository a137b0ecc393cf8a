import MinCorehdr.Seeds.BtfExt
import MinCorehdr.Seeds.Resolve

/-!
# What one object adds to the seeds and the requirements
-/

namespace MinCorehdr

open Support.Result

structure SeedStats where
  candidates : Nat := 0
  kernelTypes : Nat := 0
  programLocalTypes : Nat := 0
  coreRelocations : Nat := 0
  coreKernelTypes : Nat := 0
  deriving DecidableEq, Repr

def SeedStats.add (left right : SeedStats) : SeedStats where
  candidates := left.candidates + right.candidates
  kernelTypes := left.kernelTypes + right.kernelTypes
  programLocalTypes := left.programLocalTypes + right.programLocalTypes
  coreRelocations := left.coreRelocations + right.coreRelocations
  coreKernelTypes := left.coreKernelTypes + right.coreKernelTypes

/-- `mch_requirements_add_type_root` on the shared store. -/
def requireTypeRoot (state : SeedState) (baseId : Nat) (origin : Option RequirementOrigin) :
    Except Fault SeedState :=
  state.withRequirements
    (mchRequirementsAddTypeRoot allGranted state.requirements baseId origin)

/-- `mch_type_set_add` on the shared seed set. -/
def addSeed (state : SeedState) (baseId : Nat) : SeedState × Bool :=
  let (seeds, fresh) := mchTypeSetAdd state.seeds baseId
  ({ state with seeds }, fresh)

/-! ## Types named by the object's own BTF -/

/-- The body of the loop over the object's types. -/
def seedObjectType (baseIndex : BtfIndex) (objectBtf : Btf) (objectPath : CString)
    (state : SeedState × SeedStats) (typed : BtfType × Nat) : Except Fault (SeedState × SeedStats) :=
  let (seedState, stats) := state
  let (type, id) := typed
  if isSeedableKind type.kind = false then .ok state
  else if mchBtfTypeName objectBtf type = [] ∧ type.kind ≠ .enum ∧ type.kind ≠ .enum64 then
    .ok state
  else do
    match ← resolveObjectTypeToBase baseIndex objectBtf id objectPath "object BTF seed".toList
        true with
    | none =>
        .ok (seedState, { stats with
          candidates := stats.candidates + 1
          programLocalTypes := stats.programLocalTypes + 1 })
    | some baseId => do
        let stats := { stats with candidates := stats.candidates + 1 }
        let seedState ← requireTypeRoot seedState baseId (some
          { source := .objectBtf, objectPath := some objectPath, detail := some "seed".toList })
        let (seedState, fresh) := addSeed seedState baseId
        .ok (seedState,
          if fresh then { stats with kernelTypes := stats.kernelTypes + 1 } else stats)

def mchExtractObjectSeedsWithRequirements (baseIndex : BtfIndex) (objectBtf : Btf)
    (objectPath : CString) (state : SeedState) (stats : SeedStats) :
    Except Fault (SeedState × SeedStats) :=
  (objectBtf.types.zipIdx 1).foldlM (seedObjectType baseIndex objectBtf objectPath) (state, stats)

/-! ## Types and members named by the object's relocations -/

/-- The parts of the section a relocation loop works with. -/
structure CoreReloParts where
  raw : Bytes
  coreInfo : ExtInfo
  funcInfo : ExtInfo
  lineInfo : ExtInfo

/-- A failed call whose diagnostic gets the relocation's context. -/
def withReloContext {α : Type} (parts : CoreReloParts) (objectBtf : Btf) (secNameOff : Nat)
    (relo : CoreRelo) (reloIndex sectionReloIndex : Nat) (x : Except Fault α) : Except Fault α :=
  match x with
  | .error (.error err) => do
      let err ← setCoreReloContext parts.raw objectBtf parts.funcInfo parts.lineInfo secNameOff
        relo reloIndex sectionReloIndex err
      .error (.error err)
  | other => other

/-- One relocation: its root, then the members on its access path. -/
def extractCoreRelo (baseIndex : BtfIndex) (objectBtf : Btf) (objectPath : CString)
    (parts : CoreReloParts) (secNameOff sectionReloIndex : Nat) (relo : CoreRelo)
    (seedState : SeedState) (stats : SeedStats) : Except Fault (SeedState × SeedStats) := do
  let reloIndex := stats.coreRelocations + 1
  let stats := { stats with coreRelocations := stats.coreRelocations + 1 }
  let access := btfStrByOffset objectBtf relo.accessStrOff
  let location ← formatCoreReloLocation parts.raw objectBtf parts.funcInfo parts.lineInfo
    secNameOff relo
  let origin : RequirementOrigin :=
    { source := .coreRelo, objectPath := some objectPath
      detail := some (coreReloKindName relo.kind), access, location := some location }
  let resolved ← withReloContext parts objectBtf secNameOff relo reloIndex sectionReloIndex
    (resolveObjectTypeToBase baseIndex objectBtf relo.typeId objectPath "CO-RE relocation".toList
      false)
  let baseId := resolved.getD 0
  let (seedState, fresh) := addSeed seedState baseId
  let stats := if fresh then { stats with coreKernelTypes := stats.coreKernelTypes + 1 } else stats
  let seedState ← withReloContext parts objectBtf secNameOff relo reloIndex sectionReloIndex
    (requireTypeRoot seedState baseId (some origin))
  let seedState ← withReloContext parts objectBtf secNameOff relo reloIndex sectionReloIndex
    (recordCoreReloRequirements baseIndex.btf objectBtf objectPath relo baseId access (some origin)
      seedState)
  .ok (seedState, stats)

/-- The loop over the records of one section; the first number is how many are
left, the second the index of the next. -/
def extractSectionRelos (baseIndex : BtfIndex) (objectBtf : Btf) (objectPath : CString)
    (parts : CoreReloParts) (secNameOff : Nat) :
    Nat → Nat → Nat → SeedState × SeedStats → Except Fault (Nat × SeedState × SeedStats)
  | 0, _, pos, state => .ok (pos, state)
  | left + 1, i, pos, state =>
      if parts.coreInfo.stop - pos < parts.coreInfo.recSize then
        onError (mchErrorSetFile objectPath)
          (fail "object .BTF.ext CO-RE relocation records are truncated".toList)
      else do
        let relo ← readCoreRelo parts.raw pos
        let state ← extractCoreRelo baseIndex objectBtf objectPath parts secNameOff i relo
          state.1 state.2
        extractSectionRelos baseIndex objectBtf objectPath parts secNameOff left (i + 1)
          (pos + parts.coreInfo.recSize) state

/-- The loop over the sections of the relocation part. -/
def extractReloSections (baseIndex : BtfIndex) (objectBtf : Btf) (objectPath : CString)
    (parts : CoreReloParts) :
    Nat → Nat → SeedState × SeedStats → Except Fault (SeedState × SeedStats)
  | 0, _, _ => .error .outOfFuel
  | fuel + 1, pos, state =>
      if pos < parts.coreInfo.stop then
        if parts.coreInfo.stop - pos < sectionHeaderSize then
          onError (mchErrorSetFile objectPath)
            (fail "object .BTF.ext CO-RE relocation section is truncated".toList)
        else do
          let secNameOff ← readU32 parts.raw pos
          let numInfo ← readU32 parts.raw (pos + 4)
          let (pos, state) ← extractSectionRelos baseIndex objectBtf objectPath parts secNameOff
            numInfo 0 (pos + sectionHeaderSize) state
          extractReloSections baseIndex objectBtf objectPath parts fuel pos state
      else if pos ≠ parts.coreInfo.stop then
        onError (mchErrorSetFile objectPath)
          (fail "object .BTF.ext CO-RE relocation section has trailing bytes".toList)
      else
        .ok state

/-- `BTF_MAGIC`. -/
def btfMagic : Nat := 0xeB9F

/-- `BTF_VERSION`. -/
def btfVersion : Nat := 1

/-- `sizeof(struct mch_btf_ext_header)`. -/
def extHeaderSize : Nat := 32

def mchExtractCoreReloSeedsWithRequirements (baseIndex : BtfIndex) (objectBtf : Btf)
    (objectExt : Option BtfExt) (objectPath : CString) (state : SeedState) (stats : SeedStats) :
    Except Fault (SeedState × SeedStats) :=
  match objectExt with
  | none => .ok (state, stats)
  | some ext =>
      if ext.endianness ≠ .little then
        onError (mchErrorSetHint "v0.1 only parses native-endian .BTF.ext data".toList ∘
          mchErrorSetFile objectPath)
          (fail "object .BTF.ext endianness differs from host endianness".toList)
      else if ext.raw.length < extHeaderSize then
        onError (mchErrorSetFile objectPath)
          (fail "object .BTF.ext is missing or truncated".toList)
      else if byteAt ext.raw 0 + byteAt ext.raw 1 * 2 ^ 8 ≠ btfMagic ∨
          byteAt ext.raw 2 ≠ btfVersion then
        onError (mchErrorSetFile objectPath)
          (fail "object .BTF.ext has unsupported header".toList)
      else do
        let hdrLen ← readU32 ext.raw 4
        let funcInfoOff ← readU32 ext.raw 8
        let funcInfoLen ← readU32 ext.raw 12
        let lineInfoOff ← readU32 ext.raw 16
        let lineInfoLen ← readU32 ext.raw 20
        let coreReloOff ← readU32 ext.raw 24
        let coreReloLen ← readU32 ext.raw 28
        if hdrLen < extHeaderSize ∨ ext.raw.length < hdrLen then
          onError (mchErrorSetHint
              "rebuild the BPF object with a modern clang/libbpf-compatible toolchain".toList ∘
            mchErrorSetFile objectPath)
            (fail "object .BTF.ext has unsupported header length".toList)
        else if coreReloLen = 0 then
          .ok (state, stats)
        else
          let coreInfo ← initExtInfo ext.raw hdrLen coreReloOff coreReloLen coreReloSize
            "CO-RE relocation".toList objectPath true
          let funcInfo ← initExtInfo ext.raw hdrLen funcInfoOff funcInfoLen funcInfoSize
            "function info".toList objectPath false
          let lineInfo ← initExtInfo ext.raw hdrLen lineInfoOff lineInfoLen lineInfoSize
            "line info".toList objectPath false
          extractReloSections baseIndex objectBtf objectPath
            { raw := ext.raw, coreInfo, funcInfo, lineInfo } (coreInfo.stop - coreInfo.pos + 1)
            coreInfo.pos (state, stats)

end MinCorehdr
