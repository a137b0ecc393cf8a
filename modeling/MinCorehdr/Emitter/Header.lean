import MinCorehdr.Emitter.Walk
import MinCorehdr.Requirements
import MinCorehdr.TypeSet

/-!
# The header of a required set

Forward declarations, enums, typedefs and records of the required set, each
group in the order of the ids.
-/

namespace MinCorehdr

open Support.Result

/-- The `%d` and `%lld` conversions. -/
def signedDecimal (n : Int) : CString :=
  if n < 0 then '-' :: decimal n.natAbs else decimal n.natAbs

def enumeratorName (btf : Btf) (nameOff : Nat) : CString :=
  (btfNameByOffset btf nameOff).getD "__anonymous".toList

/-- The constants of an enum as `emit_enum_definition` writes them. -/
def enumerators (btf : Btf) (type : BtfType) : List Enumerator :=
  if type.kind = .enum then
    type.enums.map fun value =>
      { name := enumeratorName btf value.nameOff, value := signedDecimal value.val.toInt }
  else
    type.enum64s.map fun value =>
      let bits : BitVec 64 := value.valHi32 ++ value.valLo32
      { name := enumeratorName btf value.nameOff
        value :=
          if type.kflag then signedDecimal bits.toInt else decimal bits.toNat ++ "ULL".toList }

def emitEnumDefinition (ctx : EmitCtx) (id : Nat) (st : EmitState) : Except Fault EmitState := do
  let type ← typeById ctx id
  .ok (st.print (.enumDef id (mchBtfTypeName ctx.btf type) (enumerators ctx.btf type)))

structure EmitGroups where
  fwds : List Nat := []
  enums : List Nat := []
  records : List Nat := []
  typedefs : List Nat := []
  deriving DecidableEq, Repr

/-- Put one required id into its groups. -/
def addToGroups (ctx : EmitCtx) (groups : EmitGroups) (id : Nat) : Except Fault EmitGroups := do
  let type ← typeById ctx id
  let named := decide (mchBtfTypeName ctx.btf type ≠ [])
  let appendIf (b : Bool) (ids : List Nat) : List Nat := if b then ids ++ [id] else ids
  .ok {
    fwds := appendIf ((type.kind.isRecord || type.kind == .fwd) && named) groups.fwds
    enums := appendIf (type.kind == .enum || type.kind == .enum64) groups.enums
    records := appendIf (isNamedRecord ctx.btf type) groups.records
    typedefs := appendIf (type.kind == .typedef) groups.typedefs }

def collectEmitGroups (ctx : EmitCtx) (required : TypeSet) : Except Fault EmitGroups :=
  (mchTypeSetIds required (required.count + 1) 1).foldlM (addToGroups ctx) {}

def initialEmitState : EmitState where
  out := []
  recordState := fun _ => .unseen
  typedefState := fun _ => .unseen
  fwdState := fun _ => false

def headerOpening : List Item :=
  [.text "#ifndef MIN_COREHDR_GENERATED_VMLINUX_H\n".toList,
    .text "#define MIN_COREHDR_GENERATED_VMLINUX_H\n\n".toList,
    .text ("#pragma clang attribute push (__attribute__((preserve_access_index)), ".toList ++
      "apply_to = record)\n\n".toList)]

def headerClosing : List Item :=
  [.text "#pragma clang attribute pop\n\n".toList, .text "#endif\n".toList]

/-- Everything `mch_emit_header_with_options` writes between the guards, and the
guards. -/
def emitHeader (ctx : EmitCtx) (fuel : Nat) (required : TypeSet) : Except Fault (List Item) := do
  let groups ← collectEmitGroups ctx required
  let st := { initialEmitState with out := headerOpening }
  let st ← groups.fwds.foldlM (fun st id => emitForwardDecl ctx id st) st
  let st := st.print (.text ['\n'])
  let st ← groups.enums.foldlM (fun st id => emitEnumDefinition ctx id st) st
  let st ← groups.typedefs.foldlM (fun st id => emitTypedefDefinition ctx fuel id st) st
  let st ← groups.records.foldlM (fun st id => emitRecordDefinition ctx fuel id st) st
  .ok (st.out ++ headerClosing)

/-- The context of an emission under `requirements`. -/
def emitCtx (btf : Btf) (requirements : Option Requirements) : EmitCtx where
  btf := btf
  keeps := keepsMember requirements

def mchEmitHeaderWithOptions (fuel : Nat) (btf : Btf) (required : TypeSet)
    (requirements : Option Requirements) : Except Fault (List Item) :=
  emitHeader (emitCtx btf requirements) fuel required

end MinCorehdr
