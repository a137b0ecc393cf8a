import Mathlib.Algebra.Group.Nat.Defs
import Mathlib.Data.List.Basic

/-!
# BTF as libbpf hands it to the program

A `Btf` is a type table and a string section.  The accessors keep libbpf's
names and answer `none` where libbpf answers `NULL`.  A C string is the list of
its bytes, one `Char` a byte, without the terminator.
-/

namespace MinCorehdr

abbrev CString := List Char

/-- `'\0'`, which ends a string inside the string section. -/
def nul : Char := Char.ofNat 0

/-- The `%u` and `%zu` conversions. -/
def decimal (n : Nat) : CString := Nat.toDigits 10 n

inductive Kind
  | unkn | int | ptr | array | struct | union | enum | fwd | typedef
  | volatile | const | restrict | func | funcProto | var | datasec
  | float | declTag | typeTag | enum64
  deriving DecidableEq, Repr

/-- The `BTF_KIND_*` number. -/
def Kind.code : Kind → Nat
  | .unkn => 0
  | .int => 1
  | .ptr => 2
  | .array => 3
  | .struct => 4
  | .union => 5
  | .enum => 6
  | .fwd => 7
  | .typedef => 8
  | .volatile => 9
  | .const => 10
  | .restrict => 11
  | .func => 12
  | .funcProto => 13
  | .var => 14
  | .datasec => 15
  | .float => 16
  | .declTag => 17
  | .typeTag => 18
  | .enum64 => 19

def mchBtfKindName : Kind → CString
  | .unkn => "UNKNOWN".toList
  | .int => "INT".toList
  | .ptr => "PTR".toList
  | .array => "ARRAY".toList
  | .struct => "STRUCT".toList
  | .union => "UNION".toList
  | .enum => "ENUM".toList
  | .fwd => "FWD".toList
  | .typedef => "TYPEDEF".toList
  | .volatile => "VOLATILE".toList
  | .const => "CONST".toList
  | .restrict => "RESTRICT".toList
  | .func => "FUNC".toList
  | .funcProto => "FUNC_PROTO".toList
  | .var => "VAR".toList
  | .datasec => "DATASEC".toList
  | .float => "FLOAT".toList
  | .declTag => "DECL_TAG".toList
  | .typeTag => "TYPE_TAG".toList
  | .enum64 => "ENUM64".toList

/-- Struct and union, the kinds that carry members. -/
def Kind.isRecord (kind : Kind) : Bool := kind == .struct || kind == .union

/-- `struct btf_member`; `offset` also holds the bit-field size of a record
with the kind flag. -/
structure BtfMember where
  nameOff : Nat := 0
  type : Nat
  offset : Nat := 0
  deriving DecidableEq, Repr

structure BtfArray where
  type : Nat := 0
  indexType : Nat := 0
  nelems : Nat := 0
  deriving DecidableEq, Repr

structure BtfParam where
  nameOff : Nat := 0
  type : Nat
  deriving DecidableEq, Repr

structure BtfEnum where
  nameOff : Nat := 0
  val : BitVec 32
  deriving DecidableEq, Repr

structure BtfEnum64 where
  nameOff : Nat := 0
  valLo32 : BitVec 32
  valHi32 : BitVec 32
  deriving DecidableEq, Repr

/-- `struct btf_type` with the data that follows it.  `size` and `type` are one
word of the C structure; which of them a kind uses, and which of the trailing
arrays, is fixed by the BTF format.  `intInfo` is the word after an INT, and
`vars` holds the type ids of a DATASEC's variables. -/
structure BtfType where
  nameOff : Nat := 0
  kind : Kind
  kflag : Bool := false
  size : Nat := 0
  type : Nat := 0
  intInfo : Nat := 0
  array : BtfArray := {}
  members : List BtfMember := []
  params : List BtfParam := []
  enums : List BtfEnum := []
  enum64s : List BtfEnum64 := []
  vars : List Nat := []
  deriving DecidableEq, Repr

/-- `btf_vlen`: how many trailing entries the type has. -/
def BtfType.vlen (type : BtfType) : Nat :=
  match type.kind with
  | .struct | .union => type.members.length
  | .enum => type.enums.length
  | .enum64 => type.enum64s.length
  | .funcProto => type.params.length
  | .datasec => type.vars.length
  | _ => 0

/-- The types with ids 1, 2, … and the string section. -/
structure Btf where
  types : List BtfType
  strs : CString
  deriving DecidableEq, Repr

/-- The type with id 0. -/
def voidType : BtfType := { kind := .unkn }

def btfTypeCnt (btf : Btf) : Nat := btf.types.length + 1

def btfTypeById (btf : Btf) : Nat → Option BtfType
  | 0 => some voidType
  | id + 1 => btf.types[id]?

def btfStrByOffset (btf : Btf) (offset : Nat) : Option CString :=
  if offset < btf.strs.length then
    some ((btf.strs.drop offset).takeWhile (fun c => c ≠ nul))
  else
    none

def btfNameByOffset (btf : Btf) (offset : Nat) : Option CString :=
  btfStrByOffset btf offset

/-- The name of a type, empty when it has none. -/
def mchBtfTypeName (btf : Btf) (type : BtfType) : CString :=
  if type.nameOff = 0 then [] else (btfNameByOffset btf type.nameOff).getD []

theorem btfTypeById_eq_some_lt {btf : Btf} {id : Nat} {type : BtfType}
    (h : btfTypeById btf id = some type) : id < btfTypeCnt btf := by
  unfold btfTypeCnt
  cases id with
  | zero => omega
  | succ id =>
      obtain ⟨hlt, _⟩ := List.getElem?_eq_some_iff.mp h
      omega

theorem exists_btfTypeById {btf : Btf} {id : Nat} (h : id < btfTypeCnt btf) :
    ∃ type, btfTypeById btf id = some type := by
  unfold btfTypeCnt at h
  cases id with
  | zero => exact ⟨voidType, rfl⟩
  | succ id => exact ⟨btf.types[id], List.getElem?_eq_getElem (by omega)⟩

/-! ## Type references in range -/

/-- The ids a type refers to, whichever its kind. -/
def BtfType.references (type : BtfType) : List Nat :=
  match type.kind with
  | .ptr | .typedef | .volatile | .const | .restrict | .func | .var | .declTag | .typeTag =>
      [type.type]
  | .array => [type.array.type, type.array.indexType]
  | .struct | .union => type.members.map BtfMember.type
  | .funcProto => type.type :: type.params.map BtfParam.type
  | .datasec => type.vars
  | .unkn | .int | .enum | .fwd | .float | .enum64 => []

/-- What libbpf's loader promises of a parsed BTF. -/
def Btf.RefsInRange (btf : Btf) : Prop :=
  ∀ type ∈ btf.types, ∀ id ∈ type.references, id < btfTypeCnt btf

instance (btf : Btf) : Decidable btf.RefsInRange :=
  inferInstanceAs (Decidable (∀ type ∈ btf.types, ∀ id ∈ type.references, id < btfTypeCnt btf))

end MinCorehdr
