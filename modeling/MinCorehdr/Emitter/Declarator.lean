import MinCorehdr.Emitter.Output
import MinCorehdr.Error
import MinCorehdr.Support.Result

/-!
# Printing a declaration

`emit_decl_ex` prints the type of a declaration around a declarator that it
grows on the way in.  Nothing in it bounds the depth of the type graph, so the
model takes the number of nested calls it may make as its first argument.
-/

namespace MinCorehdr

open Support.Result

/-- `struct emit_ctx`, less the output and the visit states.  `keeps` is the
answer of the requirement test on a record and a member index. -/
structure EmitCtx where
  btf : Btf
  keeps : Nat → Nat → Bool

def typeById (ctx : EmitCtx) (id : Nat) : Except Fault BtfType :=
  match btfTypeById ctx.btf id with
  | none => fail ("emitter saw invalid type id ".toList ++ decimal id)
  | some type => .ok type

def isNamedRecord (btf : Btf) (type : BtfType) : Bool :=
  type.kind.isRecord && decide (mchBtfTypeName btf type ≠ [])

/-- `make_declarator` into a buffer of 512 bytes. -/
def makeDeclarator (text problem : CString) : Except Fault CString :=
  if 512 ≤ text.length then fail problem else .ok text

/-- `"%s%s"` of a separating blank and the declarator. -/
def spaced (declarator : CString) : CString :=
  if declarator = [] then [] else ' ' :: declarator

def intTypeName (type : BtfType) : CString :=
  let encoding := (type.intInfo &&& 0x0f000000) >>> 24
  let isBool := encoding &&& 4 ≠ 0
  let isChar := encoding &&& 2 ≠ 0
  let isSigned := encoding &&& 1 ≠ 0
  let bits := type.intInfo &&& 0x000000ff
  if isBool then "_Bool".toList
  else if isChar ∧ bits = 8 then
    if isSigned then "signed char".toList else "unsigned char".toList
  else
    match bits with
    | 8 => if isSigned then "signed char".toList else "unsigned char".toList
    | 16 => if isSigned then "short".toList else "unsigned short".toList
    | 32 => if isSigned then "int".toList else "unsigned int".toList
    | 64 => if isSigned then "long long".toList else "unsigned long long".toList
    | _ => if isSigned then "int".toList else "unsigned int".toList

def floatTypeName (type : BtfType) : CString :=
  match type.size with
  | 4 => "float".toList
  | 8 => "double".toList
  | 16 => "long double".toList
  | _ => "double".toList

/-! ## Qualifiers -/

def typeQualifierBit : Kind → BitVec 32
  | .const => 1
  | .volatile => 2
  | .restrict => 4
  | _ => 0

/-- `append_type_qualifier` into a buffer of 64 bytes. -/
def appendTypeQualifier (buf qualifier : CString) : Option CString :=
  let text := (if buf = [] then [] else buf ++ [' ']) ++ qualifier
  if 64 ≤ text.length then none else some text

def qualifierNames : List (BitVec 32 × CString) :=
  [(1, "const".toList), (2, "volatile".toList), (4, "restrict".toList)]

def appendQualifierMask (mask : BitVec 32) : Option CString :=
  qualifierNames.foldlM
    (fun buf qualifier =>
      if mask &&& qualifier.1 ≠ 0 then appendTypeQualifier buf qualifier.2 else some buf)
    []

def leadingQualifierMaskFrom (ctx : EmitCtx) : Nat → Nat → BitVec 32 → BitVec 32
  | 0, _, mask => mask
  | depth + 1, id, mask =>
      match btfTypeById ctx.btf id with
      | none => mask
      | some type =>
          let bit := typeQualifierBit type.kind
          if bit = 0 then mask else leadingQualifierMaskFrom ctx depth type.type (mask ||| bit)

def leadingQualifierMask (ctx : EmitCtx) (id : Nat) : BitVec 32 :=
  leadingQualifierMaskFrom ctx 32 id 0

/-- The `for (;;)` of `emit_qualified_decl`: the id and type behind the
qualifiers, and their bits.  It has no bound of its own. -/
def peelQualifiers (ctx : EmitCtx) : Nat → Nat → BitVec 32 → Except Fault (Nat × BtfType × BitVec 32)
  | 0, _, _ => .error .outOfFuel
  | fuel + 1, current, mask => do
      let type ← typeById ctx current
      let bit := typeQualifierBit type.kind
      if bit = 0 then .ok (current, type, mask)
      else peelQualifiers ctx fuel type.type (mask ||| bit)

/-! ## Declarations

`decl` is the recursive call of `emit_decl_ex`. -/

def emitQualifiedDecl (ctx : EmitCtx) (decl : Nat → CString → Except Fault (List Piece))
    (fuel id : Nat) (declarator : CString) : Except Fault (List Piece) := do
  let (current, type, mask) ← peelQualifiers ctx fuel id 0
  let mask :=
    if type.kind = .array then mask &&& ~~~(leadingQualifierMask ctx type.array.type) else mask
  match appendQualifierMask mask with
  | none => fail "type qualifier chain is too long".toList
  | some qualifiers =>
      if type.kind = .ptr then do
        let next ← makeDeclarator ("* ".toList ++ qualifiers ++ spaced declarator)
          "type declarator is too long".toList
        decl type.type next
      else do
        let rest ← decl current declarator
        .ok (.text (qualifiers ++ [' ']) :: rest)

/-- One parameter, and the comma before it unless it is the first. -/
def emitParam (ctx : EmitCtx) (decl : Nat → CString → Except Fault (List Piece))
    (param : BtfParam × Nat) : Except Fault (List Piece) := do
  let (param, i) := param
  let comma := Piece.text (if 0 < i then ", ".toList else [])
  if param.type = 0 then
    .ok [comma, .text "void".toList]
  else
    let name := match btfNameByOffset ctx.btf param.nameOff with
      | some (c :: name) => c :: name
      | _ => "arg".toList ++ decimal i
    let pieces ← decl param.type name
    .ok (comma :: pieces)

def emitParams (ctx : EmitCtx) (decl : Nat → CString → Except Fault (List Piece))
    (proto : BtfType) : Except Fault (List Piece) :=
  if proto.params = [] then .ok [.text "void".toList]
  else collect (emitParam ctx decl) proto.params.zipIdx

def emitFuncDecl (ctx : EmitCtx) (decl : Nat → CString → Except Fault (List Piece))
    (protoId : Nat) (declarator : CString) : Except Fault (List Piece) := do
  let proto ← typeById ctx protoId
  let result ← decl proto.type []
  let opening :=
    if declarator.head? = some '*' then " (".toList ++ declarator ++ ")(".toList
    else if declarator ≠ [] then ' ' :: declarator ++ ['(']
    else ['(']
  let params ← emitParams ctx decl proto
  .ok (result ++ .text opening :: params ++ [.text [')']])

/-- One member of a record body, unless the record does not keep it. -/
def emitMember (ctx : EmitCtx) (decl : Nat → CString → Except Fault (List Piece)) (id : Nat)
    (kflag : Bool) (member : BtfMember × Nat) : Except Fault (List Piece) := do
  let (member, i) := member
  let name := (btfNameByOffset ctx.btf member.nameOff).getD []
  let bitfieldSize := if kflag then member.offset >>> 24 else 0
  if ctx.keeps id i = false then .ok []
  else do
    let pieces ← decl member.type name
    let suffix := if bitfieldSize ≠ 0 then " : ".toList ++ decimal bitfieldSize else []
    .ok (.member id i :: pieces ++ [.text (suffix ++ ";\n".toList)])

def emitRecordBody (ctx : EmitCtx) (decl : Nat → CString → Except Fault (List Piece)) (id : Nat)
    (record : BtfType) : Except Fault (List Piece) := do
  let members ← collect (emitMember ctx decl id record.kflag) record.members.zipIdx
  .ok (.text " \x7b\n".toList :: members ++ [.text "\x7d".toList])

def emitInlineRecord (ctx : EmitCtx) (decl : Nat → CString → Except Fault (List Piece))
    (type : BtfType) (id : Nat) (declarator : CString) : Except Fault (List Piece) := do
  let body ← emitRecordBody ctx decl id type
  let keyword := if type.kind = .struct then "struct".toList else "union".toList
  .ok (.text keyword :: body ++ [.text (spaced declarator)])

def recordKeyword (type : BtfType) : CString :=
  if type.kind = .union ∨ (type.kind = .fwd ∧ type.kflag = true) then "union".toList
  else "struct".toList

def emitDeclEx (ctx : EmitCtx) : Nat → Nat → CString → Except Fault (List Piece)
  | 0, _, _ => .error .outOfFuel
  | fuel + 1, id, declarator =>
      if id = 0 then .ok [.text ("void".toList ++ spaced declarator)]
      else do
        let type ← typeById ctx id
        let name := mchBtfTypeName ctx.btf type
        match type.kind with
        | .int => .ok [.text (intTypeName type ++ spaced declarator)]
        | .float => .ok [.text (floatTypeName type ++ spaced declarator)]
        | .ptr => do
            let next ← makeDeclarator ('*' :: declarator) "type declarator is too long".toList
            emitDeclEx ctx fuel type.type next
        | .array => do
            let inner :=
              if declarator.head? = some '*' then '(' :: declarator ++ [')'] else declarator
            let next ← makeDeclarator (inner ++ '[' :: decimal type.array.nelems ++ [']'])
              "array declarator is too long".toList
            emitDeclEx ctx fuel type.array.type next
        | .const | .volatile | .restrict =>
            emitQualifiedDecl ctx (emitDeclEx ctx fuel) fuel id declarator
        | .typeTag | .declTag => emitDeclEx ctx fuel type.type declarator
        | .typedef =>
            if name = [] then emitDeclEx ctx fuel type.type declarator
            else .ok [.typedefName id name, .text (spaced declarator)]
        | .struct | .union =>
            if name = [] then emitInlineRecord ctx (emitDeclEx ctx fuel) type id declarator
            else .ok [.tagName id (recordKeyword type) name, .text (spaced declarator)]
        | .fwd => .ok [.tagName id (recordKeyword type) name, .text (spaced declarator)]
        | .enum =>
            if name = [] then .ok [.text ("int".toList ++ spaced declarator)]
            else .ok [.tagName id "enum".toList name, .text (spaced declarator)]
        | .enum64 =>
            if name = [] then .ok [.text ("unsigned long long".toList ++ spaced declarator)]
            else .ok [.tagName id "enum".toList name, .text (spaced declarator)]
        | .funcProto => emitFuncDecl ctx (emitDeclEx ctx fuel) id declarator
        | kind => fail ("unsupported BTF kind in emitter: ".toList ++ mchBtfKindName kind)

def emitDecl (ctx : EmitCtx) (fuel id : Nat) (declarator : CString) :
    Except Fault (List Piece) :=
  emitDeclEx ctx fuel id declarator

end MinCorehdr
