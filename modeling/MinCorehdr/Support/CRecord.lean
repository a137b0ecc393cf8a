import Mathlib.Logic.Relation
import MinCorehdr.Support.CDeclarator
import MinCorehdr.Support.CLayout
import MinCorehdr.Support.CTypedef

/-!
# The bodies of C records

Member declarations, and the shape of a type that C gives a body: names are looked
up in an environment of typedefs, records and enums.  The sizes are those of a
64-bit target whose `long double` is `double`.
-/

namespace Support.CRecord

open Relation Support.CDeclaration Support.CLayout Support.CToken Support.CTypedef

/-! ## Members -/

def semicolon : Token := .punct ';'
def colon : Token := .punct ':'

def keywordOf (isUnion : Bool) : List Char :=
  if isUnion then "union".toList else "struct".toList

/-- The end of a member, from behind its declarator. -/
inductive MemberEnd : List Token → Option Nat → List Token → Prop
  | plain {rest : List Token} : MemberEnd (semicolon :: rest) none rest
  | width {w : List Char} {n : Nat} {rest : List Token} :
      number w = some n → 0 < n → MemberEnd (colon :: .word w :: semicolon :: rest) (some n) rest

/-- `MemberDeclaration ts name type width rest`: a member at the front of `ts`, with the
empty name for one that has none.  Without a declarator only bit-fields and the bodies
of structs and unions are members. -/
inductive MemberDeclaration :
    List Token → List Char → CType → Option Nat → List Token → Prop
  | named {ts after after' rest spec : List Token} {qs : List Qualifier} {name : List Char}
      {type : CType} {width : Option Nat} :
      readSpecifiers ts = some (qs, spec, after) →
        Declarator (.base qs spec) after name type after' → MemberEnd after' width rest →
          MemberDeclaration ts name type width rest
  | record {ts after rest : List Token} {qs : List Qualifier} {isUnion : Bool} {body : List Char} :
      readSpecifiers ts = some (qs, [.word (keywordOf isUnion), .braces body], after) →
        MemberEnd after none rest →
          MemberDeclaration ts [] (.base qs [.word (keywordOf isUnion), .braces body]) none rest
  | bitField {ts after rest spec : List Token} {qs : List Qualifier} {n : Nat} :
      readSpecifiers ts = some (qs, spec, after) → MemberEnd after (some n) rest →
        MemberDeclaration ts [] (.base qs spec) (some n) rest

/-- A member as it is read. -/
structure Member where
  name : List Char
  type : CType
  width : Option Nat

def DeclaresMember (ts : List Token) (m : Member) (rest : List Token) : Prop :=
  MemberDeclaration ts m.name m.type m.width rest

/-! ## Base types -/

/-- Size in bytes, and the widest bit-field. -/
def builtinScalars : List (List Token × Nat × Nat) :=
  [("_Bool", 1, 1), ("char", 1, 8), ("signed char", 1, 8), ("unsigned char", 1, 8),
    ("short", 2, 16), ("unsigned short", 2, 16), ("int", 4, 32), ("unsigned int", 4, 32),
    ("long", 8, 64), ("unsigned long", 8, 64), ("long long", 8, 64),
    ("unsigned long long", 8, 64), ("float", 4, 0), ("double", 8, 0),
    ("long double", 8, 0)].map fun (text, scalar) => (lex text.toList, scalar)

/-- The values of a built-in type. -/
inductive Builtin
  | boolean (size : Nat)
  | integer (signed : Bool) (size bits : Nat)
  | floating (size : Nat)
  deriving DecidableEq, Repr

def builtins : List (List Token × Builtin) :=
  [("_Bool", .boolean 1), ("signed char", .integer true 1 8),
    ("unsigned char", .integer false 1 8), ("short", .integer true 2 16),
    ("unsigned short", .integer false 2 16), ("int", .integer true 4 32),
    ("unsigned int", .integer false 4 32), ("long", .integer true 8 64),
    ("unsigned long", .integer false 8 64), ("long long", .integer true 8 64),
    ("unsigned long long", .integer false 8 64), ("float", .floating 4), ("double", .floating 8),
    ("long double", .floating 8)].map fun (text, values) => (lex text.toList, values)

def builtin (spec : List Token) : Option Builtin := builtins.lookup spec

def builtinScalar (spec : List Token) : Option (Nat × Nat) := builtinScalars.lookup spec

/-- An enum has 32 bits where they hold its constants, signed or unsigned, and else 64; a
constant without a value is too wide for any type. -/
def enumSize (constants : List (Option Int)) : Option Nat :=
  let fits (low high : Int) := constants.all (Option.any fun n => decide (low ≤ n ∧ n < high))
  if constants = [] then none
  else if fits 0 (2 ^ 32) || fits (-(2 ^ 31)) (2 ^ 31) then some 4
  else some 8

/-- No base type starts like this. -/
theorem builtinScalar_eq_none {spec : List Token} (h : spec.head?.any isTypeKeyword = false) :
    builtinScalar spec = none := by
  have hheads : ∀ entry ∈ builtinScalars, entry.1.head?.any isTypeKeyword = true := by
    decide
  unfold builtinScalar
  rw [List.lookup_eq_none_iff]
  intro entry hentry
  by_contra hne
  have heq : spec = entry.1 := by simpa using hne
  rw [heq, hheads entry hentry] at h
  cases h

/-! ## Shapes of types -/

/-- What names stand for: typedef names, the tags of records with the tokens between their
braces, and the tags of enums with their size. -/
structure Env where
  typedefs : List Char → CType → Prop
  records : Bool → List Char → List Token → Prop
  enums : List Char → Nat → Prop

namespace Env

variable (env : Env)

inductive IsScalar : CType → Nat → Nat → Prop
  | pointer {qs : List Qualifier} {t : CType} : IsScalar (.ptr qs t) 8 0
  | builtin {qs : List Qualifier} {spec : List Token} {size bits : Nat} :
      builtinScalar spec = some (size, bits) → IsScalar (.base qs spec) size bits
  | enum {qs : List Qualifier} {name : List Char} {size : Nat} :
      env.enums name size → IsScalar (.base qs [.word "enum".toList, .word name]) size (8 * size)

theorem isScalar_base_iff {qs : List Qualifier} {spec : List Token} {size bits : Nat} :
    env.IsScalar (.base qs spec) size bits ↔ builtinScalar spec = some (size, bits) ∨
      ∃ name, spec = [.word "enum".toList, .word name] ∧ env.enums name size ∧ bits = 8 * size := by
  constructor
  · intro h
    cases h with
    | builtin h => exact Or.inl h
    | enum h => exact Or.inr ⟨_, rfl, h, rfl⟩
  · rintro (h | ⟨name, rfl, h, rfl⟩)
    · exact .builtin h
    · exact .enum h

/-- The type is a record with these tokens between its braces. -/
inductive IsRecord (isUnion : Bool) : CType → List Token → Prop
  | inline {qs : List Qualifier} {body : List Char} :
      IsRecord isUnion (.base qs [.word (keywordOf isUnion), .braces body]) (lex body)
  | tag {qs : List Qualifier} {name : List Char} {ts : List Token} :
      env.records isUnion name ts →
        IsRecord isUnion (.base qs [.word (keywordOf isUnion), .word name]) ts

mutual

/-- The C type has this shape. -/
def HasShape : Shape → CType → Prop
  | .scalar size bits, t =>
      ∃ last, ReflTransGen (Unfolds env.typedefs) t last ∧ env.IsScalar last size bits
  | .array s count, t =>
      ∃ element, ReflTransGen (Unfolds env.typedefs) t (.array element count) ∧ HasShape s element
  | .record isUnion ms, t =>
      ∃ last ts, ReflTransGen (Unfolds env.typedefs) t last ∧ env.IsRecord isUnion last ts ∧ HasShapes ms ts

/-- The tokens declare members of these shapes. -/
def HasShapes : Shapes → List Token → Prop
  | .nil, ts => ts = []
  | .cons named width s ms, ts =>
      ∃ name type rest, MemberDeclaration ts name type width rest ∧
        named = decide (name ≠ []) ∧ s.Holds width ∧ HasShape s type ∧ HasShapes ms rest

end

end Env

end Support.CRecord
