import Mathlib.Data.List.Basic

/-!
# The layout of C records

Natural alignment and packed bit-fields: an ordinary member goes to the next multiple
of its alignment, a bit-field to the next free bit unless it would then leave the unit of
its type.  Offsets are in bits, sizes and alignments in bytes.
-/

namespace Support.CLayout

def alignUp (n a : Nat) : Nat := (n + a - 1) / a * a

/-! ## Placing members -/

/-- A member as the rules see it; `width` is that of a bit-field. -/
structure Field where
  size : Nat
  align : Nat
  width : Option Nat
  named : Bool
  deriving DecidableEq, Repr

/-- The first bit behind what is placed, and the alignment so far. -/
structure Cursor where
  bits : Nat
  align : Nat
  deriving DecidableEq, Repr

def Cursor.start : Cursor := ⟨0, 1⟩

def Field.offset (isUnion : Bool) (c : Cursor) (f : Field) : Nat :=
  if isUnion then 0
  else
    match f.width with
    | none => alignUp c.bits (8 * f.align)
    | some w =>
        if c.bits % (8 * f.align) + w ≤ 8 * f.size then c.bits
        else alignUp c.bits (8 * f.align)

def Field.bits (f : Field) : Nat := f.width.getD (8 * f.size)

/-- A bit-field without a name leaves the alignment as it is. -/
def Cursor.place (isUnion : Bool) (c : Cursor) (f : Field) : Cursor where
  bits := max c.bits (f.offset isUnion c + f.bits)
  align := if f.width.isSome && !f.named then c.align else max c.align f.align

def offsetsFrom (isUnion : Bool) (c : Cursor) : List Field → List Nat
  | [] => []
  | f :: fields => f.offset isUnion c :: offsetsFrom isUnion (c.place isUnion f) fields

def recordOffsets (isUnion : Bool) (fields : List Field) : List Nat :=
  offsetsFrom isUnion .start fields

def recordAlign (isUnion : Bool) (fields : List Field) : Nat :=
  (fields.foldl (Cursor.place isUnion) .start).align

def recordSize (isUnion : Bool) (fields : List Field) : Nat :=
  alignUp (((fields.foldl (Cursor.place isUnion) .start).bits + 7) / 8) (recordAlign isUnion fields)

/-! ## Types as far as they count -/

mutual

/-- What of a type counts for the layout.  A scalar is aligned to its size and holds
bit-fields of at most `bits` bits. -/
inductive Shape
  | scalar (size bits : Nat)
  | array (element : Shape) (count : Nat)
  | record (isUnion : Bool) (members : Shapes)

/-- The members of a record. -/
inductive Shapes
  | nil
  | cons (named : Bool) (width : Option Nat) (shape : Shape) (rest : Shapes)

end

mutual

def Shape.size : Shape → Nat
  | .scalar size _ => size
  | .array s count => count * s.size
  | .record isUnion ms => recordSize isUnion ms.fields

def Shape.align : Shape → Nat
  | .scalar size _ => size
  | .array s _ => s.align
  | .record isUnion ms => recordAlign isUnion ms.fields

def Shapes.fields : Shapes → List Field
  | .nil => []
  | .cons named width s ms => ⟨s.size, s.align, width, named⟩ :: ms.fields

end

/-- A bit-field fits into its type; other members always do. -/
def Shape.Holds (width : Option Nat) : Shape → Prop
  | .scalar _ bits => ∀ w ∈ width, w ≤ bits
  | .array _ _ | .record _ _ => width = none

/-- The record has this size and these offsets. -/
structure LaidOut (isUnion : Bool) (ms : Shapes) (size : Nat) (offsets : List Nat) : Prop where
  size_eq : recordSize isUnion ms.fields = size
  offsets_eq : recordOffsets isUnion ms.fields = offsets

end Support.CLayout
