import MinCorehdr.Btf

/-!
# The header as a list of items

The emitter writes plain text.  The model keeps, beside each text, which type or
member it was written for; `headerText` is the text alone.
-/

namespace MinCorehdr

/-- A part of a declaration: the name of the typedef `id`, the tag of the
record or enum `id`, the indentation that opens member `index` of the record
`recordId`, or other text. -/
inductive Piece
  | text (text : CString)
  | typedefName (id : Nat) (name : CString)
  | tagName (id : Nat) (keyword name : CString)
  | member (recordId index : Nat)
  deriving DecidableEq, Repr

def Piece.toText : Piece → CString
  | .text written => written
  | .typedefName _ name => name
  | .tagName _ keyword name => keyword ++ [' '] ++ name
  | .member _ _ => "  ".toList

def declText (pieces : List Piece) : CString := pieces.flatMap Piece.toText

/-- A constant of an enum definition and its value as written. -/
structure Enumerator where
  name : CString
  value : CString
  deriving DecidableEq, Repr

/-- The lines of an enum body; all but the last end in a comma. -/
def enumeratorLines : List Enumerator → CString
  | [] => []
  | [last] => "  ".toList ++ last.name ++ " = ".toList ++ last.value ++ ['\n']
  | enumerator :: rest =>
      "  ".toList ++ enumerator.name ++ " = ".toList ++ enumerator.value ++ ",\n".toList ++
        enumeratorLines rest

inductive Item
  | text (text : CString)
  | forwardDecl (id : Nat) (keyword name : CString)
  | enumDef (id : Nat) (name : CString) (enumerators : List Enumerator)
  | typedefDef (id : Nat) (name : CString) (decl : List Piece)
  | recordDef (id : Nat) (keyword name : CString) (body : List Piece)
  deriving DecidableEq, Repr

def Item.toText : Item → CString
  | .text written => written
  | .forwardDecl _ keyword name => keyword ++ [' '] ++ name ++ ";\n".toList
  | .enumDef _ name enumerators =>
      (if name = [] then "enum \x7b\n".toList else "enum ".toList ++ name ++ " \x7b\n".toList) ++
        enumeratorLines enumerators ++ "\x7d;\n\n".toList
  | .typedefDef _ _ decl => "typedef ".toList ++ declText decl ++ ";\n\n".toList
  | .recordDef _ keyword name body =>
      keyword ++ [' '] ++ name ++ declText body ++ ";\n\n".toList

def headerText (items : List Item) : CString := items.flatMap Item.toText

/-- The pieces of an item's declarations. -/
def Item.pieces : Item → List Piece
  | .typedefDef _ _ decl => decl
  | .recordDef _ _ _ body => body
  | _ => []

end MinCorehdr
