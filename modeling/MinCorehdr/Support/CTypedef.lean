import MinCorehdr.Support.CDeclaration

/-!
# Typedef names

A typedef name stands for its type wherever it is used.  Two declarations of one
name say the same where they come to one type once every name in them is
replaced.  Braces make a new type each time they are written, so a name that has
them behind it stands for itself.
-/

namespace Support.CTypedef

open Support.CDeclaration Support.CToken

mutual

/-- The type is written with braces. -/
def HasBraces : CType → Prop
  | .base _ spec => ∃ body, .braces body ∈ spec
  | .ptr _ t | .array t _ => HasBraces t
  | .func t ps _ => HasBraces t ∨ AnyBraces ps

def AnyBraces : CParams → Prop
  | .nil => False
  | .cons _ t ps => HasBraces t ∨ AnyBraces ps

end

/-! ## Replacing names -/

section

variable (typedefs : List Char → CType → Prop)

/-- A typedef name is replaced by its type. -/
def Unfolds (t t' : CType) : Prop := ∃ qs name, t = .base qs [.word name] ∧ typedefs name t'

/-- The specifier is no typedef name, or one that stands for itself. -/
def Stays (spec : List Token) : Prop :=
  ∀ name, spec = [.word name] → (∃ t, typedefs name t) → ∃ t, typedefs name t ∧ HasBraces t

mutual

/-- `Unfolded t u`: the type `u` is `t` with its typedef names replaced. -/
inductive Unfolded : CType → CType → Prop
  | stays {qs : List Qualifier} {spec : List Token} :
      Stays typedefs spec → Unfolded (.base qs spec) (.base qs spec)
  | name {qs : List Qualifier} {name : List Char} {t u : CType} :
      typedefs name t → ¬HasBraces t → Unfolded t u →
        Unfolded (.base qs [.word name]) (u.qualify qs)
  | ptr {qs : List Qualifier} {t u : CType} : Unfolded t u → Unfolded (.ptr qs t) (.ptr qs u)
  | array {n : Nat} {t u : CType} : Unfolded t u → Unfolded (.array t n) (.array u n)
  | func {t u : CType} {ps ps' : CParams} {variadic : Bool} :
      Unfolded t u → UnfoldedParams ps ps' → Unfolded (.func t ps variadic) (.func u ps' variadic)

inductive UnfoldedParams : CParams → CParams → Prop
  | nil : UnfoldedParams .nil .nil
  | cons {name : List Char} {t u : CType} {ps ps' : CParams} :
      Unfolded t u → UnfoldedParams ps ps' →
        UnfoldedParams (.cons name t ps) (.cons name u ps')

end

end

/-! ## What counts in a prototype -/

def unqualified : CType → CType
  | .base _ spec => .base [] spec
  | .ptr _ t => .ptr [] t
  | t => t

/-- As a parameter: arrays and functions are pointers, and its own qualifiers do not count. -/
def adjusted : CType → CType
  | .array t _ => .ptr [] t
  | .func t ps variadic => .ptr [] (.func t ps variadic)
  | t => unqualified t

mutual

/-- The type without what C does not count: the names of parameters, and their own
qualifiers and those of results. -/
def canonical : CType → CType
  | .base qs spec => .base qs spec
  | .ptr qs t => .ptr qs (canonical t)
  | .array t n => .array (canonical t) n
  | .func t ps variadic => .func (unqualified (canonical t)) (canonicalParams ps) variadic

def canonicalParams : CParams → CParams
  | .nil => .nil
  | .cons _ t ps => .cons [] (adjusted (canonical t)) (canonicalParams ps)

end

end Support.CTypedef
