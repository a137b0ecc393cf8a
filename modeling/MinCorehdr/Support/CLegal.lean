import MinCorehdr.Support.CRecord

/-!
# What C forbids beyond its grammar

Constraints on the types of declarations: parameters, members and array elements
are not `void`, functions do not return arrays or functions and stand in neither,
`restrict` is for pointers to objects, and the name of a parameter hides a
typedef name in the parameters behind it.
-/

namespace Support.CLegal

open Relation Support.CDeclaration Support.CRecord Support.CToken Support.CTypedef

section

variable (typedefs : List Char → CType → Prop)

/-! ## Through typedef names -/

def IsVoid (t : CType) : Prop :=
  ∃ qs, ReflTransGen (Unfolds typedefs) t (.base qs [.word "void".toList])

def IsArray (t : CType) : Prop :=
  ∃ element count, ReflTransGen (Unfolds typedefs) t (.array element count)

def IsFunction (t : CType) : Prop :=
  ∃ result params variadic, ReflTransGen (Unfolds typedefs) t (.func result params variadic)

def IsObjectPointer (t : CType) : Prop :=
  ∃ qs target, ReflTransGen (Unfolds typedefs) t (.ptr qs target) ∧ ¬IsFunction typedefs target

/-! ## Names that are used -/

/-- Among the members that the tokens declare is one of this type. -/
inductive HasMember : List Token → CType → Prop
  | here {ts rest : List Token} {m : Member} : DeclaresMember ts m rest → HasMember ts m.type
  | later {ts rest : List Token} {m : Member} {t : CType} :
      DeclaresMember ts m rest → HasMember rest t → HasMember ts t

mutual

/-- The type is written with `name` for a typedef name. -/
inductive Uses (name : List Char) : CType → Prop
  | name {qs : List Qualifier} : Uses name (.base qs [.word name])
  | member {qs : List Qualifier} {spec : List Token} {body : List Char} {t : CType} :
      .braces body ∈ spec → HasMember (lex body) t → Uses name t → Uses name (.base qs spec)
  | target {qs : List Qualifier} {t : CType} : Uses name t → Uses name (.ptr qs t)
  | element {n : Nat} {t : CType} : Uses name t → Uses name (.array t n)
  | result {t : CType} {ps : CParams} {variadic : Bool} :
      Uses name t → Uses name (.func t ps variadic)
  | params {t : CType} {ps : CParams} {variadic : Bool} :
      UsesInParams name ps → Uses name (.func t ps variadic)

inductive UsesInParams (name : List Char) : CParams → Prop
  | here {own : List Char} {t : CType} {ps : CParams} :
      Uses name t → UsesInParams name (.cons own t ps)
  | later {own : List Char} {t : CType} {ps : CParams} :
      UsesInParams name ps → UsesInParams name (.cons own t ps)

end

/-! ## Violations -/

mutual

/-- Somewhere in the type a constraint is violated. -/
inductive Illegal : CType → Prop
  | restrictBase {qs : List Qualifier} {spec : List Token} :
      .restrict ∈ qs → ¬IsObjectPointer typedefs (.base qs spec) → Illegal (.base qs spec)
  | restrictFunction {qs : List Qualifier} {t : CType} :
      .restrict ∈ qs → IsFunction typedefs t → Illegal (.ptr qs t)
  | emptyMember {qs : List Qualifier} {spec : List Token} {body : List Char} {t : CType} :
      .braces body ∈ spec → HasMember (lex body) t → IsVoid typedefs t ∨ IsFunction typedefs t →
        Illegal (.base qs spec)
  | member {qs : List Qualifier} {spec : List Token} {body : List Char} {t : CType} :
      .braces body ∈ spec → HasMember (lex body) t → Illegal t → Illegal (.base qs spec)
  | target {qs : List Qualifier} {t : CType} : Illegal t → Illegal (.ptr qs t)
  | emptyElement {n : Nat} {t : CType} :
      IsVoid typedefs t ∨ IsFunction typedefs t → Illegal (.array t n)
  | element {n : Nat} {t : CType} : Illegal t → Illegal (.array t n)
  | badResult {t : CType} {ps : CParams} {variadic : Bool} :
      IsArray typedefs t ∨ IsFunction typedefs t → Illegal (.func t ps variadic)
  | result {t : CType} {ps : CParams} {variadic : Bool} : Illegal t → Illegal (.func t ps variadic)
  | params {t : CType} {ps : CParams} {variadic : Bool} :
      IllegalParams ps → Illegal (.func t ps variadic)

inductive IllegalParams : CParams → Prop
  | void {name : List Char} {t : CType} {ps : CParams} :
      IsVoid typedefs t → IllegalParams (.cons name t ps)
  | type {name : List Char} {t : CType} {ps : CParams} :
      Illegal t → IllegalParams (.cons name t ps)
  | hidden {name : List Char} {t : CType} {ps : CParams} :
      UsesInParams name ps → IllegalParams (.cons name t ps)
  | rest {name : List Char} {t : CType} {ps : CParams} :
      IllegalParams ps → IllegalParams (.cons name t ps)

end

end

mutual

theorem matches_refl : ∀ t : CType, t.Matches SameQualifiers t
  | .base _ _ => ⟨fun _ => Iff.rfl, rfl⟩
  | .ptr _ t => ⟨fun _ => Iff.rfl, matches_refl t⟩
  | .array t _ => ⟨matches_refl t, rfl⟩
  | .func t ps _ => ⟨matches_refl t, matchesParams_refl ps, rfl⟩

theorem matchesParams_refl : ∀ ps : CParams, ps.Matches SameQualifiers ps
  | .nil => trivial
  | .cons _ t ps => ⟨rfl, matches_refl t, matchesParams_refl ps⟩

end

mutual

theorem matches_symm : ∀ {t t' : CType}, t.Matches SameQualifiers t' → t'.Matches SameQualifiers t
  | .base _ _, .base _ _, h => ⟨fun q => (h.1 q).symm, h.2.symm⟩
  | .ptr _ _, .ptr _ _, h => ⟨fun q => (h.1 q).symm, matches_symm h.2⟩
  | .array _ _, .array _ _, h => ⟨matches_symm h.1, h.2.symm⟩
  | .func _ _ _, .func _ _ _, h => ⟨matches_symm h.1, matchesParams_symm h.2.1, h.2.2.symm⟩
  | .base _ _, .ptr _ _, h | .base _ _, .array _ _, h | .base _ _, .func _ _ _, h => h.elim
  | .ptr _ _, .base _ _, h | .ptr _ _, .array _ _, h | .ptr _ _, .func _ _ _, h => h.elim
  | .array _ _, .base _ _, h | .array _ _, .ptr _ _, h | .array _ _, .func _ _ _, h => h.elim
  | .func _ _ _, .base _ _, h | .func _ _ _, .ptr _ _, h | .func _ _ _, .array _ _, h => h.elim

theorem matchesParams_symm :
    ∀ {ps ps' : CParams}, ps.Matches SameQualifiers ps' → ps'.Matches SameQualifiers ps
  | .nil, .nil, _ => trivial
  | .cons _ _ _, .cons _ _ _, h => ⟨h.1.symm, matches_symm h.2.1, matchesParams_symm h.2.2⟩
  | .nil, .cons _ _ _, h | .cons _ _ _, .nil, h => h.elim

end

section

variable {typedefs : List Char → CType → Prop} {t t' : CType}

/-- What a type stands for does not depend on its qualifiers. -/
theorem unfolds_of_matches (h : t.Matches SameQualifiers t') {u : CType}
    (hu : ReflTransGen (Unfolds typedefs) t u) :
    ∃ u', ReflTransGen (Unfolds typedefs) t' u' ∧ u.Matches SameQualifiers u' := by
  rcases hu.cases_head with rfl | ⟨mid, ⟨qs, name, rfl, hname⟩, hrest⟩
  · exact ⟨t', .refl, h⟩
  · cases t' with
    | base qs' spec =>
        obtain ⟨_, rfl⟩ := h
        exact ⟨u, .head ⟨qs', name, rfl, hname⟩ hrest, matches_refl u⟩
    | ptr _ _ | array _ _ | func _ _ _ => exact h.elim

theorem IsVoid.of_matches (h : t.Matches SameQualifiers t') (hvoid : IsVoid typedefs t) :
    IsVoid typedefs t' := by
  obtain ⟨qs, hu⟩ := hvoid
  obtain ⟨u', hu', hmatches⟩ := unfolds_of_matches h hu
  cases u' with
  | base qs' spec =>
      obtain ⟨_, rfl⟩ := hmatches
      exact ⟨qs', hu'⟩
  | ptr _ _ | array _ _ | func _ _ _ => exact hmatches.elim

theorem IsArray.of_matches (h : t.Matches SameQualifiers t') (harray : IsArray typedefs t) :
    IsArray typedefs t' := by
  obtain ⟨element, count, hu⟩ := harray
  obtain ⟨u', hu', hmatches⟩ := unfolds_of_matches h hu
  cases u' with
  | array element' count' => exact ⟨element', count', hu'⟩
  | base _ _ | ptr _ _ | func _ _ _ => exact hmatches.elim

theorem IsFunction.of_matches (h : t.Matches SameQualifiers t') (hfunction : IsFunction typedefs t) :
    IsFunction typedefs t' := by
  obtain ⟨result, params, variadic, hu⟩ := hfunction
  obtain ⟨u', hu', hmatches⟩ := unfolds_of_matches h hu
  cases u' with
  | func result' params' variadic' => exact ⟨result', params', variadic', hu'⟩
  | base _ _ | ptr _ _ | array _ _ => exact hmatches.elim

theorem IsObjectPointer.of_matches (h : t.Matches SameQualifiers t')
    (hpointer : IsObjectPointer typedefs t) : IsObjectPointer typedefs t' := by
  obtain ⟨qs, target, hu, hobject⟩ := hpointer
  obtain ⟨u', hu', hmatches⟩ := unfolds_of_matches h hu
  cases u' with
  | ptr qs' target' =>
      exact ⟨qs', target', hu', fun hfunction => hobject (hfunction.of_matches (matches_symm hmatches.2))⟩
  | base _ _ | array _ _ | func _ _ _ => exact hmatches.elim

end

mutual

theorem Uses.of_matches {name : List Char} : ∀ {t t' : CType}, t.Matches SameQualifiers t' →
    Uses name t → Uses name t'
  | .base _ _, .base _ _, ⟨_, rfl⟩, h => by
      cases h with
      | name => exact .name
      | member hbody hmember hinner => exact .member hbody hmember hinner
  | .ptr _ _, .ptr _ _, hm, .target h => .target (Uses.of_matches hm.2 h)
  | .array _ _, .array _ _, hm, .element h => .element (Uses.of_matches hm.1 h)
  | .func _ _ _, .func _ _ _, hm, .result h => .result (Uses.of_matches hm.1 h)
  | .func _ _ _, .func _ _ _, hm, .params h => .params (UsesInParams.of_matches hm.2.1 h)
  | .base _ _, .ptr _ _, h, _ | .base _ _, .array _ _, h, _ | .base _ _, .func _ _ _, h, _ => h.elim
  | .ptr _ _, .base _ _, h, _ | .ptr _ _, .array _ _, h, _ | .ptr _ _, .func _ _ _, h, _ => h.elim
  | .array _ _, .base _ _, h, _ | .array _ _, .ptr _ _, h, _ | .array _ _, .func _ _ _, h, _ => h.elim
  | .func _ _ _, .base _ _, h, _ | .func _ _ _, .ptr _ _, h, _ | .func _ _ _, .array _ _, h, _ => h.elim

theorem UsesInParams.of_matches {name : List Char} : ∀ {ps ps' : CParams},
    ps.Matches SameQualifiers ps' → UsesInParams name ps → UsesInParams name ps'
  | .cons _ _ _, .cons _ _ _, hm, .here h => .here (Uses.of_matches hm.2.1 h)
  | .cons _ _ _, .cons _ _ _, hm, .later h => .later (UsesInParams.of_matches hm.2.2 h)
  | .nil, .nil, _, h => h
  | .nil, .cons _ _ _, h, _ | .cons _ _ _, .nil, h, _ => h.elim

end

section

variable {typedefs : List Char → CType → Prop}

mutual

/-- Types that differ in the order of qualifiers violate the same constraints. -/
theorem Illegal.of_matches : ∀ {t t' : CType}, t.Matches SameQualifiers t' →
    Illegal typedefs t → Illegal typedefs t'
  | .base _ _, .base _ _, hm, h => by
      obtain ⟨hqs, rfl⟩ := hm
      cases h with
      | restrictBase hrestrict hpointer =>
          refine .restrictBase ((hqs _).mp hrestrict) fun hother => hpointer (hother.of_matches ?_)
          exact ⟨fun q => (hqs q).symm, rfl⟩
      | emptyMember hbody hmember hempty => exact .emptyMember hbody hmember hempty
      | member hbody hmember hinner => exact .member hbody hmember hinner
  | .ptr _ _, .ptr _ _, hm, h => by
      cases h with
      | restrictFunction hrestrict hfunction =>
          exact .restrictFunction ((hm.1 _).mp hrestrict) (hfunction.of_matches hm.2)
      | target h => exact .target (Illegal.of_matches hm.2 h)
  | .array _ _, .array _ _, hm, h => by
      cases h with
      | emptyElement h => exact .emptyElement (h.imp (.of_matches hm.1) (.of_matches hm.1))
      | element h => exact .element (Illegal.of_matches hm.1 h)
  | .func _ _ _, .func _ _ _, hm, h => by
      cases h with
      | badResult h => exact .badResult (h.imp (.of_matches hm.1) (.of_matches hm.1))
      | result h => exact .result (Illegal.of_matches hm.1 h)
      | params h => exact .params (IllegalParams.of_matches hm.2.1 h)
  | .base _ _, .ptr _ _, h, _ | .base _ _, .array _ _, h, _ | .base _ _, .func _ _ _, h, _ => h.elim
  | .ptr _ _, .base _ _, h, _ | .ptr _ _, .array _ _, h, _ | .ptr _ _, .func _ _ _, h, _ => h.elim
  | .array _ _, .base _ _, h, _ | .array _ _, .ptr _ _, h, _ | .array _ _, .func _ _ _, h, _ => h.elim
  | .func _ _ _, .base _ _, h, _ | .func _ _ _, .ptr _ _, h, _ | .func _ _ _, .array _ _, h, _ => h.elim

theorem IllegalParams.of_matches : ∀ {ps ps' : CParams}, ps.Matches SameQualifiers ps' →
    IllegalParams typedefs ps → IllegalParams typedefs ps'
  | .cons _ _ _, .cons _ _ _, hm, h => by
      obtain ⟨rfl, htype, hrest⟩ := hm
      cases h with
      | void h => exact .void (h.of_matches htype)
      | type h => exact .type (Illegal.of_matches htype h)
      | hidden h => exact .hidden (h.of_matches hrest)
      | rest h => exact .rest (IllegalParams.of_matches hrest h)
  | .nil, .nil, _, h => h
  | .nil, .cons _ _ _, h, _ | .cons _ _ _, .nil, h, _ => h.elim

end

end

end Support.CLegal
