import MinCorehdr.Support.CToken

/-!
# The grammar of C declarations

Specifiers, then a declarator that is read from the inside out: what stands
behind a name binds tighter than the stars in front of it.  The grammar has the
qualifiers in front of the type specifier, tags, inline records (the text of
their braces unread), type names and the built-in types; pointers, arrays with a
bound, and prototypes.  Of the abstract declarators it has the empty one.  What C
asks of the types beyond this (no parameter with a name is `void`, no array holds
functions) is in `Support.CLegal`.
-/

namespace Support.CDeclaration

open Support.CToken

/-! ## Types -/

inductive Qualifier
  | const | volatile | restrict
  deriving DecidableEq, Repr

mutual

/-- A C type; the qualifiers of a level are listed as they are written. -/
inductive CType
  | base (qualifiers : List Qualifier) (specifier : List Token)
  | ptr (qualifiers : List Qualifier) (target : CType)
  | array (element : CType) (count : Nat)
  | func (result : CType) (params : CParams) (variadic : Bool)

inductive CParams
  | nil
  | cons (name : List Char) (type : CType) (rest : CParams)

end

mutual

/-- Two types with the same structure and names, whose qualifiers at each level are
related by `level`. -/
def CType.Matches (level : List Qualifier → List Qualifier → Prop) : CType → CType → Prop
  | .base qs spec, .base qs' spec' => level qs qs' ∧ spec = spec'
  | .ptr qs t, .ptr qs' t' => level qs qs' ∧ t.Matches level t'
  | .array t n, .array t' n' => t.Matches level t' ∧ n = n'
  | .func t ps v, .func t' ps' v' => t.Matches level t' ∧ ps.Matches level ps' ∧ v = v'
  | _, _ => False

def CParams.Matches (level : List Qualifier → List Qualifier → Prop) : CParams → CParams → Prop
  | .nil, .nil => True
  | .cons n t ps, .cons n' t' ps' => n = n' ∧ t.Matches level t' ∧ ps.Matches level ps'
  | _, _ => False

end

/-- The same qualifiers. -/
def SameQualifiers (qs qs' : List Qualifier) : Prop := ∀ q, q ∈ qs ↔ q ∈ qs'

def CParams.names : CParams → List (List Char)
  | .nil => []
  | .cons n _ ps => n :: ps.names

mutual

/-- No parameter list in the type has a name twice. -/
def CType.NamesDistinct : CType → Prop
  | .base _ _ => True
  | .ptr _ t => t.NamesDistinct
  | .array t _ => t.NamesDistinct
  | .func t ps _ => t.NamesDistinct ∧ ps.names.Nodup ∧ ps.EachDistinct

def CParams.EachDistinct : CParams → Prop
  | .nil => True
  | .cons _ t ps => t.NamesDistinct ∧ ps.EachDistinct

end

/-- The type with more qualifiers: an array hands them to its elements, and a function
has none. -/
def CType.qualify (qs : List Qualifier) : CType → CType
  | .base qs' spec => .base (qs ++ qs') spec
  | .ptr qs' t => .ptr (qs ++ qs') t
  | .array t n => .array (t.qualify qs) n
  | .func t ps v => .func t ps v

/-- Pointers to a type that is neither an array nor a function. -/
def CType.PointersOnly : CType → Prop
  | .base _ _ => True
  | .ptr _ t => t.PointersOnly
  | .array _ _ | .func _ _ _ => False

/-- No function below the type. -/
def CType.NoFunction : CType → Prop
  | .base _ _ => True
  | .ptr _ t => t.NoFunction
  | .array t _ => t.NoFunction
  | .func _ _ _ => False

mutual

/-- No function below the type is variadic. -/
def CType.FixedParams : CType → Prop
  | .base _ _ => True
  | .ptr _ t => t.FixedParams
  | .array t _ => t.FixedParams
  | .func t ps v => t.FixedParams ∧ ps.EachFixed ∧ v = false

def CParams.EachFixed : CParams → Prop
  | .nil => True
  | .cons _ t ps => t.FixedParams ∧ ps.EachFixed

end

mutual

/-- Every function below the type returns pointers to a type that is neither an array
nor a function. -/
def CType.ReturnsPointers : CType → Prop
  | .base _ _ => True
  | .ptr _ t => t.ReturnsPointers
  | .array t _ => t.ReturnsPointers
  | .func t ps _ => t.PointersOnly ∧ ps.EachReturnsPointers

def CParams.EachReturnsPointers : CParams → Prop
  | .nil => True
  | .cons _ t ps => t.ReturnsPointers ∧ ps.EachReturnsPointers

end

theorem CType.qualify_nil : ∀ t : CType, t.qualify [] = t
  | .base _ _ | .ptr _ _ | .func _ _ _ => rfl
  | .array t n => congrArg (CType.array · n) t.qualify_nil

theorem CType.qualify_append (qs qs' : List Qualifier) :
    ∀ t : CType, t.qualify (qs ++ qs') = (t.qualify qs').qualify qs
  | .base _ spec => congrArg (CType.base · spec) (List.append_assoc _ _ _)
  | .ptr _ t => congrArg (CType.ptr · t) (List.append_assoc _ _ _)
  | .array t n => congrArg (CType.array · n) (t.qualify_append qs qs')
  | .func _ _ _ => rfl

/-! ## Specifiers -/

def Qualifier.text : Qualifier → List Char
  | .const => "const".toList
  | .volatile => "volatile".toList
  | .restrict => "restrict".toList

def qualifierTokens (qs : List Qualifier) : List Token := qs.map fun q => .word q.text

def qualifierOf (word : List Char) : Option Qualifier :=
  if word = "const".toList then some .const
  else if word = "volatile".toList then some .volatile
  else if word = "restrict".toList then some .restrict
  else none

def takeQualifiers : List Token → List Qualifier × List Token
  | .word w :: ts =>
      match qualifierOf w with
      | some q => (q :: (takeQualifiers ts).1, (takeQualifiers ts).2)
      | none => ([], .word w :: ts)
  | ts => ([], ts)

def typeKeywords : List (List Char) :=
  ["void", "char", "short", "int", "long", "float", "double", "signed", "unsigned",
    "_Bool"].map String.toList

def tagKeywords : List (List Char) := ["struct", "union", "enum"].map String.toList

def isTypeKeyword : Token → Bool
  | .word w => typeKeywords.contains w
  | _ => false

/-- What follows `struct`, `union` or `enum`. -/
def readTag (keyword : List Char) : List Token → Option (List Token × List Token)
  | .word n :: rest => if isIdentifier n then some ([.word keyword, .word n], rest) else none
  | .braces b :: rest => some ([.word keyword, .braces b], rest)
  | _ => none

/-- One type specifier, and what follows it. -/
def readTypeSpecifier : List Token → Option (List Token × List Token)
  | .word w :: ts =>
      if tagKeywords.contains w then readTag w ts
      else if typeKeywords.contains w then
        some (.word w :: ts.takeWhile isTypeKeyword, ts.dropWhile isTypeKeyword)
      else if isIdentifier w then some ([.word w], ts)
      else none
  | _ => none

def readSpecifiers (ts : List Token) : Option (List Qualifier × List Token × List Token) :=
  (readTypeSpecifier (takeQualifiers ts).2).map fun read => ((takeQualifiers ts).1, read)

/-! ## Declarators -/

def star : Token := .punct '*'
def openParen : Token := .punct '('
def closeParen : Token := .punct ')'
def openBracket : Token := .punct '['
def closeBracket : Token := .punct ']'
def comma : Token := .punct ','
def dot : Token := .punct '.'

/-- The next token does not continue a declarator. -/
def EndsDeclarator (ts : List Token) : Prop :=
  ts.head? ≠ some openParen ∧ ts.head? ≠ some openBracket

mutual

/-- `Declarator base ts name type rest`: with specifiers for `base`, a declarator at
the front of `ts` declares `name` with `type` and leaves `rest`. -/
inductive Declarator : CType → List Token → List Char → CType → List Token → Prop
  | pointer {base type : CType} {ts rest : List Token} {name : List Char} :
      Declarator (.ptr (takeQualifiers ts).1 base) (takeQualifiers ts).2 name type rest →
        Declarator base (star :: ts) name type rest
  | name {base type : CType} {ts rest : List Token} {name : List Char} :
      isIdentifier name = true → Suffixes base ts type rest →
        Declarator base (.word name :: ts) name type rest
  | group {base inner type : CType} {ts ts' rest : List Token} {name : List Char} :
      Declarator inner ts name type (closeParen :: ts') → Suffixes base ts' inner rest →
        Declarator base (openParen :: ts) name type rest

/-- The bounds and parameter lists behind a name or a group. -/
inductive Suffixes : CType → List Token → CType → List Token → Prop
  | none {base : CType} {ts : List Token} : EndsDeclarator ts → Suffixes base ts base ts
  | bound {base type : CType} {w : List Char} {n : Nat} {ts rest : List Token} :
      number w = some n → Suffixes base ts type rest →
        Suffixes base (openBracket :: .word w :: closeBracket :: ts) (.array type n) rest
  | params {base type : CType} {ps : CParams} {variadic : Bool} {ts ts' rest : List Token} :
      Parameters true ts ps variadic ts' → Suffixes base ts' type rest →
        Suffixes base (openParen :: ts) (.func type ps variadic) rest

/-- A parameter list up to its closing parenthesis; `first` at its start. -/
inductive Parameters : Bool → List Token → CParams → Bool → List Token → Prop
  | void {ts : List Token} :
      Parameters true (.word "void".toList :: closeParen :: ts) .nil false ts
  | last {first : Bool} {ts rest : List Token} {name : List Char} {type : CType} :
      Parameter ts name type (closeParen :: rest) →
        Parameters first ts (.cons name type .nil) false rest
  | ellipsis {first : Bool} {ts rest : List Token} {name : List Char} {type : CType} :
      Parameter ts name type (comma :: dot :: dot :: dot :: closeParen :: rest) →
        Parameters first ts (.cons name type .nil) true rest
  | more {first variadic : Bool} {ts ts' rest : List Token} {name : List Char} {type : CType}
      {ps : CParams} :
      Parameter ts name type (comma :: ts') → Parameters false ts' ps variadic rest →
        Parameters first ts (.cons name type ps) variadic rest

/-- A parameter with a name, or without one unless it would be plain `void`. -/
inductive Parameter : List Token → List Char → CType → List Token → Prop
  | named {ts ts' rest : List Token} {qs : List Qualifier} {spec : List Token} {name : List Char}
      {type : CType} :
      readSpecifiers ts = some (qs, spec, ts') → Declarator (.base qs spec) ts' name type rest →
        Parameter ts name type rest
  | unnamed {ts rest : List Token} {qs : List Qualifier} {spec : List Token} :
      readSpecifiers ts = some (qs, spec, rest) →
        rest.head? = some comma ∨ rest.head? = some closeParen →
          spec ≠ [.word "void".toList] → Parameter ts [] (.base qs spec) rest

end

/-- The whole of `ts` declares `name` with `type`. -/
def Declaration (ts : List Token) (name : List Char) (type : CType) : Prop :=
  ∃ qs spec ts', readSpecifiers ts = some (qs, spec, ts') ∧
    Declarator (.base qs spec) ts' name type []

/-- The tokens declare something, and nothing but `name` with the structure of `type`
and with qualifiers that `level` relates to its own. -/
def Declares (level : List Qualifier → List Qualifier → Prop) (ts : List Token) (name : List Char)
    (type : CType) : Prop :=
  (∃ read, Declaration ts name read) ∧
    ∀ name' read, Declaration ts name' read → name' = name ∧ read.Matches level type

section

variable {base type : CType} {ts rest : List Token} {name : List Char}

theorem declarator_star : Declarator base (star :: ts) name type rest ↔
    Declarator (.ptr (takeQualifiers ts).1 base) (takeQualifiers ts).2 name type rest := by
  constructor
  · intro h
    cases h with
    | pointer h => exact h
  · exact .pointer

theorem declarator_word {w : List Char} : Declarator base (.word w :: ts) name type rest ↔
    name = w ∧ isIdentifier w = true ∧ Suffixes base ts type rest := by
  constructor
  · intro h
    cases h with
    | name hw h => exact ⟨rfl, hw, h⟩
  · rintro ⟨rfl, hw, h⟩
    exact .name hw h

theorem declarator_paren : Declarator base (openParen :: ts) name type rest ↔
    ∃ inner ts', Declarator inner ts name type (closeParen :: ts') ∧
      Suffixes base ts' inner rest := by
  constructor
  · intro h
    cases h with
    | group h hs => exact ⟨_, _, h, hs⟩
  · rintro ⟨inner, ts', h, hs⟩
    exact .group h hs

theorem not_declarator_punct {c : Char} (hstar : c ≠ '*') (hparen : c ≠ '(') :
    ¬Declarator base (.punct c :: ts) name type rest := by
  intro h
  cases h with
  | pointer => exact hstar rfl
  | group => exact hparen rfl

theorem suffixes_of_ends (h : EndsDeclarator ts) :
    Suffixes base ts type rest ↔ type = base ∧ rest = ts := by
  constructor
  · intro hs
    cases hs with
    | none => exact ⟨rfl, rfl⟩
    | bound => exact absurd rfl h.2
    | params => exact absurd rfl h.1
  · rintro ⟨rfl, rfl⟩
    exact .none h

theorem suffixes_bracket {w : List Char} :
    Suffixes base (openBracket :: .word w :: closeBracket :: ts) type rest ↔
      ∃ inner n, number w = some n ∧ Suffixes base ts inner rest ∧ type = .array inner n := by
  constructor
  · intro h
    cases h with
    | none h => exact absurd rfl h.2
    | bound hw h => exact ⟨_, _, hw, h, rfl⟩
  · rintro ⟨inner, n, hw, h, rfl⟩
    exact .bound hw h

theorem suffixes_paren : Suffixes base (openParen :: ts) type rest ↔
    ∃ ps variadic ts' inner, Parameters true ts ps variadic ts' ∧ Suffixes base ts' inner rest ∧
      type = .func inner ps variadic := by
  constructor
  · intro h
    cases h with
    | none h => exact absurd rfl h.1
    | params hps h => exact ⟨_, _, _, _, hps, h, rfl⟩
  · rintro ⟨ps, variadic, ts', inner, hps, h, rfl⟩
    exact .params hps h

end

/-! ## Reading specifiers -/

/-- The text of one type specifier. -/
inductive IsSpecifier : List Token → Prop
  | builtin {w : List Char} {ws : List Token} :
      typeKeywords.contains w = true → (∀ t ∈ ws, isTypeKeyword t = true) →
        IsSpecifier (.word w :: ws)
  | tag {w n : List Char} :
      tagKeywords.contains w = true → isIdentifier n = true → IsSpecifier [.word w, .word n]
  | record {w b : List Char} : tagKeywords.contains w = true → IsSpecifier [.word w, .braces b]
  | name {n : List Char} : isIdentifier n = true → IsSpecifier [.word n]

/-- The next token is no keyword. -/
def StartsPlain (ts : List Token) : Prop := ∀ w, ts.head? = some (.word w) → isIdentifier w = true

theorem startsPlain_punct (c : Char) (ts : List Token) : StartsPlain (.punct c :: ts) := by
  intro w h
  cases h

theorem startsPlain_word {w : List Char} (h : isIdentifier w = true) (ts : List Token) :
    StartsPlain (.word w :: ts) := by
  intro w' hw
  cases hw
  exact h

theorem not_keyword_of_isIdentifier {w : List Char} (h : isIdentifier w = true) :
    keywords.contains w = false := by
  unfold isIdentifier at h
  simp only [Bool.and_eq_true, Bool.not_eq_true'] at h
  exact h.2

theorem contains_keywords_of_subset {sub : List (List Char)} (hsub : sub ⊆ keywords)
    {w : List Char} (h : sub.contains w = true) : isIdentifier w = false := by
  have hmem : w ∈ keywords := hsub (List.contains_iff_mem.mp h)
  by_contra hne
  have hnot := not_keyword_of_isIdentifier (Bool.not_eq_false _ ▸ hne)
  rw [List.contains_iff_mem.mpr hmem] at hnot
  cases hnot

theorem typeKeyword_not_identifier {w : List Char} (h : typeKeywords.contains w = true) :
    isIdentifier w = false :=
  contains_keywords_of_subset (by decide) h

theorem tagKeyword_not_identifier {w : List Char} (h : tagKeywords.contains w = true) :
    isIdentifier w = false :=
  contains_keywords_of_subset (by decide) h

theorem qualifier_not_identifier (q : Qualifier) : isIdentifier q.text = false := by
  cases q <;> decide

theorem qualifierOf_text (q : Qualifier) : qualifierOf q.text = some q := by
  cases q <;> decide

theorem text_of_qualifierOf {w : List Char} {q : Qualifier} (h : qualifierOf w = some q) :
    w = q.text := by
  unfold qualifierOf at h
  split_ifs at h with hconst hvolatile hrestrict
  · cases h
    exact hconst
  · cases h
    exact hvolatile
  · cases h
    exact hrestrict

theorem takeQualifiers_word {w : List Char} {ts : List Token} (h : qualifierOf w = none) :
    takeQualifiers (.word w :: ts) = ([], .word w :: ts) := by
  rw [takeQualifiers, h]

theorem takeQualifiers_plain {ts : List Token} (h : StartsPlain ts) :
    takeQualifiers ts = ([], ts) := by
  cases ts with
  | nil => rfl
  | cons t ts =>
      cases t with
      | word w =>
          apply takeQualifiers_word
          cases hq : qualifierOf w with
          | none => rfl
          | some q =>
              have hid := h w rfl
              rw [text_of_qualifierOf hq, qualifier_not_identifier] at hid
              cases hid
      | punct c => rfl
      | braces b => rfl

/-- Listed qualifiers are read in front of what has none. -/
theorem takeQualifiers_append {ts : List Token} (h : takeQualifiers ts = ([], ts))
    (qs : List Qualifier) : takeQualifiers (qualifierTokens qs ++ ts) = (qs, ts) := by
  induction qs with
  | nil => exact h
  | cons q qs ih =>
      change takeQualifiers (.word q.text :: (qualifierTokens qs ++ ts)) = _
      rw [takeQualifiers, qualifierOf_text]
      simp only [ih]

theorem qualifierOf_of_keyword {w : List Char}
    (h : typeKeywords.contains w = true ∨ tagKeywords.contains w = true) : qualifierOf w = none := by
  have hall : ∀ w ∈ typeKeywords ++ tagKeywords, qualifierOf w = none := by
    decide
  apply hall
  rw [List.mem_append]
  exact h.imp List.contains_iff_mem.mp List.contains_iff_mem.mp

theorem IsSpecifier.takeQualifiers {spec : List Token} (h : IsSpecifier spec) (ts : List Token) :
    takeQualifiers (spec ++ ts) = ([], spec ++ ts) := by
  cases h with
  | builtin hw _ => exact takeQualifiers_word (qualifierOf_of_keyword (Or.inl hw))
  | tag hw _ => exact takeQualifiers_word (qualifierOf_of_keyword (Or.inr hw))
  | record hw => exact takeQualifiers_word (qualifierOf_of_keyword (Or.inr hw))
  | name hn => exact takeQualifiers_plain (startsPlain_word hn ts)

theorem isTypeKeyword_of_startsPlain {ts : List Token} (h : StartsPlain ts) :
    ∀ t ∈ ts.head?, isTypeKeyword t = false := by
  intro t ht
  cases t with
  | word w =>
      have hid := h w ht
      by_contra hne
      have hkeyword : typeKeywords.contains w = true := by
        simpa [isTypeKeyword] using hne
      rw [typeKeyword_not_identifier hkeyword] at hid
      cases hid
  | punct c => rfl
  | braces b => rfl

theorem IsSpecifier.readTypeSpecifier {spec ts : List Token} (h : IsSpecifier spec)
    (hts : StartsPlain ts) : readTypeSpecifier (spec ++ ts) = some (spec, ts) := by
  have htag : ∀ {w : List Char}, isIdentifier w = true ∨ typeKeywords.contains w = true →
      tagKeywords.contains w = false := by
    intro w hw
    by_contra hne
    have hmem : tagKeywords.contains w = true := by simpa using hne
    rcases hw with hw | hw
    · rw [tagKeyword_not_identifier hmem] at hw
      cases hw
    · have hdisjoint : ∀ w ∈ tagKeywords, typeKeywords.contains w = false := by
        decide
      rw [hdisjoint w (List.contains_iff_mem.mp hmem)] at hw
      cases hw
  cases h with
  | @builtin w ws hw hws =>
      have hstop := isTypeKeyword_of_startsPlain hts
      have htake : (ws ++ ts).takeWhile isTypeKeyword = ws := by
        rw [List.takeWhile_append_of_pos hws]
        cases ts with
        | nil => simp
        | cons t ts =>
            rw [List.takeWhile_cons_of_neg (by simp [hstop t rfl]), List.append_nil]
      have hdrop : (ws ++ ts).dropWhile isTypeKeyword = ts := by
        rw [List.dropWhile_append_of_pos hws]
        cases ts with
        | nil => simp
        | cons t ts => rw [List.dropWhile_cons_of_neg (by simp [hstop t rfl])]
      change CDeclaration.readTypeSpecifier (.word w :: (ws ++ ts)) = _
      rw [CDeclaration.readTypeSpecifier, htag (Or.inr hw), if_neg Bool.false_ne_true, if_pos hw, htake,
        hdrop]
  | @tag w n hw hn =>
      change CDeclaration.readTypeSpecifier (.word w :: .word n :: ts) = _
      rw [CDeclaration.readTypeSpecifier, if_pos hw, readTag, if_pos hn]
  | @record w b hw =>
      change CDeclaration.readTypeSpecifier (.word w :: .braces b :: ts) = _
      rw [CDeclaration.readTypeSpecifier, if_pos hw, readTag]
  | @name n hn =>
      have hkeyword : typeKeywords.contains n = false := by
        by_contra hne
        rw [typeKeyword_not_identifier (by simpa using hne)] at hn
        cases hn
      change CDeclaration.readTypeSpecifier (.word n :: ts) = _
      rw [CDeclaration.readTypeSpecifier, htag (Or.inl hn), if_neg Bool.false_ne_true, hkeyword,
        if_neg Bool.false_ne_true, if_pos hn]

/-- Qualifiers and one type specifier are read as they are listed. -/
theorem readSpecifiers_eq {spec ts : List Token} (h : IsSpecifier spec) (hts : StartsPlain ts)
    (qs : List Qualifier) :
    readSpecifiers (qualifierTokens qs ++ spec ++ ts) = some (qs, spec, ts) := by
  unfold readSpecifiers
  rw [List.append_assoc, takeQualifiers_append (h.takeQualifiers ts), h.readTypeSpecifier hts]
  rfl

end Support.CDeclaration
