import MinCorehdr.Support.CConstant
import MinCorehdr.Support.CRecord
import MinCorehdr.Support.Sequence

/-!
# Translation units of C

A text is read without its preprocessor directives, as one external declaration behind
the other: tags, enums, records and typedefs.
-/

namespace Support.CUnit

open Support.CConstant Support.CDeclaration Support.CRecord Support.CToken Support.Sequence

/-! ## Directives -/

/-- Where in a line the text stands. -/
inductive Line
  | start | code | directive
  deriving DecidableEq, Repr

/-- The text without the lines that start with `#`. -/
def dropDirectives : Line → List Char → List Char
  | _, [] => []
  | line, c :: text =>
      if c = '\n' then c :: dropDirectives .start text
      else if line = .directive ∨ line = .start ∧ c = '#' then dropDirectives .directive text
      else c :: dropDirectives (if line = .start ∧ isBlank c then .start else .code) text

/-- These lines are no directives. -/
def CodeLines (text : List Char) : Prop :=
  ∀ rest, dropDirectives .start (text ++ rest) = text ++ dropDirectives .start rest

theorem CodeLines.nil : CodeLines [] := fun _ => rfl

theorem CodeLines.append {a b : List Char} (ha : CodeLines a) (hb : CodeLines b) :
    CodeLines (a ++ b) := by
  intro rest
  rw [List.append_assoc, ha, hb, List.append_assoc]

theorem dropDirectives_code {text : List Char} (h : '#' ∉ text) :
    ∀ {line : Line}, line ≠ .directive → ∀ rest,
      dropDirectives line (text ++ '\n' :: rest) = text ++ '\n' :: dropDirectives .start rest := by
  induction text with
  | nil =>
      intro line _ rest
      simp [dropDirectives]
  | cons c text ih =>
      intro line hline rest
      obtain ⟨hc, htext⟩ : '#' ≠ c ∧ '#' ∉ text := by
        simpa using h
      rw [List.cons_append, dropDirectives]
      by_cases hnewline : c = '\n'
      · rw [if_pos hnewline, ih htext (by decide)]
        rfl
      · have hcode : ¬(line = .directive ∨ line = .start ∧ c = '#') := by
          rintro (hdirective | ⟨_, hhash⟩)
          · exact hline hdirective
          · exact hc hhash.symm
        have hnext : (if line = .start ∧ isBlank c = true then Line.start else .code) ≠ .directive := by
          split <;> decide
        rw [if_neg hnewline, if_neg hcode, ih htext hnext]
        rfl

/-- Whole lines without a `#`. -/
theorem CodeLines.of_not_mem {text : List Char} (h : '#' ∉ text) : CodeLines (text ++ ['\n']) := by
  intro rest
  rw [List.append_assoc, List.append_assoc]
  exact dropDirectives_code h (by decide) rest

theorem dropDirectives_rest {text : List Char} (h : '\n' ∉ text) (rest : List Char) :
    dropDirectives .directive (text ++ '\n' :: rest) = '\n' :: dropDirectives .start rest := by
  induction text with
  | nil => simp [dropDirectives]
  | cons c text ih =>
      obtain ⟨hc, htext⟩ : '\n' ≠ c ∧ '\n' ∉ text := by
        simpa using h
      rw [List.cons_append, dropDirectives, if_neg (Ne.symm hc), if_pos (Or.inl rfl), ih htext]

/-- Of a directive its newline is left. -/
theorem dropDirectives_directive {text : List Char} (h : '\n' ∉ text) (rest : List Char) :
    dropDirectives .start ('#' :: text ++ '\n' :: rest) = '\n' :: dropDirectives .start rest := by
  rw [List.cons_append, dropDirectives, if_neg (by decide), if_pos (Or.inr ⟨rfl, rfl⟩),
    dropDirectives_rest h]

/-! ## Enumerators -/

def equals : Token := .punct '='
def minus : Token := .punct '-'

/-- The tokens of a constant, and its value. -/
inductive Constant : List Token → Int → Prop
  | literal {w : List Char} {value : Int} :
      constantValue w = some value → Constant [.word w] value
  | negative {w : List Char} {value : Int} :
      constantValue ('-' :: w) = some value → Constant [minus, .word w] value

inductive EnumeratorList : List Token → List (List Char × Int) → Prop
  | last {name : List Char} {ts : List Token} {value : Int} :
      isIdentifier name = true → Constant ts value →
        EnumeratorList (.word name :: equals :: ts) [(name, value)]
  | cons {name : List Char} {ts rest : List Token} {value : Int} {more : List (List Char × Int)} :
      isIdentifier name = true → Constant ts value → EnumeratorList rest more →
        EnumeratorList (.word name :: equals :: (ts ++ comma :: rest)) ((name, value) :: more)

def constantTokens : List Char → List Token
  | '-' :: literal => [minus, .word literal]
  | literal => [.word literal]

/-- The tokens of constants, each a name and the text of its value. -/
def enumeratorTokens : List (List Char × List Char) → List Token
  | [] => []
  | [last] => .word last.1 :: equals :: constantTokens last.2
  | entry :: entries =>
      .word entry.1 :: equals :: (constantTokens entry.2 ++ comma :: enumeratorTokens entries)

theorem constantTokens_cases (text : List Char) :
    (∃ w, text = '-' :: w ∧ constantTokens text = [minus, .word w]) ∨
      constantTokens text = [.word text] := by
  unfold constantTokens
  split
  next literal => exact Or.inl ⟨literal, rfl, rfl⟩
  next => exact Or.inr rfl

theorem constant_iff {text : List Char} {value : Int} :
    Constant (constantTokens text) value ↔ constantValue text = some value := by
  rcases constantTokens_cases text with ⟨w, rfl, htokens⟩ | htokens
  · rw [htokens]
    constructor
    · intro h
      cases h with
      | negative h => exact h
    · exact .negative
  · rw [htokens]
    constructor
    · intro h
      cases h with
      | literal h => exact h
    · exact .literal

theorem comma_not_mem_constantTokens (text : List Char) : comma ∉ constantTokens text := by
  rcases constantTokens_cases text with ⟨w, _, htokens⟩ | htokens <;> rw [htokens] <;>
    simp [comma, minus]

theorem Constant.comma_not_mem {ts : List Token} {value : Int} (h : Constant ts value) :
    comma ∉ ts := by
  cases h <;> simp [comma, minus]

theorem append_comma_inj {ts ts' us us' : List Token} (h : comma ∉ ts) (h' : comma ∉ ts') :
    ts ++ comma :: us = ts' ++ comma :: us' ↔ ts = ts' ∧ us = us' := by
  constructor
  · intro heq
    obtain ⟨more, rfl, hrest⟩ | ⟨more, rfl, hrest⟩ := List.append_eq_append_iff.mp heq
    · cases more with
      | nil => simpa using hrest
      | cons t more =>
          obtain ⟨rfl, _⟩ : comma = t ∧ _ := by simpa using hrest
          simp at h'
    · cases more with
      | nil => simpa [eq_comm] using hrest
      | cons t more =>
          obtain ⟨rfl, _⟩ : comma = t ∧ _ := by simpa using hrest
          simp at h
  · rintro ⟨rfl, rfl⟩
    rfl

section

variable {name text : List Char} {constants : List (List Char × Int)}

theorem enumeratorList_last_iff :
    EnumeratorList (.word name :: equals :: constantTokens text) constants ↔
      isIdentifier name = true ∧ ∃ value, constantValue text = some value ∧
        constants = [(name, value)] := by
  constructor
  · intro h
    generalize htokens : constantTokens text = tokens at h
    cases h with
    | last hname hvalue =>
        rw [← htokens] at hvalue
        exact ⟨hname, _, constant_iff.mp hvalue, rfl⟩
    | cons _ _ _ =>
        have hcomma := comma_not_mem_constantTokens text
        rw [htokens] at hcomma
        simp at hcomma
  · rintro ⟨hname, value, hvalue, rfl⟩
    exact .last hname (constant_iff.mpr hvalue)

theorem enumeratorList_cons_iff {rest : List Token} :
    EnumeratorList (.word name :: equals :: (constantTokens text ++ comma :: rest)) constants ↔
      isIdentifier name = true ∧ ∃ value more, constantValue text = some value ∧
        EnumeratorList rest more ∧ constants = (name, value) :: more := by
  constructor
  · intro h
    generalize htokens : constantTokens text ++ comma :: rest = tokens at h
    cases h with
    | last _ hvalue =>
        have hcomma := hvalue.comma_not_mem
        rw [← htokens] at hcomma
        simp at hcomma
    | cons hname hvalue hrest =>
        obtain ⟨rfl, rfl⟩ := (append_comma_inj (comma_not_mem_constantTokens text)
          hvalue.comma_not_mem).mp htokens
        exact ⟨hname, _, _, constant_iff.mp hvalue, hrest, rfl⟩
  · rintro ⟨hname, value, more, hvalue, hrest, rfl⟩
    exact .cons hname (constant_iff.mpr hvalue) hrest

end

/-- The list is read where it is not empty and each constant has a value. -/
theorem enumeratorList_iff {entries : List (List Char × List Char)}
    (hnames : ∀ entry ∈ entries, isIdentifier entry.1 = true) :
    ∀ constants, EnumeratorList (enumeratorTokens entries) constants ↔ entries ≠ [] ∧
      List.Forall₂ (fun entry constant => constant.1 = entry.1 ∧
        constantValue entry.2 = some constant.2) entries constants := by
  induction entries with
  | nil =>
      intro constants
      refine iff_of_false (fun h => ?_) (fun h => h.1 rfl)
      cases h
  | cons entry entries ih =>
      have hname := hnames entry List.mem_cons_self
      have hrest := ih fun other hother => hnames other (List.mem_cons_of_mem _ hother)
      intro constants
      rw [List.forall₂_cons_left_iff, and_iff_right (List.cons_ne_nil entry entries)]
      cases entries with
      | nil =>
          rw [enumeratorTokens, enumeratorList_last_iff]
          constructor
          · rintro ⟨_, value, hvalue, rfl⟩
            exact ⟨_, [], ⟨rfl, hvalue⟩, .nil, rfl⟩
          · rintro ⟨⟨name, value⟩, more, ⟨hsame, hvalue⟩, hmore, rfl⟩
            rw [List.forall₂_nil_left_iff] at hmore
            rw [hmore, show name = entry.1 from hsame]
            exact ⟨hname, value, hvalue, rfl⟩
      | cons next entries =>
          rw [enumeratorTokens, enumeratorList_cons_iff]
          · simp only [hrest, ne_eq, reduceCtorEq, not_false_eq_true, true_and]
            constructor
            · rintro ⟨_, value, more, hvalue, hmore, rfl⟩
              exact ⟨_, more, ⟨rfl, hvalue⟩, hmore, rfl⟩
            · rintro ⟨⟨name, value⟩, more, ⟨hsame, hvalue⟩, hmore, rfl⟩
              rw [show name = entry.1 from hsame]
              exact ⟨hname, value, more, hvalue, hmore, rfl⟩
          · exact List.cons_ne_nil next entries

/-! ## External declarations -/

/-- An external declaration as it is read; an enum without a tag has the empty name. -/
inductive External
  | tag (isUnion : Bool) (name : List Char)
  | enum (name : List Char) (constants : List (List Char × Int))
  | record (isUnion : Bool) (name : List Char) (members : List Member)
  | typedef (name : List Char) (type : CType)

inductive ExternalDeclaration : List Token → External → List Token → Prop
  | tag {isUnion : Bool} {name : List Char} {rest : List Token} :
      isIdentifier name = true →
        ExternalDeclaration (.word (keywordOf isUnion) :: .word name :: semicolon :: rest)
          (.tag isUnion name) rest
  | enum {name body : List Char} {constants : List (List Char × Int)} {rest : List Token} :
      isIdentifier name = true → EnumeratorList (lex body) constants →
        ExternalDeclaration (.word "enum".toList :: .word name :: .braces body :: semicolon :: rest)
          (.enum name constants) rest
  | constants {body : List Char} {constants : List (List Char × Int)} {rest : List Token} :
      EnumeratorList (lex body) constants →
        ExternalDeclaration (.word "enum".toList :: .braces body :: semicolon :: rest)
          (.enum [] constants) rest
  | record {isUnion : Bool} {name body : List Char} {members : List Member} {rest : List Token} :
      isIdentifier name = true → ReadsAll DeclaresMember (lex body) members →
        ExternalDeclaration
          (.word (keywordOf isUnion) :: .word name :: .braces body :: semicolon :: rest)
          (.record isUnion name members) rest
  | typedef {ts rest : List Token} {name : List Char} {type : CType} :
      name ≠ [] → MemberDeclaration ts name type none rest →
        ExternalDeclaration (.word "typedef".toList :: ts) (.typedef name type) rest

/-- What a translation unit declares, in order. -/
def TranslationUnit (text : List Char) (ds : List External) : Prop :=
  ReadsAll ExternalDeclaration (lex (dropDirectives .start text)) ds

/-! ## What each declaration is read as -/

theorem keywordOf_ne {isUnion : Bool} :
    keywordOf isUnion ≠ "enum".toList ∧ keywordOf isUnion ≠ "typedef".toList := by
  cases isUnion <;> decide

theorem keywordOf_injective {isUnion isUnion' : Bool} (h : keywordOf isUnion = keywordOf isUnion') :
    isUnion = isUnion' := by
  cases isUnion <;> cases isUnion' <;> first | rfl | exact absurd h (by decide)

theorem not_externalDeclaration_nil (d : External) (rest : List Token) :
    ¬ExternalDeclaration [] d rest := by
  intro h
  cases h

section

variable {name body : List Char} {isUnion : Bool} {ts rest : List Token} {d : External}

theorem tag_iff (hname : isIdentifier name = true) :
    ExternalDeclaration (.word (keywordOf isUnion) :: .word name :: semicolon :: ts) d rest ↔
      d = .tag isUnion name ∧ rest = ts := by
  obtain ⟨henum, htypedef⟩ := @keywordOf_ne isUnion
  constructor
  · intro h
    generalize hkeyword : keywordOf isUnion = keyword at h henum htypedef
    cases h with
    | tag _ => exact ⟨by rw [keywordOf_injective hkeyword], rfl⟩
    | typedef _ _ => exact absurd rfl htypedef
  · rintro ⟨rfl, rfl⟩
    exact .tag hname

theorem record_iff (hname : isIdentifier name = true) :
    ExternalDeclaration
        (.word (keywordOf isUnion) :: .word name :: .braces body :: semicolon :: ts) d rest ↔
      (∃ members, ReadsAll DeclaresMember (lex body) members ∧ d = .record isUnion name members) ∧
        rest = ts := by
  obtain ⟨henum, htypedef⟩ := @keywordOf_ne isUnion
  constructor
  · intro h
    generalize hkeyword : keywordOf isUnion = keyword at h henum htypedef
    cases h with
    | record _ hmembers => exact ⟨⟨_, hmembers, by rw [keywordOf_injective hkeyword]⟩, rfl⟩
    | enum _ _ => exact absurd rfl henum
    | typedef _ _ => exact absurd rfl htypedef
  · rintro ⟨⟨members, hmembers, rfl⟩, rfl⟩
    exact .record hname hmembers

theorem enum_iff (hname : isIdentifier name = true) :
    ExternalDeclaration (.word "enum".toList :: .word name :: .braces body :: semicolon :: ts) d rest ↔
      (∃ constants, EnumeratorList (lex body) constants ∧ d = .enum name constants) ∧ rest = ts := by
  constructor
  · intro h
    generalize hkeyword : "enum".toList = keyword at h
    cases h with
    | record _ _ => exact absurd hkeyword.symm keywordOf_ne.1
    | enum _ hconstants => exact ⟨⟨_, hconstants, rfl⟩, rfl⟩
    | typedef _ _ => exact absurd hkeyword (by decide)
  · rintro ⟨⟨constants, hconstants, rfl⟩, rfl⟩
    exact .enum hname hconstants

theorem constants_iff :
    ExternalDeclaration (.word "enum".toList :: .braces body :: semicolon :: ts) d rest ↔
      (∃ constants, EnumeratorList (lex body) constants ∧ d = .enum [] constants) ∧ rest = ts := by
  constructor
  · intro h
    generalize hkeyword : "enum".toList = keyword at h
    cases h with
    | constants hconstants => exact ⟨⟨_, hconstants, rfl⟩, rfl⟩
    | typedef _ _ => exact absurd hkeyword (by decide)
  · rintro ⟨⟨constants, hconstants, rfl⟩, rfl⟩
    exact .constants hconstants

theorem typedef_iff :
    ExternalDeclaration (.word "typedef".toList :: ts) d rest ↔
      ∃ name type, name ≠ [] ∧ MemberDeclaration ts name type none rest ∧ d = .typedef name type := by
  constructor
  · intro h
    generalize hkeyword : "typedef".toList = keyword at h
    cases h with
    | tag _ => exact absurd hkeyword.symm keywordOf_ne.2
    | record _ _ => exact absurd hkeyword.symm keywordOf_ne.2
    | enum _ _ => exact absurd hkeyword (by decide)
    | constants _ => exact absurd hkeyword (by decide)
    | typedef hname hmember => exact ⟨_, _, hname, hmember, rfl⟩
  · rintro ⟨name, type, hname, hmember, rfl⟩
    exact .typedef hname hmember

end

end Support.CUnit
