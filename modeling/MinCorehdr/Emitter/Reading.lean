import MinCorehdr.Emitter.TypeTree
import MinCorehdr.Support.CDeclarator

/-!
# Reading a printed declaration

The text of a tree consists of qualifiers, the specifier of its leaf, and what the
declarator has grown to.  It is read back at most in one way, and it is read back
at all exactly where every function returns its leaf through pointers alone.
-/

namespace MinCorehdr

open Support.CDeclaration Support.CToken

/-! ## Tokens of a tree -/

/-- The qualifiers that are printed in front of the leaf's specifier. -/
def Tree.front : Tree → List Qualifier
  | .leaf run _ => shown run
  | .ptr _ t => t.front
  | .array run t _ => shown (arrayRun run t) ++ t.front
  | .tag run t => shown run ++ t.front
  | .func run t _ => shown run ++ t.front

/-- The specifier of the leaf. -/
def Tree.spec : Tree → List Token
  | .leaf _ text => lex text
  | .ptr _ t | .array _ t _ | .tag _ t | .func _ t _ => t.spec

mutual

/-- What follows the specifier when the tree is printed around a declarator. -/
def Tree.tail : Tree → List Token → List Token
  | .leaf _ _, d => d
  | .ptr run t, d => t.tail (star :: qualifierTokens (shown run) ++ d)
  | .array _ t n, d => t.tail (grouped d ++ bound (decimal n))
  | .tag _ t, d => t.tail d
  | .func _ t ps, d => t.tail [] ++ grouped d ++ openParen :: ps.tokens true ++ [closeParen]

def TreeParams.tokens : Bool → TreeParams → List Token
  | first, .nil => if first then [.word "void".toList] else []
  | first, .void _ ps =>
      (if first then [] else [comma]) ++ .word "void".toList :: ps.tokens false
  | first, .cons name t ps =>
      (if first then [] else [comma]) ++
        (qualifierTokens t.front ++ t.spec ++ t.tail [.word name]) ++ ps.tokens false

end

def Tree.tokens (t : Tree) (d : List Token) : List Token :=
  qualifierTokens t.front ++ t.spec ++ t.tail d

/-! ## Trees that C can name -/

/-- The text of a leaf is one type specifier. -/
structure IsLeafText (text : CString) : Prop where
  lexes : Lexes text (lex text)
  specifier : IsSpecifier (lex text)
  balanced : Balanced text

mutual

/-- Every leaf is a type specifier and every parameter has an identifier for a name. -/
def Tree.WellNamed : Tree → Prop
  | .leaf _ text => IsLeafText text
  | .ptr _ t | .array _ t _ | .tag _ t => t.WellNamed
  | .func _ t ps => t.WellNamed ∧ ps.WellNamed

def TreeParams.WellNamed : TreeParams → Prop
  | .nil => True
  | .void _ ps => ps.WellNamed
  | .cons name t ps => isIdentifier name = true ∧ t.WellNamed ∧ ps.WellNamed

end

/-- Nothing but pointers above the leaf. -/
def Tree.StarLeaf : Tree → Prop
  | .leaf _ _ => True
  | .ptr _ t | .tag _ t => t.StarLeaf
  | .array _ _ _ | .func _ _ _ => False

def TreeParams.isNil : TreeParams → Bool
  | .nil => true
  | _ => false

mutual

/-- Every function returns its leaf through pointers alone, and every parameter list
has a fixed parameter or no parameter. -/
def Tree.Readable : Tree → Prop
  | .leaf _ _ => True
  | .ptr _ t | .array _ t _ | .tag _ t => t.Readable
  | .func _ t ps => t.StarLeaf ∧ ps.Readable true

def TreeParams.Readable : Bool → TreeParams → Prop
  | _, .nil => True
  | first, .void _ ps => first = true ∧ ps.isNil = true
  | _, .cons _ t ps => t.Readable ∧ ps.Readable false

end

mutual

/-- The type a printed tree is read as, with `front` for the qualifiers in front of
the leaf. -/
def Tree.printed (front : List Qualifier) : Tree → CType
  | .leaf _ text => .base front (lex text)
  | .ptr run t => .ptr (shown run) (t.printed front)
  | .array _ t n => .array (t.printed front) n
  | .tag _ t => t.printed front
  | .func _ t ps => .func (t.printed front) ps.printed false

def TreeParams.printed : TreeParams → CParams
  | .nil => .nil
  | .void _ ps => ps.printed
  | .cons name t ps => .cons name (t.printed t.front) ps.printed

end

/-! ## Stars above a leaf -/

theorem Tree.opens_tail : ∀ (t : Tree), t.StarLeaf → ∀ {a : List Token} {k : CType → CType},
    Opens a k → Nameless a → ∀ {front : List Qualifier} {ts : List Token} {name : CString}
      {type : CType} {rest : List Token}, StartsPlain ts →
        (Declarator (.base front t.spec) (t.tail a ++ ts) name type rest ↔
          Declarator (k (t.printed front)) ts name type rest)
  | .leaf _ _, _, _, _, ha, _, _, _, _, _, _, hts => ha.2 _ _ _ _ _ hts
  | .ptr run t, hstar, _, _, ha, hname, _, _, _, _, _, hts =>
      t.opens_tail hstar (ha.ptr hname (shown run)) (hname.ptr (shown run)) hts
  | .tag _ t, hstar, _, _, ha, hname, _, _, _, _, _, hts => t.opens_tail hstar ha hname hts

theorem Tree.WellNamed.isSpecifier : ∀ {t : Tree}, t.WellNamed → IsSpecifier t.spec
  | .leaf _ _, h => h.specifier
  | .ptr _ t, h => @isSpecifier t h
  | .array _ t _, h => @isSpecifier t h
  | .tag _ t, h => @isSpecifier t h
  | .func _ t _, h => @isSpecifier t h.1

/-! ## What is known of a tree and of a parameter list -/

structure TreeFacts (t : Tree) : Prop where
  nameless : ∀ a, Nameless a → Nameless (t.tail a)
  stuck : ∀ a, Nameless a → Stuck a ∨ ¬t.StarLeaf → Stuck (t.tail a)
  firm : ∀ d, Firm d → Firm (t.tail d)
  starts : ∀ d, StartsDeclarator d → StartsDeclarator (t.tail d)
  read : ∀ d n k, Accepts d n k → ∀ front ts name type rest, EndsDeclarator ts →
    (Declarator (.base front t.spec) (t.tail d ++ ts) name type rest ↔
      t.Readable ∧ name = n ∧ type = k (t.printed front) ∧ rest = ts)

structure ParamFacts (ps : TreeParams) : Prop where
  noName : ∀ base ts name type ts',
    ¬Declarator base (ps.tokens true ++ closeParen :: ts) name type (closeParen :: ts')
  read : ∀ first, first = true ∨ ps.isNil = false → ∀ ts params variadic rest,
    (Parameters first (ps.tokens true ++ closeParen :: ts) params variadic rest ↔
      ps.Readable first ∧ params = ps.printed ∧ variadic = false ∧ rest = ts)

theorem Tree.leaf_facts (run : List Qualifier) (text : CString) : TreeFacts (.leaf run text) where
  nameless := fun _ h => h
  stuck := fun _ _ h => h.resolve_right fun hnot => hnot trivial
  firm := fun _ h => h
  starts := fun _ h => h
  read := by
    intro d n k hd front ts name type rest hts
    change Declarator (.base front (lex text)) (d ++ ts) name type rest ↔ True ∧ _
    rw [true_and, hd.read _ _ _ _ _ hts]
    rfl

section

variable {t : Tree}

theorem TreeFacts.tag (h : TreeFacts t) (run : List Qualifier) : TreeFacts (.tag run t) where
  nameless := h.nameless
  stuck := h.stuck
  firm := h.firm
  starts := h.starts
  read := h.read

theorem TreeFacts.ptr (h : TreeFacts t) (run : List Qualifier) : TreeFacts (.ptr run t) where
  nameless := fun _ ha => h.nameless _ (ha.ptr (shown run))
  stuck := fun _ ha hstuck => h.stuck _ (ha.ptr (shown run))
    (hstuck.imp_left fun hs => hs.ptr ha (shown run))
  firm := fun _ _ => h.firm _ (firm_star _)
  starts := fun _ _ => h.starts _ ⟨star, _, rfl, Or.inl rfl⟩
  read := fun _ _ _ hd => h.read _ _ _ (hd.ptr (shown run))

theorem TreeFacts.array (h : TreeFacts t) (run : List Qualifier) (n : Nat) :
    TreeFacts (.array run t n) where
  nameless := fun _ ha => h.nameless _ (ha.array n)
  stuck := fun _ ha _ => h.stuck _ (ha.array n) (Or.inl (ha.stuck_array n))
  firm := fun _ hd => h.firm _ (hd.grouped.append _)
  starts := fun _ hd => h.starts _ (hd.grouped.append _)
  read := fun _ _ _ hd => h.read _ _ _ (hd.array n)

end

/-! ## Functions -/

section

variable {t : Tree} {ps : TreeParams}

/-- A parameter list in parentheses, read as a suffix. -/
theorem ParamFacts.suffixes (h : ParamFacts ps) {base : CType} {ts : List Token} {type : CType}
    {rest : List Token} :
    Suffixes base (openParen :: ps.tokens true ++ [closeParen] ++ ts) type rest ↔
      ps.Readable true ∧ ∃ inner, Suffixes base ts inner rest ∧
        type = .func inner ps.printed false := by
  change Suffixes base (openParen :: (ps.tokens true ++ [closeParen] ++ ts)) type rest ↔ _
  rw [suffixes_paren, List.append_assoc]
  constructor
  · rintro ⟨params, variadic, ts', inner, hps, hs, rfl⟩
    obtain ⟨hread, rfl, rfl, rfl⟩ := (h.read true (Or.inl rfl) ts params variadic ts').mp hps
    exact ⟨hread, inner, hs, rfl⟩
  · rintro ⟨hread, inner, hs, rfl⟩
    exact ⟨_, _, ts, inner, (h.read true (Or.inl rfl) ts _ _ _).mpr ⟨hread, rfl, rfl, rfl⟩, hs, rfl⟩

theorem ParamFacts.passes (h : ParamFacts ps) :
    Passes (openParen :: ps.tokens true ++ [closeParen]) := by
  intro base ts type rest hs
  obtain ⟨_, inner, hs, _⟩ := h.suffixes.mp hs
  exact Or.inr ⟨base, inner, hs⟩

theorem Tree.tail_func (run : List Qualifier) (t : Tree) (ps : TreeParams) (d : List Token) :
    (Tree.func run t ps).tail d =
      t.tail [] ++ (grouped d ++ (openParen :: ps.tokens true ++ [closeParen])) := by
  simp [Tree.tail]

/-- A function without a name declares nothing. -/
theorem TreeFacts.stuck_func (h : TreeFacts t) (hps : ParamFacts ps) {a : List Token}
    (ha : Nameless a) : Stuck (t.tail [] ++ (grouped a ++ (openParen :: ps.tokens true ++ [closeParen]))) := by
  by_cases hstar : t.StarLeaf
  · have hinner : Stuck (grouped a ++ (openParen :: ps.tokens true ++ [closeParen])) := by
      by_cases hnil : a = []
      · subst hnil
        refine ⟨List.cons_ne_nil _ _, ?_⟩
        intro base ts name type rest hd
        change Declarator base (openParen :: (ps.tokens true ++ [closeParen] ++ ts)) name type rest at hd
        obtain ⟨inner, ts', hd, _⟩ := declarator_paren.mp hd
        rw [List.append_assoc] at hd
        exact hps.noName _ _ _ _ _ hd
      · exact (ha.stuck_grouped hnil).append _
    refine ⟨fun hnil => hinner.1 (List.append_eq_nil_iff.mp hnil).2, ?_⟩
    intro base ts name type rest hd
    rcases (h.nameless [] Nameless.nil).opens_or_stuck with ⟨k, hk⟩ | hstuck
    · rw [List.append_assoc] at hd
      have hplain : StartsPlain (grouped a ++ (openParen :: ps.tokens true ++ [closeParen]) ++ ts) := by
        have hstarts : ∀ tok, (grouped a ++ (openParen :: ps.tokens true ++ [closeParen]) ++ ts).head? =
            some tok → tok = star ∨ tok = openParen ∨ tok = openBracket := by
          rw [List.append_assoc]
          exact starts_append ha.grouped_starts
            fun _ htok => Or.inr (Or.inl (Option.some.inj htok).symm)
        intro w hw
        rcases hstarts _ hw with heq | heq | heq <;> cases heq
      exact hinner.2 _ _ _ _ _ ((hk.2 _ _ _ _ _ hplain).mp hd)
    · exact (hstuck.append _).2 _ _ _ _ _ hd
  · exact (h.stuck [] Nameless.nil (Or.inr hstar)).append _

theorem TreeFacts.func (h : TreeFacts t) (hps : ParamFacts ps) (run : List Qualifier) :
    TreeFacts (.func run t ps) where
  nameless := by
    intro a ha
    have hnil := h.nameless [] Nameless.nil
    rw [Tree.tail_func]
    constructor
    · exact starts_append hnil.starts (starts_append ha.grouped_starts
        fun _ htok => Or.inr (Or.inl (Option.some.inj htok).symm))
    · exact hnil.passes.append (ha.passes_grouped.append hps.passes)
    · exact Or.inr (h.stuck_func hps ha)
  stuck := by
    intro a ha _
    rw [Tree.tail_func]
    exact h.stuck_func hps ha
  firm := by
    intro d hd
    rw [Tree.tail_func]
    exact (h.nameless [] Nameless.nil).passes.firm (hd.grouped.append _)
  starts := by
    intro d hd
    rw [Tree.tail_func]
    by_cases hnil : t.tail [] = []
    · rw [hnil]
      exact hd.grouped.append _
    · exact ((h.nameless [] Nameless.nil).startsDeclarator hnil).append _
  read := by
    intro d n k hd front ts name type rest hts
    rw [Tree.tail_func, List.append_assoc]
    change Declarator (.base front t.spec) _ name type rest ↔
      (t.StarLeaf ∧ ps.Readable true) ∧ name = n ∧
        type = k (.func (t.printed front) ps.printed false) ∧ rest = ts
    by_cases hstar : t.StarLeaf
    · rw [t.opens_tail hstar Opens.nil Nameless.nil
        ((hd.starts.grouped.append _).append ts).plain, List.append_assoc, hd.grouped]
      constructor
      · rintro ⟨rfl, inner, hs, rfl⟩
        obtain ⟨hread, result, hresult, rfl⟩ := hps.suffixes.mp hs
        obtain ⟨rfl, rfl⟩ := (suffixes_of_ends hts).mp hresult
        exact ⟨⟨hstar, hread⟩, rfl, rfl, rfl⟩
      · rintro ⟨⟨_, hread⟩, rfl, rfl, rfl⟩
        exact ⟨rfl, _, hps.suffixes.mpr ⟨hread, _, (suffixes_of_ends hts).mpr ⟨rfl, rfl⟩, rfl⟩, rfl⟩
    · constructor
      · intro hdecl
        exact absurd hdecl ((h.stuck [] Nameless.nil (Or.inr hstar)).2 _ _ _ _ _)
      · rintro ⟨⟨hstar', _⟩, _⟩
        exact absurd hstar' hstar

end

/-! ## Parameter lists -/

/-- What may follow a parameter. -/
def EndsParameter (ts : List Token) : Prop :=
  ∃ ts', ts = comma :: ts' ∨ ts = closeParen :: ts'

theorem EndsParameter.endsDeclarator {ts : List Token} (h : EndsParameter ts) :
    EndsDeclarator ts := by
  obtain ⟨ts', rfl | rfl⟩ := h
  · exact endsDeclarator_punct (by decide) (by decide) ts'
  · exact endsDeclarator_punct (by decide) (by decide) ts'

theorem EndsParameter.plain {ts : List Token} (h : EndsParameter ts) : StartsPlain ts := by
  obtain ⟨ts', rfl | rfl⟩ := h
  · exact startsPlain_punct _ _
  · exact startsPlain_punct _ _

theorem EndsParameter.not_declarator {ts : List Token} (h : EndsParameter ts) {base type : CType}
    {name : CString} {rest : List Token} : ¬Declarator base ts name type rest := by
  obtain ⟨ts', rfl | rfl⟩ := h
  · exact not_declarator_punct (by decide) (by decide)
  · exact not_declarator_punct (by decide) (by decide)

theorem startsDeclarator_name {name : CString} (h : isIdentifier name = true) :
    StartsDeclarator [.word name] :=
  ⟨.word name, [], rfl, Or.inr (Or.inr (Or.inr ⟨name, h, rfl⟩))⟩

theorem Tree.WellNamed.readSpecifiers_eq {t : Tree} (h : t.WellNamed) {d ts : List Token}
    (hts : StartsPlain (t.tail d ++ ts)) :
    readSpecifiers (t.tokens d ++ ts) = some (t.front, t.spec, t.tail d ++ ts) := by
  unfold Tree.tokens
  rw [List.append_assoc]
  exact Support.CDeclaration.readSpecifiers_eq h.isSpecifier hts t.front

theorem readSpecifiers_void {rest : List Token} (hrest : EndsParameter rest) :
    readSpecifiers (.word "void".toList :: rest) = some ([], [.word "void".toList], rest) := by
  have hspecifier : IsSpecifier [.word "void".toList] :=
    .builtin (by decide) (fun t ht => by cases ht)
  exact Support.CDeclaration.readSpecifiers_eq hspecifier hrest.plain []

/-- A parameter with a name is read exactly where its tree can be. -/
theorem TreeFacts.readsParameter {t : Tree} (h : TreeFacts t) (ht : t.WellNamed) {n : CString}
    (hn : isIdentifier n = true) {rest : List Token} (hrest : EndsParameter rest) :
    ReadsParameter (t.tokens [.word n] ++ rest) t.Readable n (t.printed t.front) rest := by
  have hstarts := h.starts [.word n] (startsDeclarator_name hn)
  have hread : readSpecifiers (t.tokens [.word n] ++ rest) =
      some (t.front, t.spec, t.tail [.word n] ++ rest) :=
    ht.readSpecifiers_eq (hstarts.append rest).plain
  intro name type rest'
  constructor
  · intro hp
    cases hp with
    | named hspec hdecl =>
        rw [hread] at hspec
        cases hspec
        exact (h.read _ n id (Accepts.name hn) _ _ _ _ _ hrest.endsDeclarator).mp hdecl
    | unnamed hspec hhead _ =>
        rw [hread] at hspec
        cases hspec
        rcases hhead with hhead | hhead
        · exact absurd hhead
            ((hstarts.append rest).head?_ne (by decide) (by decide) (by decide))
        · exact absurd hhead
            ((hstarts.append rest).head?_ne (by decide) (by decide) (by decide))
  · intro hp
    exact .named hread ((h.read _ n id (Accepts.name hn) _ _ _ _ _ hrest.endsDeclarator).mpr hp)

/-- Plain `void` is no parameter. -/
theorem not_parameter_void {rest : List Token} (hrest : EndsParameter rest) (name : CString)
    (type : CType) (rest' : List Token) :
    ¬Parameter (.word "void".toList :: rest) name type rest' := by
  have hread := readSpecifiers_void hrest
  intro hp
  cases hp with
  | named hspec hdecl =>
      rw [hread] at hspec
      cases hspec
      exact hrest.not_declarator hdecl
  | unnamed hspec _ hne =>
      rw [hread] at hspec
      cases hspec
      exact hne rfl

/-- The rest of a list behind one of its entries. -/
theorem tokens_false_eq {ps : TreeParams} (h : ps.isNil = false) :
    ps.tokens false = comma :: ps.tokens true := by
  cases ps with
  | nil => cases h
  | void name ps => simp [TreeParams.tokens]
  | cons name t ps => simp [TreeParams.tokens]

theorem endsParameter_tokens (ps : TreeParams) (ts : List Token) :
    EndsParameter (ps.tokens false ++ closeParen :: ts) := by
  cases hnil : ps.isNil with
  | true =>
      cases ps with
      | nil => exact ⟨ts, Or.inr rfl⟩
      | void name ps => cases hnil
      | cons name t ps => cases hnil
  | false =>
      rw [tokens_false_eq hnil]
      exact ⟨_, Or.inl rfl⟩

theorem not_declarator_keyword {w : CString} (h : isIdentifier w = false) {base type : CType}
    {ts rest : List Token} {name : CString} :
    ¬Declarator base (.word w :: ts) name type rest := by
  rw [declarator_word, h]
  rintro ⟨_, hfalse, _⟩
  cases hfalse

theorem ParamFacts.nil : ParamFacts .nil where
  noName := fun _ _ _ _ _ => not_declarator_keyword (by decide)
  read := by
    intro first hfirst ts params variadic rest
    obtain rfl : first = true := hfirst.resolve_right (by decide)
    change Parameters true (.word "void".toList :: closeParen :: ts) params variadic rest ↔
      True ∧ params = .nil ∧ variadic = false ∧ rest = ts
    constructor
    · intro hps
      cases hps with
      | void => exact ⟨trivial, rfl, rfl, rfl⟩
      | last hp => exact absurd hp (not_parameter_void ⟨ts, Or.inr rfl⟩ _ _ _)
      | ellipsis hp => exact absurd hp (not_parameter_void ⟨ts, Or.inr rfl⟩ _ _ _)
      | more hp _ => exact absurd hp (not_parameter_void ⟨ts, Or.inr rfl⟩ _ _ _)
    · rintro ⟨_, rfl, rfl, rfl⟩
      exact .void

theorem ParamFacts.void (name : CString) (ps : TreeParams) : ParamFacts (.void name ps) where
  noName := fun _ _ _ _ _ => not_declarator_keyword (by decide)
  read := by
    intro first _ ts params variadic rest
    change Parameters first (.word "void".toList :: (ps.tokens false ++ closeParen :: ts)) params
      variadic rest ↔ (first = true ∧ ps.isNil = true) ∧ params = ps.printed ∧ variadic = false ∧
        rest = ts
    have hends := endsParameter_tokens ps ts
    cases ps with
    | nil =>
        constructor
        · intro hps
          cases hps with
          | void => exact ⟨⟨rfl, rfl⟩, rfl, rfl, rfl⟩
          | last hp => exact absurd hp (not_parameter_void hends _ _ _)
          | ellipsis hp => exact absurd hp (not_parameter_void hends _ _ _)
          | more hp _ => exact absurd hp (not_parameter_void hends _ _ _)
        · rintro ⟨⟨rfl, _⟩, rfl, rfl, rfl⟩
          exact .void
    | void _ _ | cons _ _ _ =>
        constructor
        · intro hps
          refine absurd hps (not_parameters_of_not_parameter (not_parameter_void hends) ?_ _ _ _ _)
          intro ts' heq
          rw [tokens_false_eq rfl] at heq
          cases heq
        · rintro ⟨⟨_, hnil⟩, _⟩
          cases hnil

/-- A declaration starts with a word; if that is an identifier, it is the whole
specifier. -/
theorem Tree.WellNamed.tokens_eq {t : Tree} (h : t.WellNamed) (d : List Token) :
    ∃ w ts, t.tokens d = .word w :: ts ∧ (isIdentifier w = false ∨ ts = t.tail d) := by
  unfold Tree.tokens
  cases t.front with
  | cons q qs => exact ⟨q.text, _, rfl, Or.inl (qualifier_not_identifier q)⟩
  | nil =>
      have hspec := h.isSpecifier
      revert hspec
      generalize t.spec = spec
      intro hspec
      cases hspec with
      | builtin hw _ => exact ⟨_, _, rfl, Or.inl (typeKeyword_not_identifier hw)⟩
      | tag hw _ => exact ⟨_, _, rfl, Or.inl (tagKeyword_not_identifier hw)⟩
      | record hw => exact ⟨_, _, rfl, Or.inl (tagKeyword_not_identifier hw)⟩
      | name => exact ⟨_, _, rfl, Or.inr rfl⟩

theorem TreeParams.WellNamed.tokens_eq {ps : TreeParams} (h : ps.WellNamed) :
    ∃ w ts, ps.tokens true = .word w :: ts := by
  cases ps with
  | nil => exact ⟨_, _, rfl⟩
  | void name ps => exact ⟨_, _, rfl⟩
  | cons name t ps =>
      obtain ⟨_, ht, _⟩ := h
      obtain ⟨w, ts, heq, _⟩ := ht.tokens_eq [.word name]
      have htokens : (TreeParams.cons name t ps).tokens true =
          t.tokens [.word name] ++ ps.tokens false := by
        simp [TreeParams.tokens, Tree.tokens]
      rw [htokens, heq]
      exact ⟨w, _, rfl⟩

theorem TreeFacts.cons {t : Tree} {ps : TreeParams} {n : CString} (h : TreeFacts t)
    (hps : ParamFacts ps) (ht : t.WellNamed) (hn : isIdentifier n = true) (hnames : ps.WellNamed) :
    ParamFacts (.cons n t ps) := by
  have htokens : (TreeParams.cons n t ps).tokens true = t.tokens [.word n] ++ ps.tokens false := by
    simp [TreeParams.tokens, Tree.tokens]
  have hstarts := h.starts [.word n] (startsDeclarator_name hn)
  constructor
  · intro base ts name type ts' hdecl
    rw [htokens, List.append_assoc] at hdecl
    obtain ⟨w, tl, heq, hword⟩ := ht.tokens_eq [.word n]
    rw [heq] at hdecl
    rcases hword with hkeyword | rfl
    · exact not_declarator_keyword hkeyword hdecl
    · obtain ⟨_, _, hs⟩ := declarator_word.mp hdecl
      exact h.firm _ (firm_word n []) _ _ _ _ hs rfl
  · intro first _ ts params variadic rest
    rw [htokens, List.append_assoc]
    have hends := endsParameter_tokens ps ts
    have hreads := h.readsParameter ht hn hends
    have hvoid : ∀ ts', t.tokens [.word n] ++ (ps.tokens false ++ closeParen :: ts) ≠
        .word "void".toList :: closeParen :: ts' := by
      intro ts' heq
      have hend : EndsParameter (closeParen :: ts') := ⟨ts', Or.inr rfl⟩
      have hread := ht.readSpecifiers_eq (hstarts.append (ps.tokens false ++ closeParen :: ts)).plain
      rw [heq, readSpecifiers_void hend] at hread
      have hrest : t.tail [.word n] ++ (ps.tokens false ++ closeParen :: ts) = closeParen :: ts' := by
        injection hread with hread
        exact (Prod.mk.inj (Prod.mk.inj hread).2).2.symm
      have hne := (hstarts.append (ps.tokens false ++ closeParen :: ts)).head?_ne
        (by decide : ')' ≠ '*') (by decide) (by decide)
      rw [hrest] at hne
      exact hne rfl
    change _ ↔ (t.Readable ∧ ps.Readable false) ∧
      params = .cons n (t.printed t.front) ps.printed ∧ variadic = false ∧ rest = ts
    cases hnil : ps.isNil with
    | true =>
        obtain rfl : ps = .nil := by
          cases ps with
          | nil => rfl
          | void _ _ => cases hnil
          | cons _ _ _ => cases hnil
        rw [parameters_last hreads hvoid]
        constructor
        · rintro ⟨hread, rfl, rfl, rfl⟩
          exact ⟨⟨hread, trivial⟩, rfl, rfl, rfl⟩
        · rintro ⟨⟨hread, _⟩, rfl, rfl, rfl⟩
          exact ⟨hread, rfl, rfl, rfl⟩
    | false =>
        rw [tokens_false_eq hnil, List.cons_append] at hreads hvoid ⊢
        have hdot : (ps.tokens true ++ closeParen :: ts).head? ≠ some dot := by
          obtain ⟨w, tl, heq⟩ := hnames.tokens_eq
          rw [heq]
          exact fun hw => by cases hw
        rw [parameters_more hreads hvoid hdot]
        constructor
        · rintro ⟨hread, more, hmore, rfl⟩
          obtain ⟨hrest, rfl, rfl, rfl⟩ := (hps.read false (Or.inr hnil) _ _ _ _).mp hmore
          exact ⟨⟨hread, hrest⟩, rfl, rfl, rfl⟩
        · rintro ⟨⟨hread, hrest⟩, rfl, rfl, rfl⟩
          exact ⟨hread, _, (hps.read false (Or.inr hnil) _ _ _ _).mpr ⟨hrest, rfl, rfl, rfl⟩, rfl⟩

mutual

theorem Tree.WellNamed.facts : ∀ (t : Tree), t.WellNamed → TreeFacts t
  | .leaf run text, _ => Tree.leaf_facts run text
  | .ptr run t, h => (Tree.WellNamed.facts t h).ptr run
  | .array run t n, h => (Tree.WellNamed.facts t h).array run n
  | .tag run t, h => (Tree.WellNamed.facts t h).tag run
  | .func run t ps, h =>
      (Tree.WellNamed.facts t h.1).func (TreeParams.WellNamed.facts ps h.2) run

theorem TreeParams.WellNamed.facts : ∀ (ps : TreeParams), ps.WellNamed → ParamFacts ps
  | .nil, _ => ParamFacts.nil
  | .void name ps, _ => ParamFacts.void name ps
  | .cons _ t ps, h =>
      (Tree.WellNamed.facts t h.2.1).cons (TreeParams.WellNamed.facts ps h.2.2) h.2.1 h.1 h.2.2

end

/-- A printed tree is read as a declaration exactly where it is readable, and then
only as the declared name with the printed type. -/
theorem Tree.WellNamed.declaration_iff {t : Tree} (h : t.WellNamed) {n : CString}
    (hn : isIdentifier n = true) (name : CString) (type : CType) :
    Declaration (t.tokens [.word n]) name type ↔
      t.Readable ∧ name = n ∧ type = t.printed t.front := by
  have facts := Tree.WellNamed.facts t h
  have hstarts := facts.starts [.word n] (startsDeclarator_name hn)
  have hread : readSpecifiers (t.tokens [.word n]) =
      some (t.front, t.spec, t.tail [.word n]) :=
    Support.CDeclaration.readSpecifiers_eq h.isSpecifier hstarts.plain t.front
  have hends : EndsDeclarator [] := ⟨fun hw => (by cases hw), fun hw => (by cases hw)⟩
  have hdecl := facts.read [.word n] n id (Accepts.name hn) t.front [] name type [] hends
  rw [List.append_nil] at hdecl
  constructor
  · rintro ⟨qs, spec, ts', hspec, hd⟩
    rw [hread] at hspec
    cases hspec
    obtain ⟨hreadable, hname, htype, _⟩ := hdecl.mp hd
    exact ⟨hreadable, hname, htype⟩
  · rintro ⟨hreadable, hname, htype⟩
    exact ⟨_, _, _, hread, hdecl.mpr ⟨hreadable, hname, htype, rfl⟩⟩

/-! ## The lexer on printed texts -/

/-- The text of a declarator and its tokens start with a star together. -/
structure DeclaratorText (text : CString) (d : List Token) : Prop where
  lexes : Lexes text d
  star_iff : text.head? = some '*' ↔ d.head? = some star
  nil_iff : text = [] ↔ d = []

theorem isWordChar_of_isIdentifier {name : CString} (h : isIdentifier name = true) :
    name ≠ [] ∧ name.all isWordChar = true := by
  unfold isIdentifier at h
  simp only [Bool.and_eq_true] at h
  refine ⟨?_, h.1.1⟩
  rintro rfl
  exact Bool.noConfusion h.1.2

theorem declaratorText_nil : DeclaratorText [] [] :=
  ⟨Lexes.nil, by simp, by simp⟩

theorem declaratorText_name {name : CString} (h : isIdentifier name = true) :
    DeclaratorText name [.word name] := by
  obtain ⟨hne, hall⟩ := isWordChar_of_isIdentifier h
  obtain ⟨c, cs, rfl⟩ := List.exists_cons_of_ne_nil hne
  refine ⟨Lexes.word hne hall, ?_, by simp⟩
  constructor
  · intro hc
    obtain rfl : c = '*' := Option.some.inj hc
    have hstar : isWordChar '*' = true := List.all_eq_true.mp hall '*' List.mem_cons_self
    exact absurd hstar (by decide)
  · intro hw
    cases hw

theorem spaced_seam (text : CString) : ∀ c ∈ (spaced text).head?, isWordChar c = false := by
  intro c hc
  unfold spaced at hc
  split at hc
  · cases hc
  · cases hc
    decide

theorem DeclaratorText.spaced {text : CString} {d : List Token} (h : DeclaratorText text d) :
    Lexes (spaced text) d := by
  unfold MinCorehdr.spaced
  split
  next hnil =>
    rw [h.nil_iff.mp hnil]
    exact Lexes.nil
  next => exact h.lexes.blank

theorem qualifierText_lexes (qs : List Qualifier) :
    Lexes (qualifierText qs) (qualifierTokens qs) := by
  have hword : ∀ q : Qualifier, Lexes q.text [.word q.text] := by
    intro q
    cases q <;> exact Lexes.word (by decide) (by decide)
  induction qs with
  | nil => exact Lexes.nil
  | cons q qs ih =>
      cases qs with
      | nil => exact hword q
      | cons p qs =>
          refine (hword q).append ih.blank ?_
          intro c hc
          cases hc
          decide

theorem inFront_lexes {run qs : List Qualifier} (hqs : run = [] → qs = []) {text : CString}
    {ts : List Token} (h : Lexes text ts) :
    Lexes (inFront run qs ++ text) (qualifierTokens qs ++ ts) := by
  unfold inFront
  by_cases hnil : run = []
  · rw [if_pos hnil, hqs hnil]
    exact h
  · rw [if_neg hnil, List.append_assoc]
    refine (qualifierText_lexes qs).append h.blank ?_
    intro c hc
    cases hc
    decide

theorem starText_declaratorText {text : CString} {d : List Token} (h : DeclaratorText text d)
    (run : List Qualifier) :
    DeclaratorText (starText run text) (star :: qualifierTokens (shown run) ++ d) := by
  have hstar : ∀ text, (starText run text).head? = some '*' := by
    intro text
    unfold starText
    split <;> rfl
  refine ⟨?_, by simp [hstar], ?_⟩
  · unfold starText
    by_cases hnil : run = []
    · rw [if_pos hnil, hnil]
      exact h.lexes.punct rfl
    · rw [if_neg hnil]
      have hspaced := (qualifierText_lexes (shown run)).append h.spaced (spaced_seam text)
      exact hspaced.blank.punct rfl
  · constructor
    · intro hnil
      have hhead := hstar text
      rw [hnil] at hhead
      cases hhead
    · intro hnil
      cases hnil

theorem grouped_declaratorText {text : CString} {d : List Token} (h : DeclaratorText text d) :
    Lexes (if text.head? = some '*' then '(' :: text ++ [')'] else text) (grouped d) := by
  unfold grouped
  by_cases hstar : text.head? = some '*'
  · rw [if_pos hstar, if_pos (h.star_iff.mp hstar)]
    refine (h.lexes.append (Lexes.nil.punct rfl) ?_).punct rfl
    intro c hc
    cases hc
    decide
  · rw [if_neg hstar, if_neg (fun hd => hstar (h.star_iff.mpr hd))]
    exact h.lexes

theorem decimal_isWord (n : Nat) : (decimal n).all isWordChar = true := by
  rw [List.all_eq_true]
  intro c hc
  have hdigit := Support.CConstant.isDigit_of_mem_toDigits hc
  simp [isWordChar, Char.isAlphanum, hdigit]

theorem decimal_lexes (n : Nat) : Lexes (decimal n) [.word (decimal n)] :=
  Lexes.word Nat.toDigits_ne_nil (decimal_isWord n)

theorem bracketText_declaratorText {text : CString} {d : List Token} (h : DeclaratorText text d)
    (n : Nat) : DeclaratorText (bracketText text n) (grouped d ++ bound (decimal n)) := by
  have hclose : Lexes [']'] [closeBracket] := Lexes.nil.punct rfl
  have hbound : Lexes ('[' :: decimal n ++ [']']) (bound (decimal n)) := by
    refine ((decimal_lexes n).append hclose ?_).punct rfl
    intro c hc
    cases hc
    decide
  unfold bracketText
  rw [List.append_assoc]
  refine ⟨(grouped_declaratorText h).append hbound ?_, ?_, ?_⟩
  · intro c hc
    cases hc
    decide
  · unfold grouped
    by_cases hstar : text.head? = some '*'
    · rw [if_pos hstar, if_pos (h.star_iff.mp hstar)]
      exact iff_of_false (fun hc => by cases hc) (fun hd => by cases hd)
    · have hstar' : d.head? ≠ some star := fun hd => hstar (h.star_iff.mpr hd)
      rw [if_neg hstar, if_neg hstar']
      by_cases hnil : text = []
      · rw [hnil, h.nil_iff.mp hnil]
        exact iff_of_false (fun hc => by cases hc) (fun hd => by cases hd)
      · have hne : d ≠ [] := fun hd => hnil (h.nil_iff.mpr hd)
        rw [List.head?_append_of_ne_nil _ hnil, List.head?_append_of_ne_nil _ hne]
        exact h.star_iff
  · constructor
    · intro hnil
      simp at hnil
    · intro hnil
      simp [bound] at hnil

/-- The parameter list and its parentheses behind a declarator. -/
theorem openingText_lexes {text : CString} {d : List Token} (h : DeclaratorText text d)
    {params : CString} {ts : List Token} (hparams : Lexes params ts) :
    Lexes (openingText text ++ params ++ [')'])
        (grouped d ++ (openParen :: ts ++ [closeParen])) ∧
      ∀ c ∈ (openingText text ++ params ++ [')']).head?, isWordChar c = false := by
  have hclose : ∀ c ∈ [')'].head?, isWordChar c = false := by
    intro c hc
    cases hc
    decide
  have hlist : Lexes ('(' :: (params ++ [')'])) (openParen :: ts ++ [closeParen]) :=
    (hparams.append (Lexes.nil.punct rfl) hclose).punct rfl
  have hopen : ∀ c ∈ ('(' :: (params ++ [')'])).head?, isWordChar c = false := by
    intro c hc
    cases hc
    decide
  have hgrouped := (grouped_declaratorText h).append hlist hopen
  unfold openingText
  by_cases hstar : text.head? = some '*'
  · rw [if_pos hstar] at hgrouped ⊢
    constructor
    · have htext : " (".toList ++ text ++ ")(".toList ++ params ++ [')'] =
          ' ' :: ('(' :: text ++ [')'] ++ '(' :: (params ++ [')'])) := by
        simp
      rw [htext]
      exact hgrouped.blank
    · intro c hc
      cases hc
      decide
  · rw [if_neg hstar] at hgrouped ⊢
    by_cases hnil : text = []
    · subst hnil
      rw [if_neg (fun hne => hne rfl)]
      refine ⟨hgrouped, ?_⟩
      intro c hc
      cases hc
      decide
    · rw [if_pos hnil]
      constructor
      · have htext : (' ' :: text ++ ['(']) ++ params ++ [')'] =
            ' ' :: (text ++ '(' :: (params ++ [')'])) := by
          simp
        rw [htext]
        exact hgrouped.blank
      · intro c hc
        cases hc
        decide

theorem shown_nil : ∀ {run : List Qualifier}, run = [] → shown run = [] := by
  rintro run rfl
  rfl

theorem qualifierTokens_append (qs qs' : List Qualifier) :
    qualifierTokens (qs ++ qs') = qualifierTokens qs ++ qualifierTokens qs' :=
  List.map_append

/-- What is printed in front of a node goes in front of its tokens. -/
theorem inFront_tokens {run qs : List Qualifier} (hqs : run = [] → qs = []) {text : CString}
    {front : List Qualifier} {ts : List Token} (h : Lexes text (qualifierTokens front ++ ts)) :
    Lexes (inFront run qs ++ text) (qualifierTokens (qs ++ front) ++ ts) := by
  rw [qualifierTokens_append, List.append_assoc]
  exact inFront_lexes hqs h

theorem print_false_seam (ps : TreeParams) :
    ∀ c ∈ (ps.print false).head?, isWordChar c = false := by
  intro c hc
  cases ps with
  | nil =>
      rw [TreeParams.print] at hc
      cases hc
  | void name ps =>
      rw [TreeParams.print] at hc
      cases hc
      decide
  | cons name t ps =>
      rw [TreeParams.print] at hc
      cases hc
      decide

mutual

/-- The tokens of a printed tree are the tree's tokens. -/
theorem Tree.WellNamed.lexes : ∀ (t : Tree), t.WellNamed → ∀ {text : CString} {d : List Token},
    DeclaratorText text d → Lexes (t.print text) (t.tokens d)
  | .leaf run leaf, h, text, d, hd => by
      have hleaf : IsLeafText leaf := h
      rw [Tree.print, List.append_assoc]
      unfold Tree.tokens
      rw [List.append_assoc]
      exact inFront_lexes shown_nil (hleaf.lexes.append hd.spaced (spaced_seam text))
  | .ptr run t, h, _, _, hd => by
      rw [Tree.print]
      exact Tree.WellNamed.lexes t h (starText_declaratorText hd run)
  | .array run t n, h, _, _, hd => by
      have hrun : run = [] → shown (arrayRun run t) = [] := by
        rintro rfl
        rfl
      have ht := Tree.WellNamed.lexes t h (bracketText_declaratorText hd n)
      unfold Tree.tokens at ht ⊢
      rw [List.append_assoc] at ht ⊢
      rw [Tree.print]
      exact inFront_tokens hrun ht
  | .tag run t, h, _, _, hd => by
      have ht := Tree.WellNamed.lexes t h hd
      unfold Tree.tokens at ht ⊢
      rw [List.append_assoc] at ht ⊢
      rw [Tree.print]
      exact inFront_tokens shown_nil ht
  | .func run t ps, h, _, _, hd => by
      have ht := Tree.WellNamed.lexes t h.1 declaratorText_nil
      obtain ⟨hlist, hseam⟩ := openingText_lexes hd (TreeParams.WellNamed.lexes ps h.2 true)
      have hall := ht.append hlist hseam
      unfold Tree.tokens at hall ⊢
      rw [Tree.tail_func]
      rw [Tree.print, List.append_assoc, List.append_assoc, List.append_assoc]
      rw [List.append_assoc, List.append_assoc, List.append_assoc] at hall
      rw [List.append_assoc]
      exact inFront_tokens shown_nil hall

theorem TreeParams.WellNamed.lexes : ∀ (ps : TreeParams), ps.WellNamed →
    ∀ first, Lexes (ps.print first) (ps.tokens first)
  | .nil, _, first => by
      cases first with
      | true => exact Lexes.word (by decide) (by decide)
      | false => exact Lexes.nil
  | .void name ps, h, first => by
      have hps := TreeParams.WellNamed.lexes ps h false
      have hvoid : Lexes "void".toList [.word "void".toList] := Lexes.word (by decide) (by decide)
      have hentry := hvoid.append hps (print_false_seam ps)
      cases first with
      | true => exact hentry
      | false => exact hentry.blank.punct rfl
  | .cons name t ps, h, first => by
      have ht := Tree.WellNamed.lexes t h.2.1 (declaratorText_name h.1)
      have hps := TreeParams.WellNamed.lexes ps h.2.2 false
      have hentry := ht.append hps (print_false_seam ps)
      cases first with
      | true => exact hentry
      | false => exact hentry.blank.punct rfl

end

/-- What `emit_decl_ex` printed is read exactly where the tree is readable, and then
only as the declared name with the printed type. -/
theorem emitDeclEx_declaration_iff {ctx : EmitCtx} {fuel id : Nat} {n : CString}
    {pieces : List Piece} {t : Tree} (h : emitDeclEx ctx fuel id n = .ok pieces)
    (htree : treeOf ctx fuel id = some t) (hnamed : t.WellNamed) (hn : isIdentifier n = true)
    (name : CString) (type : CType) :
    Declaration (lex (declText pieces)) name type ↔
      t.Readable ∧ name = n ∧ type = t.printed t.front := by
  obtain ⟨t', htree', htext⟩ := emitDeclEx_text ctx fuel id n pieces h
  rw [htree] at htree'
  cases htree'
  rw [htext, (Tree.WellNamed.lexes t hnamed (declaratorText_name hn)).lex_eq]
  exact hnamed.declaration_iff hn name type

end MinCorehdr
