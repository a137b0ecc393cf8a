import MinCorehdr.Support.CConstant
import MinCorehdr.Support.CDeclaration

/-!
# Declarators as they grow

A printer grows a declarator around a name: stars in front, bounds and parameter
lists behind, parentheses where a star would bind too late.  What each growth
does to the reading is stated here, for declarators with a name and for those
that start from nothing.
-/

namespace Support.CDeclaration

open Support.CToken

/-- Parentheses around a declarator that starts with a star. -/
def grouped (d : List Token) : List Token :=
  if d.head? = some star then openParen :: d ++ [closeParen] else d

def bound (w : List Char) : List Token := [openBracket, .word w, closeBracket]

theorem number_toDigits (n : Nat) : number (Nat.toDigits 10 n) = some n := by
  have hall : (Nat.toDigits 10 n).all Char.isDigit = true :=
    List.all_eq_true.mpr fun c hc => CConstant.isDigit_of_mem_toDigits hc
  have hdecimal : ¬(Nat.toDigits 10 n = [] ∨ (Nat.toDigits 10 n).all Char.isDigit = false ∨
      (Nat.toDigits 10 n).head? = some '0' ∧ Nat.toDigits 10 n ≠ ['0']) := by
    rintro (hnil | hnot | ⟨hhead, hmore⟩)
    · exact Nat.toDigits_ne_nil hnil
    · rw [hall] at hnot
      cases hnot
    · apply hmore
      rw [CConstant.head?_toDigits hhead, Nat.toDigits_zero]
  unfold number
  rw [if_neg hdecimal, Nat.ofDigitChars_ten_toDigits]

theorem endsDeclarator_punct {c : Char} (hparen : c ≠ '(') (hbracket : c ≠ '[') (ts : List Token) :
    EndsDeclarator (.punct c :: ts) := by
  constructor
  · intro h
    cases h
    exact hparen rfl
  · intro h
    cases h
    exact hbracket rfl

theorem not_parameters_star {first variadic : Bool} {ts rest : List Token} {ps : CParams} :
    ¬Parameters first (star :: ts) ps variadic rest := by
  have hread : readSpecifiers (star :: ts) = none := rfl
  have hparameter : ∀ {name type rest'}, ¬Parameter (star :: ts) name type rest' := by
    intro name type rest' h
    cases h with
    | named h _ =>
        rw [hread] at h
        cases h
    | unnamed h _ _ =>
        rw [hread] at h
        cases h
  intro h
  cases h with
  | last h => exact hparameter h
  | ellipsis h => exact hparameter h
  | more h _ => exact hparameter h

/-- A first token that a declarator or its suffixes can start with. -/
def StartsDeclarator (d : List Token) : Prop :=
  ∃ t d', d = t :: d' ∧
    (t = star ∨ t = openParen ∨ t = openBracket ∨ ∃ w, isIdentifier w = true ∧ t = .word w)

theorem StartsDeclarator.append {d : List Token} (h : StartsDeclarator d) (ts : List Token) :
    StartsDeclarator (d ++ ts) := by
  obtain ⟨t, d', rfl, ht⟩ := h
  exact ⟨t, d' ++ ts, rfl, ht⟩

theorem StartsDeclarator.plain {d : List Token} (h : StartsDeclarator d) : StartsPlain d := by
  obtain ⟨t, d', rfl, ht⟩ := h
  rcases ht with rfl | rfl | rfl | ⟨w, hw, rfl⟩
  · exact startsPlain_punct _ _
  · exact startsPlain_punct _ _
  · exact startsPlain_punct _ _
  · exact startsPlain_word hw _

theorem StartsDeclarator.head?_ne {d : List Token} (h : StartsDeclarator d) {c : Char}
    (hstar : c ≠ '*') (hparen : c ≠ '(') (hbracket : c ≠ '[') : d.head? ≠ some (.punct c) := by
  obtain ⟨t, d', rfl, ht⟩ := h
  intro heq
  obtain rfl := Option.some.inj heq
  rcases ht with heq | heq | heq | ⟨w, _, heq⟩
  · exact hstar (Token.punct.inj heq)
  · exact hparen (Token.punct.inj heq)
  · exact hbracket (Token.punct.inj heq)
  · cases heq

theorem StartsDeclarator.grouped {d : List Token} (h : StartsDeclarator d) :
    StartsDeclarator (CDeclaration.grouped d) := by
  unfold CDeclaration.grouped
  split
  · exact ⟨openParen, _, rfl, Or.inr (Or.inl rfl)⟩
  · exact h

/-! ## Declarators with a name -/

/-- `d` declares `n`, with the type `k base` for the specifiers' `base`; unless it
starts with a star, more suffixes may follow. -/
structure Accepts (d : List Token) (n : List Char) (k : CType → CType) : Prop where
  starts : StartsDeclarator d
  read : ∀ base ts name type rest, EndsDeclarator ts →
    (Declarator base (d ++ ts) name type rest ↔ name = n ∧ type = k base ∧ rest = ts)
  direct : d.head? ≠ some star → ∀ base ts name type rest,
    (Declarator base (d ++ ts) name type rest ↔
      name = n ∧ ∃ inner, Suffixes base ts inner rest ∧ type = k inner)

/-- A declarator that takes suffixes is also one that ends. -/
theorem Accepts.of_direct {d : List Token} {n : List Char} {k : CType → CType}
    (hstarts : StartsDeclarator d) (h : ∀ base ts name type rest, (Declarator base (d ++ ts) name type rest ↔
      name = n ∧ ∃ inner, Suffixes base ts inner rest ∧ type = k inner)) : Accepts d n k where
  starts := hstarts
  read := by
    intro base ts name type rest hends
    rw [h]
    constructor
    · rintro ⟨rfl, inner, hs, rfl⟩
      obtain ⟨rfl, rfl⟩ := (suffixes_of_ends hends).mp hs
      exact ⟨rfl, rfl, rfl⟩
    · rintro ⟨rfl, rfl, rfl⟩
      exact ⟨rfl, base, (suffixes_of_ends hends).mpr ⟨rfl, rfl⟩, rfl⟩
  direct := fun _ => h

theorem Accepts.name {n : List Char} (hn : isIdentifier n = true) : Accepts [.word n] n id := by
  apply Accepts.of_direct
  · exact ⟨.word n, [], rfl, Or.inr (Or.inr (Or.inr ⟨n, hn, rfl⟩))⟩
  · intro base ts name type rest
    rw [List.singleton_append, declarator_word]
    constructor
    · rintro ⟨rfl, _, hs⟩
      exact ⟨rfl, type, hs, rfl⟩
    · rintro ⟨rfl, inner, hs, rfl⟩
      exact ⟨rfl, hn, hs⟩

section

variable {d : List Token} {n : List Char} {k : CType → CType}

theorem Accepts.ptr (h : Accepts d n k) (qs : List Qualifier) :
    Accepts (star :: qualifierTokens qs ++ d) n (fun base => k (.ptr qs base)) where
  starts := ⟨star, _, rfl, Or.inl rfl⟩
  read := by
    intro base ts name type rest hends
    change Declarator base (star :: (qualifierTokens qs ++ d ++ ts)) name type rest ↔ _
    rw [declarator_star, List.append_assoc,
      takeQualifiers_append (takeQualifiers_plain (h.starts.append ts).plain),
      h.read _ _ _ _ _ hends]
  direct := fun hstar => absurd rfl hstar

/-- In parentheses or without a star, a declarator takes suffixes. -/
theorem Accepts.grouped (h : Accepts d n k) (base : CType) (ts : List Token) (name : List Char)
    (type : CType) (rest : List Token) :
    Declarator base (grouped d ++ ts) name type rest ↔
      name = n ∧ ∃ inner, Suffixes base ts inner rest ∧ type = k inner := by
  unfold CDeclaration.grouped
  by_cases hstar : d.head? = some star
  · rw [if_pos hstar]
    change Declarator base (openParen :: (d ++ [closeParen] ++ ts)) name type rest ↔ _
    rw [declarator_paren, List.append_assoc]
    have hends := endsDeclarator_punct (by decide : ')' ≠ '(') (by decide) ts
    constructor
    · rintro ⟨inner, ts', hd, hs⟩
      obtain ⟨rfl, rfl, hrest⟩ := (h.read inner (closeParen :: ts) _ _ _ hends).mp hd
      cases hrest
      exact ⟨rfl, inner, hs, rfl⟩
    · rintro ⟨rfl, inner, hs, rfl⟩
      exact ⟨inner, ts, (h.read inner (closeParen :: ts) _ _ _ hends).mpr ⟨rfl, rfl, rfl⟩, hs⟩
  · rw [if_neg hstar]
    exact h.direct hstar base ts name type rest

theorem Accepts.array (h : Accepts d n k) (count : Nat) :
    Accepts (CDeclaration.grouped d ++ bound (Nat.toDigits 10 count)) n
      (fun base => k (.array base count)) := by
  apply Accepts.of_direct
  · exact h.starts.grouped.append _
  · intro base ts name type rest
    rw [List.append_assoc, h.grouped]
    change (name = n ∧ ∃ inner, Suffixes base
      (openBracket :: .word (Nat.toDigits 10 count) :: closeBracket :: ts) inner rest ∧ _) ↔ _
    constructor
    · rintro ⟨rfl, inner, hs, rfl⟩
      obtain ⟨element, m, hm, helement, rfl⟩ := suffixes_bracket.mp hs
      rw [number_toDigits, Option.some.injEq] at hm
      subst hm
      exact ⟨rfl, element, helement, rfl⟩
    · rintro ⟨rfl, element, hs, rfl⟩
      exact ⟨rfl, _, suffixes_bracket.mpr ⟨element, count, number_toDigits count, hs, rfl⟩, rfl⟩

end

/-! ## Declarators without a name -/

/-- Only stars: what follows is declared through them. -/
def Opens (a : List Token) (k : CType → CType) : Prop :=
  (a = [] ∨ a.head? = some star) ∧ ∀ base ts name type rest, StartsPlain ts →
    (Declarator base (a ++ ts) name type rest ↔ Declarator (k base) ts name type rest)

/-- Nothing is declared, whatever follows. -/
def Stuck (a : List Token) : Prop :=
  a ≠ [] ∧ ∀ base ts name type rest, ¬Declarator base (a ++ ts) name type rest

/-- Read as suffixes, `a` stops at a star or is passed. -/
def Passes (a : List Token) : Prop :=
  ∀ base ts type rest, Suffixes base (a ++ ts) type rest →
    rest.head? = some star ∨ ∃ base' type', Suffixes base' ts type' rest

/-- A declarator grown from nothing. -/
structure Nameless (a : List Token) : Prop where
  starts : ∀ t, a.head? = some t → t = star ∨ t = openParen ∨ t = openBracket
  passes : Passes a
  opens_or_stuck : (∃ k, Opens a k) ∨ Stuck a

theorem Opens.nil : Opens [] id := ⟨Or.inl rfl, fun _ _ _ _ _ _ => Iff.rfl⟩

theorem Nameless.nil : Nameless [] where
  starts := fun t h => by cases h
  passes := fun base ts type rest h => Or.inr ⟨base, type, h⟩
  opens_or_stuck := Or.inl ⟨id, Opens.nil⟩

section

variable {a : List Token}

theorem Nameless.startsDeclarator (h : Nameless a) (hne : a ≠ []) : StartsDeclarator a := by
  obtain ⟨t, a', rfl⟩ := List.exists_cons_of_ne_nil hne
  rcases h.starts t rfl with ht | ht | ht
  · exact ⟨t, a', rfl, Or.inl ht⟩
  · exact ⟨t, a', rfl, Or.inr (Or.inl ht)⟩
  · exact ⟨t, a', rfl, Or.inr (Or.inr (Or.inl ht))⟩

theorem Nameless.plain (h : Nameless a) {ts : List Token} (hts : StartsPlain ts) :
    StartsPlain (a ++ ts) := by
  by_cases hnil : a = []
  · rw [hnil]
    exact hts
  · exact ((h.startsDeclarator hnil).append ts).plain

theorem passes_star (ts : List Token) : Passes (star :: ts) := by
  intro base rest' type rest h
  obtain ⟨_, rfl⟩ := (suffixes_of_ends (endsDeclarator_punct (by decide) (by decide) _)).mp h
  exact Or.inl rfl

theorem Opens.ptr {k : CType → CType} (h : Opens a k) (hplain : Nameless a) (qs : List Qualifier) :
    Opens (star :: qualifierTokens qs ++ a) (fun base => k (.ptr qs base)) := by
  refine ⟨Or.inr rfl, ?_⟩
  intro base ts name type rest hts
  change Declarator base (star :: (qualifierTokens qs ++ a ++ ts)) name type rest ↔ _
  rw [declarator_star, List.append_assoc,
    takeQualifiers_append (takeQualifiers_plain (hplain.plain hts))]
  exact h.2 _ ts name type rest hts

theorem Stuck.ptr (h : Stuck a) (hname : Nameless a) (qs : List Qualifier) :
    Stuck (star :: qualifierTokens qs ++ a) := by
  refine ⟨List.cons_ne_nil _ _, ?_⟩
  intro base ts name type rest hd
  change Declarator base (star :: (qualifierTokens qs ++ a ++ ts)) name type rest at hd
  have hplain : StartsPlain (a ++ ts) := ((hname.startsDeclarator h.1).append ts).plain
  rw [declarator_star, List.append_assoc,
    takeQualifiers_append (takeQualifiers_plain hplain)] at hd
  exact h.2 _ _ _ _ _ hd

theorem Nameless.ptr (h : Nameless a) (qs : List Qualifier) :
    Nameless (star :: qualifierTokens qs ++ a) where
  starts := fun _ ht => Or.inl (Option.some.inj ht).symm
  passes := passes_star _
  opens_or_stuck :=
    h.opens_or_stuck.imp (fun ⟨_, hk⟩ => ⟨_, hk.ptr h qs⟩) (fun hstuck => hstuck.ptr h qs)

/-- Parentheses around nothing but stars declare nothing, nor does what is stuck
already. -/
theorem Nameless.stuck_grouped (h : Nameless a) (hne : a ≠ []) : Stuck (grouped a) := by
  unfold grouped
  by_cases hstar : a.head? = some star
  · rw [if_pos hstar]
    refine ⟨List.cons_ne_nil _ _, ?_⟩
    intro base ts name type rest hd
    change Declarator base (openParen :: (a ++ [closeParen] ++ ts)) name type rest at hd
    obtain ⟨inner, ts', hd, _⟩ := declarator_paren.mp hd
    rw [List.append_assoc] at hd
    rcases h.opens_or_stuck with ⟨k, hk⟩ | hstuck
    · have hclose := (hk.2 inner (closeParen :: ts) _ _ _ (startsPlain_punct _ _)).mp hd
      exact not_declarator_punct (by decide) (by decide) hclose
    · exact hstuck.2 _ _ _ _ _ hd
  · rw [if_neg hstar]
    rcases h.opens_or_stuck with ⟨k, hnil | hhead, _⟩ | hstuck
    · exact absurd hnil hne
    · exact absurd hhead hstar
    · exact hstuck

theorem Stuck.append (h : Stuck a) (b : List Token) : Stuck (a ++ b) := by
  refine ⟨fun hnil => h.1 (List.append_eq_nil_iff.mp hnil).1, ?_⟩
  intro base ts name type rest hd
  rw [List.append_assoc] at hd
  exact h.2 _ _ _ _ _ hd

/-- Suffixes do not go into parentheses around a star. -/
theorem Nameless.passes_grouped (h : Nameless a) : Passes (grouped a) := by
  unfold grouped
  split
  next hstar =>
    intro base ts type rest hs
    obtain ⟨a', rfl⟩ : ∃ a', a = star :: a' := by
      cases a with
      | nil => cases hstar
      | cons t a' =>
          cases hstar
          exact ⟨a', rfl⟩
    obtain ⟨ps, variadic, ts', inner, hps, _⟩ := suffixes_paren.mp hs
    exact absurd hps not_parameters_star
  next => exact h.passes

theorem Passes.append {b : List Token} (ha : Passes a) (hb : Passes b) : Passes (a ++ b) := by
  intro base ts type rest h
  rw [List.append_assoc] at h
  rcases ha base (b ++ ts) type rest h with hstar | ⟨base', type', h⟩
  · exact Or.inl hstar
  · exact hb base' ts type' rest h

theorem Nameless.grouped_starts (h : Nameless a) :
    ∀ t, (grouped a).head? = some t → t = star ∨ t = openParen ∨ t = openBracket := by
  unfold grouped
  split
  · exact fun _ ht => Or.inr (Or.inl (Option.some.inj ht).symm)
  · exact h.starts

theorem stuck_bracket (ts : List Token) : Stuck (openBracket :: ts) :=
  ⟨List.cons_ne_nil _ _, fun _ _ _ _ _ hd => not_declarator_punct (by decide) (by decide) hd⟩

theorem passes_bound (count : Nat) : Passes (bound (Nat.toDigits 10 count)) := by
  intro base ts type rest h
  obtain ⟨element, m, _, hs, _⟩ := suffixes_bracket.mp h
  exact Or.inr ⟨base, element, hs⟩

/-- A bound behind a declarator without a name declares nothing. -/
theorem Nameless.stuck_array (h : Nameless a) (count : Nat) :
    Stuck (grouped a ++ bound (Nat.toDigits 10 count)) := by
  by_cases hnil : a = []
  · subst hnil
    exact stuck_bracket _
  · exact (h.stuck_grouped hnil).append _

theorem starts_append {b : List Token} {P : Token → Prop} (ha : ∀ t, a.head? = some t → P t)
    (hb : ∀ t, b.head? = some t → P t) : ∀ t, (a ++ b).head? = some t → P t := by
  cases a with
  | nil => exact hb
  | cons t a => exact ha

theorem Nameless.array (h : Nameless a) (count : Nat) :
    Nameless (grouped a ++ bound (Nat.toDigits 10 count)) where
  starts := starts_append h.grouped_starts
    fun _ ht => Or.inr (Or.inr (Option.some.inj ht).symm)
  passes := h.passes_grouped.append (passes_bound count)
  opens_or_stuck := Or.inr (h.stuck_array count)

end

/-! ## Where suffixes stop -/

/-- Suffixes read at `d` do not run up to a closing parenthesis. -/
def Firm (d : List Token) : Prop :=
  ∀ base ts type rest, Suffixes base (d ++ ts) type rest → rest.head? ≠ some closeParen

theorem firm_word (w : List Char) (d : List Token) : Firm (.word w :: d) := by
  intro base ts type rest h
  have hends : EndsDeclarator (.word w :: d ++ ts) :=
    ⟨fun hw => (by cases hw), fun hw => (by cases hw)⟩
  obtain ⟨_, rfl⟩ := (suffixes_of_ends hends).mp h
  exact fun hw => by cases hw

theorem firm_star (d : List Token) : Firm (star :: d) := by
  intro base ts type rest h
  have hends := endsDeclarator_punct (by decide : '*' ≠ '(') (by decide) (d ++ ts)
  obtain ⟨_, rfl⟩ := (suffixes_of_ends hends).mp h
  exact fun hw => by cases hw

theorem Firm.append {d : List Token} (h : Firm d) (e : List Token) : Firm (d ++ e) := by
  intro base ts type rest hs
  rw [List.append_assoc] at hs
  exact h base (e ++ ts) type rest hs

theorem Firm.grouped {d : List Token} (h : Firm d) : Firm (CDeclaration.grouped d) := by
  unfold CDeclaration.grouped
  split
  next hstar =>
    intro base ts type rest hs
    obtain ⟨d', rfl⟩ : ∃ d', d = star :: d' := by
      cases d with
      | nil => cases hstar
      | cons t d' =>
          cases hstar
          exact ⟨d', rfl⟩
    obtain ⟨ps, variadic, ts', inner, hps, _⟩ := suffixes_paren.mp hs
    exact absurd hps not_parameters_star
  next => exact h

/-- What is passed leaves the stop to what follows. -/
theorem Passes.firm {a d : List Token} (ha : Passes a) (hd : Firm d) : Firm (a ++ d) := by
  intro base ts type rest hs
  rw [List.append_assoc] at hs
  rcases ha base (d ++ ts) type rest hs with hstar | ⟨base', type', hs⟩
  · rw [hstar]
    exact fun hw => by cases hw
  · exact hd base' ts type' rest hs

/-! ## Parameter lists -/

/-- The first parameter of `ts` can be read, as `name` with `type` and up to `rest`,
exactly under `P`. -/
def ReadsParameter (ts : List Token) (P : Prop) (n : List Char) (t : CType) (rest : List Token) :
    Prop :=
  ∀ name type rest', Parameter ts name type rest' ↔ P ∧ name = n ∧ type = t ∧ rest' = rest

section

variable {ts rest : List Token} {P : Prop} {n : List Char} {t : CType}

theorem parameters_last (h : ReadsParameter ts P n t (closeParen :: rest))
    (hvoid : ∀ ts', ts ≠ .word "void".toList :: closeParen :: ts') (first : Bool) (ps : CParams)
    (variadic : Bool) (rest' : List Token) :
    Parameters first ts ps variadic rest' ↔
      P ∧ ps = .cons n t .nil ∧ variadic = false ∧ rest' = rest := by
  constructor
  · intro hps
    cases hps with
    | void => exact absurd rfl (hvoid _)
    | last hp =>
        obtain ⟨hP, rfl, rfl, hrest⟩ := (h _ _ _).mp hp
        cases hrest
        exact ⟨hP, rfl, rfl, rfl⟩
    | ellipsis hp =>
        obtain ⟨_, _, _, hrest⟩ := (h _ _ _).mp hp
        cases hrest
    | more hp _ =>
        obtain ⟨_, _, _, hrest⟩ := (h _ _ _).mp hp
        cases hrest
  · rintro ⟨hP, rfl, rfl, rfl⟩
    exact .last ((h _ _ _).mpr ⟨hP, rfl, rfl, rfl⟩)

theorem parameters_more (h : ReadsParameter ts P n t (comma :: rest))
    (hvoid : ∀ ts', ts ≠ .word "void".toList :: closeParen :: ts') (hdot : rest.head? ≠ some dot)
    (first : Bool) (ps : CParams) (variadic : Bool) (rest' : List Token) :
    Parameters first ts ps variadic rest' ↔
      P ∧ ∃ more, Parameters false rest more variadic rest' ∧ ps = .cons n t more := by
  constructor
  · intro hps
    cases hps with
    | void => exact absurd rfl (hvoid _)
    | last hp =>
        obtain ⟨_, _, _, hrest⟩ := (h _ _ _).mp hp
        cases hrest
    | ellipsis hp =>
        obtain ⟨_, _, _, hrest⟩ := (h _ _ _).mp hp
        cases hrest
        exact absurd rfl hdot
    | more hp hmore =>
        obtain ⟨hP, rfl, rfl, hrest⟩ := (h _ _ _).mp hp
        cases hrest
        exact ⟨hP, _, hmore, rfl⟩
  · rintro ⟨hP, more, hmore, rfl⟩
    exact .more ((h _ _ _).mpr ⟨hP, rfl, rfl, rfl⟩) hmore

end

/-- Without a parameter there is no list, unless it is plain `void`. -/
theorem not_parameters_of_not_parameter {ts : List Token}
    (h : ∀ name type rest, ¬Parameter ts name type rest)
    (hvoid : ∀ ts', ts ≠ .word "void".toList :: closeParen :: ts') (first : Bool) (ps : CParams)
    (variadic : Bool) (rest : List Token) : ¬Parameters first ts ps variadic rest := by
  intro hps
  cases hps with
  | void => exact absurd rfl (hvoid _)
  | last hp => exact h _ _ _ hp
  | ellipsis hp => exact h _ _ _ hp
  | more hp _ => exact h _ _ _ hp

end Support.CDeclaration
