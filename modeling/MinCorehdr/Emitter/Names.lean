import MinCorehdr.Emitter.Reading

/-!
# Names that C accepts

The format of BTF asks for identifiers where the emitter prints names.  The trees of
such a table are well named, inline records included: whatever their members
print stays inside the braces.
-/

namespace MinCorehdr

open Support.CDeclaration Support.CToken Support.Result

/-- Empty, or an identifier. -/
def OptionalIdentifier (name : CString) : Prop := name = [] ∨ isIdentifier name = true

/-- The kinds whose name the emitter prints as a type. -/
def Kind.isNamedInC (kind : Kind) : Bool :=
  kind.isRecord || kind == .typedef || kind == .fwd || kind == .enum || kind == .enum64

/-- The names that the emitter prints are identifiers or empty; a forward declaration
has a name. -/
structure Btf.NamesAreIdentifiers (btf : Btf) : Prop where
  types : ∀ type ∈ btf.types, type.kind.isNamedInC = true →
    OptionalIdentifier (mchBtfTypeName btf type)
  fwds : ∀ type ∈ btf.types, type.kind = .fwd → mchBtfTypeName btf type ≠ []
  members : ∀ type ∈ btf.types, ∀ member ∈ type.members,
    OptionalIdentifier ((btfNameByOffset btf member.nameOff).getD [])
  params : ∀ type ∈ btf.types, ∀ param ∈ type.params,
    OptionalIdentifier ((btfNameByOffset btf param.nameOff).getD [])

instance (name : CString) : Decidable (OptionalIdentifier name) :=
  inferInstanceAs (Decidable (name = [] ∨ isIdentifier name = true))

instance (btf : Btf) : Decidable btf.NamesAreIdentifiers :=
  decidable_of_iff
    ((∀ type ∈ btf.types, type.kind.isNamedInC = true →
        OptionalIdentifier (mchBtfTypeName btf type)) ∧
      (∀ type ∈ btf.types, type.kind = .fwd → mchBtfTypeName btf type ≠ []) ∧
      (∀ type ∈ btf.types, ∀ member ∈ type.members,
        OptionalIdentifier ((btfNameByOffset btf member.nameOff).getD [])) ∧
      ∀ type ∈ btf.types, ∀ param ∈ type.params,
        OptionalIdentifier ((btfNameByOffset btf param.nameOff).getD []))
    ⟨fun ⟨types, fwds, members, params⟩ => ⟨types, fwds, members, params⟩,
      fun h => ⟨h.types, h.fwds, h.members, h.params⟩⟩

theorem mem_types_of_btfTypeById {btf : Btf} {id : Nat} {type : BtfType} (hzero : id ≠ 0)
    (h : btfTypeById btf id = some type) : type ∈ btf.types := by
  cases id with
  | zero => exact absurd rfl hzero
  | succ id => exact List.mem_of_getElem? h

/-! ## Texts without braces -/

theorem balanced_of_all {text : CString} (p : Char → Bool) (h : text.all p = true)
    (hopen : p '\x7b' = false) (hclose : p '\x7d' = false) : Balanced text := by
  apply Balanced.of_plain
  intro c hc
  have hp := List.all_eq_true.mp h c hc
  constructor
  · rintro rfl
    rw [hopen] at hp
    cases hp
  · rintro rfl
    rw [hclose] at hp
    cases hp

theorem balanced_word {w : CString} (h : w.all isWordChar = true) : Balanced w :=
  balanced_of_all isWordChar h (by decide) (by decide)

theorem balanced_plain {text : CString}
    (h : text.all (fun c => c != '\x7b' && c != '\x7d') = true) : Balanced text :=
  balanced_of_all _ h (by decide) (by decide)

theorem OptionalIdentifier.balanced {name : CString} (h : OptionalIdentifier name) :
    Balanced name := by
  rcases h with rfl | h
  · exact Balanced.nil
  · exact balanced_word (isWordChar_of_isIdentifier h).2

theorem balanced_spaced {text : CString} (h : Balanced text) : Balanced (spaced text) := by
  unfold spaced
  split
  · exact Balanced.nil
  · exact h.cons (by decide) (by decide)

theorem balanced_qualifierText (qs : List Qualifier) : Balanced (qualifierText qs) := by
  have hword : ∀ q : Qualifier, Balanced q.text := by
    intro q
    cases q <;> exact balanced_word (by decide)
  induction qs with
  | nil => exact Balanced.nil
  | cons q qs ih =>
      cases qs with
      | nil => exact hword q
      | cons p qs => exact (hword q).append (ih.cons (by decide) (by decide))

theorem balanced_inFront {run : List Qualifier} (qs : List Qualifier) :
    Balanced (inFront run qs) := by
  unfold inFront
  split
  · exact Balanced.nil
  · exact (balanced_qualifierText qs).append (balanced_plain (by decide))

theorem balanced_starText {text : CString} (h : Balanced text) (run : List Qualifier) :
    Balanced (starText run text) := by
  unfold starText
  split
  · exact h.cons (by decide) (by decide)
  · have hstar : Balanced "* ".toList := balanced_plain (by decide)
    exact (hstar.append (balanced_qualifierText _)).append (balanced_spaced h)

theorem balanced_bracketText {text : CString} (h : Balanced text) (n : Nat) :
    Balanced (bracketText text n) := by
  have hclose : Balanced [')'] := balanced_plain (by decide)
  have hbound : Balanced ('[' :: decimal n ++ [']']) :=
    (((balanced_word (decimal_isWord n)).cons (by decide) (by decide))).append
      (balanced_plain (by decide))
  unfold bracketText
  rw [List.append_assoc]
  split
  · exact (((h.cons (by decide) (by decide)).append hclose)).append hbound
  · exact h.append hbound

theorem balanced_openingText {text : CString} (h : Balanced text) : Balanced (openingText text) := by
  unfold openingText
  split_ifs
  · have hopen : Balanced " (".toList := balanced_plain (by decide)
    exact (hopen.append h).append (balanced_plain (by decide))
  · exact (h.cons (by decide) (by decide)).append (balanced_plain (by decide))
  · exact balanced_plain (by decide)

mutual

/-- Printing around a text without open braces leaves none open. -/
theorem Tree.WellNamed.balanced : ∀ (t : Tree), t.WellNamed → ∀ {text : CString},
    Balanced text → Balanced (t.print text)
  | .leaf _ _, h, _, htext => by
      have hleaf : IsLeafText _ := h
      rw [Tree.print]
      exact ((balanced_inFront _).append hleaf.balanced).append (balanced_spaced htext)
  | .ptr run t, h, _, htext => by
      rw [Tree.print]
      exact Tree.WellNamed.balanced t h (balanced_starText htext run)
  | .array _ t n, h, _, htext => by
      rw [Tree.print]
      exact (balanced_inFront _).append
        (Tree.WellNamed.balanced t h (balanced_bracketText htext n))
  | .tag _ t, h, _, htext => by
      rw [Tree.print]
      exact (balanced_inFront _).append (Tree.WellNamed.balanced t h htext)
  | .func _ t ps, h, _, htext => by
      have ht := Tree.WellNamed.balanced t h.1 Balanced.nil
      have hps := TreeParams.WellNamed.balanced ps h.2 true
      rw [Tree.print]
      exact ((((balanced_inFront _).append ht).append (balanced_openingText htext)).append hps).append
        (balanced_plain (by decide))

theorem TreeParams.WellNamed.balanced : ∀ (ps : TreeParams), ps.WellNamed →
    ∀ first, Balanced (ps.print first)
  | .nil, _, first => by
      cases first <;> exact balanced_plain (by decide)
  | .void _ ps, h, first => by
      have hps := TreeParams.WellNamed.balanced ps h false
      have hcomma : Balanced (if first then [] else ", ".toList) := by
        cases first <;> exact balanced_plain (by decide)
      rw [TreeParams.print]
      exact (hcomma.append (balanced_plain (by decide))).append hps
  | .cons name t ps, h, first => by
      have ht := Tree.WellNamed.balanced t h.2.1 (balanced_word (isWordChar_of_isIdentifier h.1).2)
      have hps := TreeParams.WellNamed.balanced ps h.2.2 false
      have hcomma : Balanced (if first then [] else ", ".toList) := by
        cases first <;> exact balanced_plain (by decide)
      rw [TreeParams.print]
      exact (hcomma.append ht).append hps

end

/-! ## Leaves -/

section

variable {text : CString} {ts : List Token}

theorem IsLeafText.of_lexes (hlexes : Lexes text ts) (hspecifier : IsSpecifier ts)
    (hbalanced : Balanced text) : IsLeafText text := by
  obtain rfl := hlexes.lex_eq
  exact ⟨hlexes, hspecifier, hbalanced⟩

/-- The names of the types that need no BTF name. -/
def builtinTexts : List CString :=
  ["void", "_Bool", "signed char", "unsigned char", "short", "unsigned short", "int",
    "unsigned int", "long long", "unsigned long long", "float", "double",
    "long double"].map String.toList

theorem isLeafText_builtin (h : text ∈ builtinTexts) : IsLeafText text := by
  have hall : ∀ text ∈ builtinTexts,
      (Lexer.start.scan text).flush = Lexer.after (lex text) Lexer.start ∧
        (lex text).all isTypeKeyword = true ∧ lex text ≠ [] ∧
          text.all (fun c => c != '\x7b' && c != '\x7d') = true := by
    decide
  obtain ⟨hlexes, hkeywords, hne, hplain⟩ := hall text h
  refine ⟨hlexes, ?_, balanced_plain hplain⟩
  obtain ⟨t, ts, heq⟩ := List.exists_cons_of_ne_nil hne
  rw [heq] at hkeywords ⊢
  simp only [List.all_cons, Bool.and_eq_true, List.all_eq_true] at hkeywords
  cases t with
  | word w => exact .builtin hkeywords.1 hkeywords.2
  | punct c => cases hkeywords.1
  | braces b => cases hkeywords.1

theorem intTypeName_mem (type : BtfType) : intTypeName type ∈ builtinTexts := by
  unfold intTypeName
  extract_lets encoding isBool isChar isSigned bits
  clear_value bits
  split_ifs
  · decide
  · decide
  · decide
  · split <;> decide
  · split <;> decide

theorem floatTypeName_mem (type : BtfType) : floatTypeName type ∈ builtinTexts := by
  unfold floatTypeName
  split <;> decide

theorem isLeafText_name (h : isIdentifier text = true) : IsLeafText text := by
  obtain ⟨hne, hall⟩ := isWordChar_of_isIdentifier h
  exact .of_lexes (Lexes.word hne hall) (.name h) (balanced_word hall)

variable {keyword : CString}

theorem tagKeyword_word (h : tagKeywords.contains keyword = true) :
    keyword ≠ [] ∧ keyword.all isWordChar = true := by
  have hall : ∀ w ∈ tagKeywords, w ≠ [] ∧ w.all isWordChar = true := by
    decide
  exact hall keyword (List.contains_iff_mem.mp h)

theorem lexes_tag (hkeyword : tagKeywords.contains keyword = true) {name : CString}
    (h : isIdentifier name = true) :
    Lexes (keyword ++ [' '] ++ name) [.word keyword, .word name] := by
  obtain ⟨hne, hall⟩ := isWordChar_of_isIdentifier h
  obtain ⟨hkne, hkall⟩ := tagKeyword_word hkeyword
  rw [List.append_assoc]
  refine (Lexes.word hkne hkall).append (Lexes.word hne hall).blank ?_
  intro c hc
  cases hc
  decide

theorem isLeafText_tag (hkeyword : tagKeywords.contains keyword = true) {name : CString}
    (h : isIdentifier name = true) : IsLeafText (keyword ++ [' '] ++ name) := by
  have hname := (balanced_word (isWordChar_of_isIdentifier h).2).cons
    (by decide : ' ' ≠ '\x7b') (by decide)
  have hbalanced := (balanced_word (tagKeyword_word hkeyword).2).append hname
  rw [← List.singleton_append, ← List.append_assoc] at hbalanced
  exact .of_lexes (lexes_tag hkeyword h) (.tag hkeyword h) hbalanced

/-- A record without a name is its keyword and the text between its braces. -/
theorem isLeafText_inline (hkeyword : tagKeywords.contains keyword = true) {body : CString}
    (h : Balanced body) : IsLeafText (keyword ++ (" \x7b".toList ++ body ++ "\x7d".toList)) := by
  obtain ⟨hkne, hkall⟩ := tagKeyword_word hkeyword
  have hbraces : Lexes ('\x7b' :: body ++ '\x7d' :: []) [.braces body] :=
    Lexes.braces h Lexes.nil
  have hlexes : Lexes (keyword ++ ' ' :: ('\x7b' :: body ++ '\x7d' :: []))
      ([.word keyword] ++ [.braces body]) := by
    refine (Lexes.word hkne hkall).append hbraces.blank ?_
    intro c hc
    cases hc
    decide
  exact .of_lexes hlexes (.record hkeyword)
    ((balanced_word hkall).append (h.wrap.cons (by decide) (by decide)))

end

/-! ## Trees of such a table -/

section

variable {ctx : EmitCtx} {fuel id : Nat} {type : BtfType}

theorem recordKeyword_mem (type : BtfType) :
    tagKeywords.contains (recordKeyword type) = true := by
  unfold recordKeyword
  split <;> decide

/-- What the members of a record print has no open brace. -/
theorem balanced_members (hnames : ctx.btf.NamesAreIdentifiers) (hmem : type ∈ ctx.btf.types)
    (htrees : ∀ id t, treeOf ctx fuel id = some t → t.WellNamed) {pieces : List Piece}
    {members : List (BtfMember × Nat)} (hmembers : ∀ m ∈ members, m.1 ∈ type.members)
    (h : collect (emitMember ctx (emitDeclEx ctx fuel) id type.kflag) members = .ok pieces) :
    Balanced (declText pieces) := by
  induction members generalizing pieces with
  | nil =>
      cases h
      exact Balanced.nil
  | cons member members ih =>
      obtain ⟨first, rest, hfirst, hrest, rfl⟩ := collect_cons_eq_ok.mp h
      have hdone := ih (fun m hm => hmembers m (List.mem_cons_of_mem _ hm)) hrest
      rw [declText_append]
      refine Balanced.append ?_ hdone
      have hown := hmembers member List.mem_cons_self
      unfold emitMember at hfirst
      simp only at hfirst
      split at hfirst
      next =>
        cases hfirst
        exact Balanced.nil
      next =>
        obtain ⟨decl, hdecl, hfirst⟩ := bind_eq_ok.mp hfirst
        cases hfirst
        obtain ⟨t, ht, htext⟩ := emitDeclEx_text ctx fuel _ _ _ hdecl
        have hdeclared : Balanced (declText decl) := by
          rw [htext]
          exact Tree.WellNamed.balanced t (htrees _ _ ht)
            (hnames.members type hmem member.1 hown).balanced
        have hindent : Balanced "  ".toList := balanced_plain (by decide)
        have hend : ∀ size : Nat, Balanced
            ((if size ≠ 0 then " : ".toList ++ decimal size else []) ++ ";\n".toList) := by
          intro size
          have hline : Balanced ";\n".toList := balanced_plain (by decide)
          have hcolon : Balanced " : ".toList := balanced_plain (by decide)
          split
          · exact (hcolon.append (balanced_word (decimal_isWord size))).append hline
          · exact hline
        rw [declText_append, declText_cons, declText_cons, declText_nil, List.append_nil]
        exact (hindent.append hdeclared).append (hend _)

theorem isLeafText_record (hnames : ctx.btf.NamesAreIdentifiers) (hmem : type ∈ ctx.btf.types)
    (htrees : ∀ id t, treeOf ctx fuel id = some t → t.WellNamed) {keyword : CString}
    (hkeyword : tagKeywords.contains keyword = true) {body : List Piece}
    (h : emitRecordBody ctx (emitDeclEx ctx fuel) id type = .ok body) :
    IsLeafText (keyword ++ declText body) := by
  obtain ⟨members, hmembers, h⟩ := bind_eq_ok.mp h
  cases h
  have hinside : Balanced ("\n".toList ++ declText members) :=
    (balanced_plain (by decide)).append
      (balanced_members hnames hmem htrees (fun m hm => List.fst_mem_of_mem_zipIdx hm) hmembers)
  have htext : declText (.text " \x7b\n".toList :: members ++ [.text "\x7d".toList]) =
      " \x7b".toList ++ ("\n".toList ++ declText members) ++ "\x7d".toList := by
    simp [Piece.toText]
  rw [htext]
  exact isLeafText_inline hkeyword hinside

/-- A text the printer writes as it stands is a type specifier. -/
theorem isLeafText_leafText (hnames : ctx.btf.NamesAreIdentifiers) (hmem : type ∈ ctx.btf.types)
    (htrees : ∀ id t, treeOf ctx fuel id = some t → t.WellNamed)
    (hnamed : type.kind = .typedef → mchBtfTypeName ctx.btf type ≠ []) {text : CString}
    (h : leafText ctx (emitDeclEx ctx fuel) id type = some text) : IsLeafText text := by
  have hname : type.kind.isNamedInC = true → mchBtfTypeName ctx.btf type ≠ [] →
      isIdentifier (mchBtfTypeName ctx.btf type) = true :=
    fun hkind hne => (hnames.types type hmem hkind).resolve_left hne
  have hinline : ∀ keyword : CString, tagKeywords.contains keyword = true →
      ((emitRecordBody ctx (emitDeclEx ctx fuel) id type).toOption.map fun body =>
          keyword ++ declText body) = some text → IsLeafText text := by
    intro keyword hkeyword hmap
    obtain ⟨body, hbody, rfl⟩ := Option.map_eq_some_iff.mp hmap
    exact isLeafText_record hnames hmem htrees hkeyword (toOption_eq_some.mp hbody)
  unfold leafText at h
  cases hkind : type.kind <;> simp only [hkind, Option.some.injEq, reduceCtorEq] at h
  case int =>
    exact h ▸ isLeafText_builtin (intTypeName_mem type)
  case float =>
    exact h ▸ isLeafText_builtin (floatTypeName_mem type)
  case typedef =>
    exact h ▸ isLeafText_name (hname (by rw [hkind]; rfl) (hnamed hkind))
  case struct | union =>
    by_cases hanon : mchBtfTypeName ctx.btf type = []
    · rw [if_pos hanon] at h
      exact hinline _ (by decide) h
    · rw [if_neg hanon] at h
      cases h
      exact isLeafText_tag (recordKeyword_mem type) (hname (by rw [hkind]; rfl) hanon)
  case fwd =>
    exact h ▸ isLeafText_tag (recordKeyword_mem type)
      (hname (by rw [hkind]; rfl) (hnames.fwds type hmem hkind))
  case enum =>
    split_ifs at h with hanon
    · exact h ▸ isLeafText_builtin (by decide)
    · exact h ▸ @isLeafText_tag "enum".toList (by decide) _ (hname (by rw [hkind]; rfl) hanon)
  case enum64 =>
    split_ifs at h with hanon
    · exact h ▸ isLeafText_builtin (by decide)
    · exact h ▸ @isLeafText_tag "enum".toList (by decide) _ (hname (by rw [hkind]; rfl) hanon)

/-- A parameter is printed with an identifier. -/
theorem isIdentifier_paramName {param : BtfParam}
    (h : OptionalIdentifier ((btfNameByOffset ctx.btf param.nameOff).getD [])) (i : Nat) :
    isIdentifier (paramName ctx param i) = true := by
  have hgenerated : isIdentifier ("arg".toList ++ decimal i) = true := by
    have hkeyword : ∀ w ∈ keywords, w.take 3 ≠ "arg".toList := by
      decide
    have hnot : keywords.contains ("arg".toList ++ decimal i) = false := by
      by_contra hne
      exact hkeyword _ (List.contains_iff_mem.mp (Bool.not_eq_false _ ▸ hne)) rfl
    have hword : ("arg".toList ++ decimal i).all isWordChar = true := by
      rw [List.all_append, decimal_isWord]
      rfl
    unfold isIdentifier
    rw [hnot, hword]
    rfl
  unfold paramName
  split
  next c name heq =>
    rw [heq] at h
    exact h.resolve_left (List.cons_ne_nil c name)
  next => exact hgenerated

theorem paramTrees_wellNamed {tree : Nat → Option Tree} {params : List (BtfParam × Nat)}
    (hnames : ∀ p ∈ params, OptionalIdentifier ((btfNameByOffset ctx.btf p.1.nameOff).getD []))
    (htrees : ∀ id t, tree id = some t → t.WellNamed) {ps : TreeParams}
    (h : paramTrees ctx tree params = some ps) : ps.WellNamed := by
  induction params generalizing ps with
  | nil =>
      cases h
      trivial
  | cons param params ih =>
      obtain ⟨rest, hrest, h⟩ := Option.bind_eq_some_iff.mp h
      have hdone := ih (fun p hp => hnames p (List.mem_cons_of_mem _ hp)) hrest
      split at h
      next =>
        cases h
        exact hdone
      next =>
        obtain ⟨t, ht, rfl⟩ := Option.map_eq_some_iff.mp h
        exact ⟨isIdentifier_paramName (hnames param List.mem_cons_self) param.2, htrees _ _ ht, hdone⟩

theorem Tree.WellNamed.withRun {t : Tree} (h : t.WellNamed) (run : List Qualifier) :
    (t.withRun run).WellNamed := by
  cases t <;> exact h

/-- The trees of a table with such names are well named. -/
theorem treeOf_wellNamed (hnames : ctx.btf.NamesAreIdentifiers) (fuel : Nat) :
    ∀ id t, treeOf ctx fuel id = some t → t.WellNamed := by
  induction fuel with
  | zero =>
      intro id t h
      cases h
  | succ fuel ih =>
      intro id t h
      by_cases hzero : id = 0
      · rw [treeOf, if_pos hzero] at h
        cases h
        exact isLeafText_builtin (by decide)
      rw [treeOf, if_neg hzero] at h
      obtain ⟨type, htype, h⟩ := Option.bind_eq_some_iff.mp h
      have hmem := mem_types_of_btfTypeById hzero htype
      cases hqualifier : qualifierOfKind type.kind with
      | some q =>
          simp only [hqualifier] at h
          obtain ⟨⟨run, current, target⟩, _, h⟩ := Option.bind_eq_some_iff.mp h
          simp only at h
          split at h <;> obtain ⟨below, hbelow, rfl⟩ := Option.map_eq_some_iff.mp h
          · have hwell := ih _ _ hbelow
            exact hwell
          · exact (ih _ _ hbelow).withRun run
      | none =>
          simp only [hqualifier] at h
          have hleaf : (type.kind = .typedef → mchBtfTypeName ctx.btf type ≠ []) →
              (leafText ctx (emitDeclEx ctx fuel) id type).map (Tree.leaf []) = some t →
                t.WellNamed := by
            intro hnamed hmap
            obtain ⟨text, htext, rfl⟩ := Option.map_eq_some_iff.mp hmap
            exact isLeafText_leafText hnames hmem ih hnamed htext
          unfold treeNode at h
          cases hkind : type.kind <;> simp only [hkind] at h hqualifier
          case ptr | array | typeTag | declTag =>
            obtain ⟨below, hbelow, rfl⟩ := Option.map_eq_some_iff.mp h
            have hwell := ih _ _ hbelow
            exact hwell
          case typedef =>
            split at h
            next =>
              obtain ⟨below, hbelow, rfl⟩ := Option.map_eq_some_iff.mp h
              have hwell := ih _ _ hbelow
              exact hwell
            next hne => exact hleaf (fun _ => hne) h
          case funcProto =>
            obtain ⟨result, hresult, h⟩ := Option.bind_eq_some_iff.mp h
            obtain ⟨ps, hps, rfl⟩ := Option.map_eq_some_iff.mp h
            refine ⟨ih _ _ hresult, paramTrees_wellNamed ?_ ih hps⟩
            exact fun p hp => hnames.params type hmem p.1 (List.fst_mem_of_mem_zipIdx hp)
          all_goals exact hleaf (fun hw => by rw [hkind] at hw; cases hw) h

end

end MinCorehdr
