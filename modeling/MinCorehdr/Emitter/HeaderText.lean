import MinCorehdr.Emitter.RecordLayout
import MinCorehdr.Support.CUnit

/-!
# The text of a header

Of the lines of a header only those of the guards are directives.  The others are the
declarations of its items, one behind the other, as tokens.
-/

namespace MinCorehdr

open Support.CConstant Support.CDeclaration Support.CRecord Support.CToken Support.CUnit
  Support.Result Support.Sequence

/-! ## Texts without directives -/

theorem hash_not_mem_of_all {text : CString} (h : text.all isWordChar = true) : '#' ∉ text := by
  intro hmem
  have hword := List.all_eq_true.mp h '#' hmem
  exact absurd hword (by decide)

theorem OptionalIdentifier.hash_not_mem {name : CString} (h : OptionalIdentifier name) :
    '#' ∉ name := by
  rcases h with rfl | h
  · exact List.not_mem_nil
  · exact hash_not_mem_of_all (isWordChar_of_isIdentifier h).2

theorem hash_not_mem_decimal (n : Nat) : '#' ∉ decimal n := hash_not_mem_of_all (decimal_isWord n)

theorem hash_not_mem_spaced {declarator : CString} (h : '#' ∉ declarator) :
    '#' ∉ spaced declarator := by
  unfold spaced
  split
  · exact List.not_mem_nil
  · simpa using h

theorem hash_not_mem_qualifierText (qs : List Qualifier) : '#' ∉ qualifierText qs := by
  have hword : ∀ q : Qualifier, '#' ∉ q.text := by
    intro q
    cases q <;> decide
  induction qs with
  | nil => exact List.not_mem_nil
  | cons q qs ih =>
      cases qs with
      | nil => exact hword q
      | cons q' qs =>
          have hrest : '#' ∉ ' ' :: qualifierText (q' :: qs) := by
            simpa using ih
          simpa [qualifierText, hword q] using hrest

theorem hash_not_mem_builtin {text : CString} (h : text ∈ builtinTexts) : '#' ∉ text := by
  have hall : ∀ text ∈ builtinTexts, '#' ∉ text := by
    decide
  exact hall text h

/-- Where a printer is given no `#`, it prints none. -/
def PrintsNoHash (decl : Nat → CString → Except Fault (List Piece)) : Prop :=
  ∀ id declarator pieces, '#' ∉ declarator → decl id declarator = .ok pieces →
    '#' ∉ declText pieces

theorem hash_not_mem_collect {α : Type} {f : α → Except Fault (List Piece)} {as : List α}
    {pieces : List Piece} (hone : ∀ a ∈ as, ∀ xs, f a = .ok xs → '#' ∉ declText xs)
    (h : collect f as = .ok pieces) : '#' ∉ declText pieces := by
  induction as generalizing pieces with
  | nil =>
      cases h
      exact List.not_mem_nil
  | cons a as ih =>
      obtain ⟨first, rest, hfirst, hrest, rfl⟩ := collect_cons_eq_ok.mp h
      have hown := hone a List.mem_cons_self first hfirst
      have hmore := ih (fun b hb => hone b (List.mem_cons_of_mem _ hb)) hrest
      rw [declText_append]
      simp [hown, hmore]

theorem ok_of_makeDeclarator {text problem next : CString}
    (h : makeDeclarator text problem = .ok next) : next = text := by
  unfold makeDeclarator at h
  split at h
  · cases h
  · cases h
    rfl

section

variable {ctx : EmitCtx} {decl : Nat → CString → Except Fault (List Piece)}

theorem emitQualifiedDecl_noHash (hdecl : PrintsNoHash decl) {fuel id : Nat} {declarator : CString}
    {pieces : List Piece} (hname : '#' ∉ declarator)
    (h : emitQualifiedDecl ctx decl fuel id declarator = .ok pieces) : '#' ∉ declText pieces := by
  obtain ⟨⟨current, type, mask⟩, _, h⟩ := bind_eq_ok.mp h
  simp only at h
  generalize (if type.kind = .array then mask &&& ~~~(leadingQualifierMask ctx type.array.type)
    else mask) = kept at h
  rw [appendQualifierMask_eq] at h
  simp only at h
  have hqualifiers := hash_not_mem_qualifierText
    ([.const, .volatile, .restrict].filter fun q => kept.getLsbD (qualifierIndex q))
  split at h
  next hptr =>
    obtain ⟨next, hnext, h⟩ := bind_eq_ok.mp h
    obtain rfl := ok_of_makeDeclarator hnext
    refine hdecl _ _ _ ?_ h
    have hspaced := hash_not_mem_spaced hname
    simp [hqualifiers, hspaced]
  next hptr =>
    obtain ⟨rest, hrest, h⟩ := bind_eq_ok.mp h
    cases h
    have hmore := hdecl _ _ _ hname hrest
    simpa [declText, Piece.toText, hqualifiers] using hmore

theorem emitParams_noHash (hdecl : PrintsNoHash decl) {proto : BtfType} {pieces : List Piece}
    (hparams : ∀ param ∈ proto.params,
      OptionalIdentifier ((btfNameByOffset ctx.btf param.nameOff).getD []))
    (h : emitParams ctx decl proto = .ok pieces) : '#' ∉ declText pieces := by
  unfold emitParams at h
  split at h
  next =>
    cases h
    decide
  next =>
    refine hash_not_mem_collect ?_ h
    intro param hparam xs hxs
    obtain ⟨param, i⟩ := param
    have hcomma : '#' ∉ (if 0 < i then ", ".toList else [] : CString) := by
      split <;> decide
    unfold emitParam at hxs
    simp only at hxs
    split at hxs
    next =>
      cases hxs
      simp [Piece.toText]
    next =>
      obtain ⟨ys, hys, hxs⟩ := bind_eq_ok.mp hxs
      cases hxs
      have hidentifier := isIdentifier_paramName
        (hparams param (List.fst_mem_of_mem_zipIdx hparam)) i
      have hown := hdecl _ _ _ (hash_not_mem_of_all (isWordChar_of_isIdentifier hidentifier).2) hys
      simpa [declText, Piece.toText, hcomma] using hown

theorem emitFuncDecl_noHash (hdecl : PrintsNoHash decl) {id : Nat} {proto : BtfType}
    (hproto : btfTypeById ctx.btf id = some proto) {declarator : CString} {pieces : List Piece}
    (hparams : ∀ param ∈ proto.params,
      OptionalIdentifier ((btfNameByOffset ctx.btf param.nameOff).getD []))
    (hname : '#' ∉ declarator) (h : emitFuncDecl ctx decl id declarator = .ok pieces) :
    '#' ∉ declText pieces := by
  unfold emitFuncDecl at h
  rw [typeById_of_some hproto, ok_bind] at h
  obtain ⟨result, hresult, h⟩ := bind_eq_ok.mp h
  obtain ⟨params, hprinted, h⟩ := bind_eq_ok.mp h
  cases h
  have hfirst := hdecl _ _ _ List.not_mem_nil hresult
  have hrest := emitParams_noHash hdecl hparams hprinted
  have hopening : '#' ∉ openingText declarator := by
    unfold openingText
    split_ifs <;> simp [hname]
  change '#' ∉ declText (result ++ .text (openingText declarator) :: params ++ [.text [')']])
  simp [Piece.toText, hfirst, hrest, hopening]

theorem emitRecordBody_noHash (hdecl : PrintsNoHash decl) {id : Nat} {record : BtfType}
    (hmembers : ∀ member ∈ record.members,
      OptionalIdentifier ((btfNameByOffset ctx.btf member.nameOff).getD []))
    {pieces : List Piece} (h : emitRecordBody ctx decl id record = .ok pieces) :
    '#' ∉ declText pieces := by
  obtain ⟨members, hprinted, h⟩ := bind_eq_ok.mp h
  cases h
  have hall : '#' ∉ declText members := by
    refine hash_not_mem_collect ?_ hprinted
    intro member hmember xs hxs
    obtain ⟨member, i⟩ := member
    unfold emitMember at hxs
    simp only at hxs
    split at hxs
    next =>
      cases hxs
      exact List.not_mem_nil
    next =>
      obtain ⟨ys, hys, hxs⟩ := bind_eq_ok.mp hxs
      cases hxs
      have hname := (hmembers member (List.fst_mem_of_mem_zipIdx hmember)).hash_not_mem
      have hown := hdecl _ _ _ hname hys
      have hwidth := hash_not_mem_decimal (if record.kflag then member.offset >>> 24 else 0)
      split_ifs <;> simp_all [Piece.toText]
  simp [Piece.toText, hall]

/-- The printer prints no `#`, whatever the fuel. -/
theorem emitDeclEx_noHash (hnames : ctx.btf.NamesAreIdentifiers) (fuel : Nat) :
    PrintsNoHash (emitDeclEx ctx fuel) := by
  induction fuel with
  | zero =>
      intro id declarator pieces _ h
      cases h
  | succ fuel ih =>
      intro id declarator pieces hname h
      have hspaced := hash_not_mem_spaced hname
      rw [emitDeclEx] at h
      split at h
      next =>
        cases h
        simp [Piece.toText, hspaced]
      next hzero =>
        obtain ⟨type, htype, h⟩ := bind_eq_ok.mp h
        rw [typeById_eq_ok] at htype
        have hmem := mem_types_of_btfTypeById hzero htype
        have hown : type.kind.isNamedInC = true → '#' ∉ mchBtfTypeName ctx.btf type :=
          fun hkind => (hnames.types type hmem hkind).hash_not_mem
        have hkeyword : '#' ∉ recordKeyword type := by
          unfold recordKeyword
          split <;> decide
        have htagged : ∀ keyword : CString, '#' ∉ keyword → '#' ∉ mchBtfTypeName ctx.btf type →
            '#' ∉ declText [.tagName id keyword (mchBtfTypeName ctx.btf type),
              .text (spaced declarator)] := by
          intro keyword hfirst hlast
          simp [Piece.toText, hspaced, hfirst, hlast]
        cases hkind : type.kind <;> simp only [hkind] at h
        case int =>
          cases h
          simpa [declText, Piece.toText, hspaced] using hash_not_mem_builtin (intTypeName_mem type)
        case float =>
          cases h
          simpa [declText, Piece.toText, hspaced] using hash_not_mem_builtin (floatTypeName_mem type)
        case ptr =>
          obtain ⟨next, hnext, h⟩ := bind_eq_ok.mp h
          obtain rfl := ok_of_makeDeclarator hnext
          exact ih _ _ _ (by simpa using hname) h
        case array =>
          obtain ⟨next, hnext, h⟩ := bind_eq_ok.mp h
          obtain rfl := ok_of_makeDeclarator hnext
          refine ih _ _ _ ?_ h
          have hbound := hash_not_mem_decimal type.array.nelems
          split_ifs <;> simp [hname, hbound]
        case const | volatile | restrict => exact emitQualifiedDecl_noHash ih hname h
        case typeTag | declTag => exact ih _ _ _ hname h
        case typedef =>
          split at h
          next => exact ih _ _ _ hname h
          next =>
            cases h
            simpa [declText, Piece.toText, hspaced] using hown (by rw [hkind]; rfl)
        case struct | union =>
          split at h
          next =>
            obtain ⟨body, hbody, h⟩ := bind_eq_ok.mp h
            cases h
            have hinner := emitRecordBody_noHash ih (hnames.members type hmem) hbody
            simp [Piece.toText, hinner, hspaced, hkind]
          next =>
            cases h
            exact htagged _ hkeyword (hown (by rw [hkind]; rfl))
        case fwd =>
          cases h
          exact htagged _ hkeyword (hown (by rw [hkind]; rfl))
        case enum | enum64 =>
          split at h
          next =>
            cases h
            simp [Piece.toText, hspaced]
          next =>
            cases h
            exact htagged _ (by decide) (hown (by rw [hkind]; rfl))
        case funcProto => exact emitFuncDecl_noHash ih htype (hnames.params type hmem) hname h
        all_goals cases h

end

/-! ## Enumerators -/

/-- A number, with a minus sign or without. -/
def IsNumeral (text : CString) : Prop :=
  ∃ w, w ≠ [] ∧ w.all isWordChar = true ∧ (text = w ∨ text = '-' :: w)

theorem isNumeral_signedDecimal (n : Int) : IsNumeral (signedDecimal n) := by
  have hne : decimal n.natAbs ≠ [] := Nat.toDigits_ne_nil
  unfold signedDecimal
  split
  · exact ⟨_, hne, decimal_isWord _, Or.inr rfl⟩
  · exact ⟨_, hne, decimal_isWord _, Or.inl rfl⟩

theorem isNumeral_unsigned (n : Nat) : IsNumeral (decimal n ++ "ULL".toList) := by
  refine ⟨_, by simp, ?_, Or.inl rfl⟩
  rw [List.all_append, decimal_isWord]
  rfl

theorem isNumeral_of_mem {btf : Btf} {type : BtfType} {constant : Enumerator}
    (h : constant ∈ enumerators btf type) : IsNumeral constant.value := by
  unfold enumerators at h
  split at h
  · obtain ⟨value, _, rfl⟩ := List.mem_map.mp h
    exact isNumeral_signedDecimal _
  · obtain ⟨value, _, rfl⟩ := List.mem_map.mp h
    change IsNumeral (if type.kflag = true then _ else _)
    split
    · exact isNumeral_signedDecimal _
    · exact isNumeral_unsigned _

section

variable {text : CString}

theorem IsNumeral.lexes (h : IsNumeral text) : Lexes text (constantTokens text) := by
  obtain ⟨w, hne, hall, rfl | rfl⟩ := h
  · have htokens : constantTokens text = [.word text] := by
      rcases constantTokens_cases text with ⟨w, rfl, _⟩ | hone
      · exact absurd (List.all_eq_true.mp hall '-' List.mem_cons_self) (by decide)
      · exact hone
    rw [htokens]
    exact Lexes.word hne hall
  · exact (Lexes.word hne hall).punct (by decide)

theorem IsNumeral.hash_not_mem (h : IsNumeral text) : '#' ∉ text := by
  obtain ⟨w, _, hall, rfl | rfl⟩ := h
  · exact hash_not_mem_of_all hall
  · simpa using hash_not_mem_of_all hall

theorem IsNumeral.balanced (h : IsNumeral text) : Balanced text := by
  obtain ⟨w, _, hall, rfl | rfl⟩ := h
  · exact balanced_word hall
  · exact (balanced_word hall).cons (by decide) (by decide)

end

/-- The names of the constants are identifiers. -/
def Btf.EnumeratorsAreIdentifiers (btf : Btf) : Prop :=
  ∀ type ∈ btf.types, isEnumKind type = true →
    ∀ constant ∈ enumerators btf type, isIdentifier constant.name = true

instance (btf : Btf) : Decidable btf.EnumeratorsAreIdentifiers :=
  inferInstanceAs (Decidable (∀ type ∈ btf.types, isEnumKind type = true →
    ∀ constant ∈ enumerators btf type, isIdentifier constant.name = true))

def enumeratorTexts (constants : List Enumerator) : List (CString × CString) :=
  constants.map fun constant => (constant.name, constant.value)

/-- The text of one constant, to its end or to the comma behind it. -/
def enumeratorText (constant : Enumerator) : CString :=
  "  ".toList ++ constant.name ++ " = ".toList ++ constant.value

section

variable {constant : Enumerator}

theorem enumeratorText_lexes (hname : isIdentifier constant.name = true)
    (hvalue : IsNumeral constant.value) {rest : CString} {ts : List Token} (h : Lexes rest ts)
    (hseam : ∀ c ∈ rest.head?, isWordChar c = false) :
    Lexes (enumeratorText constant ++ rest)
      (.word constant.name :: equals :: (constantTokens constant.value ++ ts)) := by
  obtain ⟨hne, hall⟩ := isWordChar_of_isIdentifier hname
  have hequals : Lexes ('=' :: ' ' :: (constant.value ++ rest))
      (equals :: (constantTokens constant.value ++ ts)) :=
    (hvalue.lexes.append h hseam).blank.punct (by decide)
  have hline : Lexes (constant.name ++ ' ' :: '=' :: ' ' :: (constant.value ++ rest))
      ([.word constant.name] ++ equals :: (constantTokens constant.value ++ ts)) := by
    refine (Lexes.word hne hall).append hequals.blank ?_
    intro c hc
    cases hc
    decide
  have htext : enumeratorText constant ++ rest =
      ' ' :: ' ' :: (constant.name ++ ' ' :: '=' :: ' ' :: (constant.value ++ rest)) := by
    simp [enumeratorText]
  rw [htext]
  exact hline.blank.blank

theorem enumeratorText_balanced (hname : isIdentifier constant.name = true)
    (hvalue : IsNumeral constant.value) : Balanced (enumeratorText constant) :=
  (((balanced_plain (by decide)).append
    (balanced_word (isWordChar_of_isIdentifier hname).2)).append
      (balanced_plain (by decide))).append hvalue.balanced

theorem hash_not_mem_enumeratorText (hname : isIdentifier constant.name = true)
    (hvalue : IsNumeral constant.value) : '#' ∉ enumeratorText constant := by
  have hword := hash_not_mem_of_all (isWordChar_of_isIdentifier hname).2
  simp [enumeratorText, hword, hvalue.hash_not_mem]

end

/-- The lines of an enum body are its constants, with a comma between each two. -/
theorem enumeratorLines_text {constants : List Enumerator}
    (hnames : ∀ constant ∈ constants, isIdentifier constant.name = true)
    (hvalues : ∀ constant ∈ constants, IsNumeral constant.value) :
    Lexes (enumeratorLines constants) (enumeratorTokens (enumeratorTexts constants)) ∧
      Balanced (enumeratorLines constants) ∧ '#' ∉ enumeratorLines constants := by
  induction constants with
  | nil => exact ⟨Lexes.nil, Balanced.nil, List.not_mem_nil⟩
  | cons constant constants ih =>
      have hname := hnames constant List.mem_cons_self
      have hvalue := hvalues constant List.mem_cons_self
      obtain ⟨hlexes, hbalanced, hhash⟩ :=
        ih (fun other hother => hnames other (List.mem_cons_of_mem _ hother))
          (fun other hother => hvalues other (List.mem_cons_of_mem _ hother))
      have hownBalanced := enumeratorText_balanced hname hvalue
      have hownHash := hash_not_mem_enumeratorText hname hvalue
      cases constants with
      | nil =>
          have htext : enumeratorLines [constant] = enumeratorText constant ++ ['\n'] := rfl
          have hend : Lexes ['\n'] [] := Lexes.nil
          have hline := enumeratorText_lexes hname hvalue hend (by
            intro c hc
            cases hc
            decide)
          rw [List.append_nil] at hline
          rw [htext]
          exact ⟨hline, hownBalanced.append (balanced_plain (by decide)), by simp [hownHash]⟩
      | cons next constants =>
          have htext : enumeratorLines (constant :: next :: constants) =
              enumeratorText constant ++ ',' :: '\n' :: enumeratorLines (next :: constants) := by
            simp [enumeratorLines, enumeratorText]
          have hnewline : Lexes ('\n' :: enumeratorLines (next :: constants))
              (enumeratorTokens (enumeratorTexts (next :: constants))) := hlexes
          have hcomma : Lexes (',' :: '\n' :: enumeratorLines (next :: constants))
              (comma :: enumeratorTokens (enumeratorTexts (next :: constants))) :=
            hnewline.punct (by decide)
          rw [htext]
          refine ⟨enumeratorText_lexes hname hvalue hcomma ?_, hownBalanced.append ?_, ?_⟩
          · intro c hc
            cases hc
            decide
          · exact (hbalanced.cons (by decide) (by decide)).cons (by decide) (by decide)
          · simp [hownHash, hhash]

/-! ## Items -/

def Item.tokens : Item → List Token
  | .text _ => []
  | .forwardDecl _ keyword name => [.word keyword, .word name, semicolon]
  | .enumDef _ name constants =>
      .word "enum".toList :: nameTokens name ++ [.braces ('\n' :: enumeratorLines constants), semicolon]
  | .typedefDef _ _ decl => .word "typedef".toList :: lex (declText decl) ++ [semicolon]
  | .recordDef _ keyword name body =>
      .word keyword :: .word name :: lex (declText body) ++ [semicolon]

section

variable {id : Nat} {keyword name : CString}

theorem toText_text {written : CString} : (Item.text written).toText = written := rfl

theorem toText_forwardDecl : (Item.forwardDecl id keyword name).toText =
    keyword ++ [' '] ++ name ++ ";\n".toList := rfl

theorem toText_enumDef {constants : List Enumerator} : (Item.enumDef id name constants).toText =
    (if name = [] then "enum \x7b\n".toList else "enum ".toList ++ name ++ " \x7b\n".toList) ++
      enumeratorLines constants ++ "\x7d;\n\n".toList := rfl

theorem toText_typedefDef {decl : List Piece} : (Item.typedefDef id name decl).toText =
    "typedef ".toList ++ declText decl ++ ";\n\n".toList := rfl

theorem toText_recordDef {body : List Piece} : (Item.recordDef id keyword name body).toText =
    keyword ++ [' '] ++ name ++ declText body ++ ";\n\n".toList := rfl

end

/-- The item is whole lines, none of them a directive, that are read as its tokens. -/
structure Item.IsPrinted (item : Item) : Prop where
  lexes : ∃ text, item.toText = text ++ ['\n'] ∧ Lexes text item.tokens
  noHash : '#' ∉ item.toText

theorem lexes_semicolon {text : CString} {ts : List Token} (h : Lexes text ts) :
    Lexes (text ++ [';']) (ts ++ [semicolon]) := by
  refine h.append (Lexes.nil.punct (by decide)) ?_
  intro c hc
  cases hc
  decide

theorem lexes_newline {text : CString} {ts : List Token} (h : Lexes text ts) :
    Lexes (text ++ ['\n']) ts := by
  have hend : Lexes ['\n'] [] := Lexes.nil
  have hline := h.append hend (by
    intro c hc
    cases hc
    decide)
  rwa [List.append_nil] at hline

theorem lexes_keyword {keyword text : CString} {ts : List Token}
    (hkeyword : keyword ≠ [] ∧ keyword.all isWordChar = true) (h : Lexes text ts) :
    Lexes (keyword ++ ' ' :: text) (.word keyword :: ts) := by
  refine (Lexes.word hkeyword.1 hkeyword.2).append h.blank ?_
  intro c hc
  cases hc
  decide

/-- An item whose text ends in newlines is known from the text before them. -/
theorem Item.IsPrinted.of_lexes {item : Item} {text : CString} {ts : List Token}
    (htext : item.toText = text ++ ['\n']) (htokens : item.tokens = ts) (hlexes : Lexes text ts)
    (hhash : '#' ∉ text) : item.IsPrinted := by
  refine ⟨⟨text, htext, htokens.symm ▸ hlexes⟩, ?_⟩
  rw [htext]
  simpa using hhash

theorem Item.IsPrinted.forwardDecl {id : Nat} {keyword name : CString}
    (hkeyword : tagKeywords.contains keyword = true) (hname : isIdentifier name = true) :
    (Item.forwardDecl id keyword name).IsPrinted := by
  have hfirst := hash_not_mem_of_all (tagKeyword_word hkeyword).2
  have hlast := hash_not_mem_of_all (isWordChar_of_isIdentifier hname).2
  have htext : (Item.forwardDecl id keyword name).toText =
      keyword ++ [' '] ++ name ++ [';'] ++ ['\n'] := by
    simp [toText_forwardDecl]
  exact .of_lexes htext rfl (lexes_semicolon (lexes_tag hkeyword hname)) (by simp [hfirst, hlast])

theorem Item.IsPrinted.enumDef {id : Nat} {name : CString} {constants : List Enumerator}
    (hname : OptionalIdentifier name)
    (hnames : ∀ constant ∈ constants, isIdentifier constant.name = true)
    (hvalues : ∀ constant ∈ constants, IsNumeral constant.value) :
    (Item.enumDef id name constants).IsPrinted := by
  obtain ⟨_, hbalanced, hhash⟩ := enumeratorLines_text hnames hvalues
  have hinner : Balanced ('\n' :: enumeratorLines constants) :=
    hbalanced.cons (by decide) (by decide)
  have hbraces : Lexes ('\x7b' :: ('\n' :: enumeratorLines constants) ++ '\x7d' :: [';'])
      [.braces ('\n' :: enumeratorLines constants), semicolon] :=
    Lexes.braces hinner (Lexes.nil.punct (by decide))
  have hkeyword : "enum".toList ≠ [] ∧ "enum".toList.all isWordChar = true := by decide
  rcases hname with rfl | hname
  · have htext : (Item.enumDef id [] constants).toText = "enum".toList ++ ' ' ::
        ('\x7b' :: ('\n' :: enumeratorLines constants) ++ '\x7d' :: [';']) ++ ['\n'] ++ ['\n'] := by
      simp [toText_enumDef]
    exact .of_lexes htext rfl (lexes_newline (lexes_keyword hkeyword hbraces)) (by simp [hhash])
  · obtain ⟨hne, hall⟩ := isWordChar_of_isIdentifier hname
    have hown := hash_not_mem_of_all hall
    have htext : (Item.enumDef id name constants).toText = "enum".toList ++ ' ' :: (name ++ ' ' ::
        ('\x7b' :: ('\n' :: enumeratorLines constants) ++ '\x7d' :: [';'])) ++ ['\n'] ++ ['\n'] := by
      simp [toText_enumDef, hne]
    have htokens : (Item.enumDef id name constants).tokens = .word "enum".toList :: .word name ::
        [.braces ('\n' :: enumeratorLines constants), semicolon] := by
      rw [Item.tokens, nameTokens, if_neg hne]
      rfl
    exact .of_lexes htext htokens
      (lexes_newline (lexes_keyword hkeyword (lexes_keyword ⟨hne, hall⟩ hbraces)))
      (by simp [hhash, hown])

theorem Item.IsPrinted.typedefDef {id : Nat} {name : CString} {decl : List Piece}
    {ts : List Token} (hlexes : Lexes (declText decl) ts) (hhash : '#' ∉ declText decl) :
    (Item.typedefDef id name decl).IsPrinted := by
  have hkeyword : "typedef".toList ≠ [] ∧ "typedef".toList.all isWordChar = true := by decide
  have htext : (Item.typedefDef id name decl).toText =
      "typedef".toList ++ ' ' :: declText decl ++ [';'] ++ ['\n'] ++ ['\n'] := by
    simp [toText_typedefDef]
  have htokens : (Item.typedefDef id name decl).tokens =
      .word "typedef".toList :: ts ++ [semicolon] := by
    rw [Item.tokens, hlexes.lex_eq]
  exact .of_lexes htext htokens (lexes_newline (lexes_semicolon (lexes_keyword hkeyword hlexes)))
    (by simp [hhash])

theorem Item.IsPrinted.recordDef {id : Nat} {keyword name : CString} {body : List Piece}
    {inner : CString} (hkeyword : tagKeywords.contains keyword = true)
    (hname : isIdentifier name = true) (hlexes : Lexes (declText body) [.braces inner])
    (hstart : ∀ c ∈ (declText body).head?, isWordChar c = false) (hhash : '#' ∉ declText body) :
    (Item.recordDef id keyword name body).IsPrinted := by
  have hfirst := hash_not_mem_of_all (tagKeyword_word hkeyword).2
  have hlast := hash_not_mem_of_all (isWordChar_of_isIdentifier hname).2
  have htext : (Item.recordDef id keyword name body).toText =
      keyword ++ [' '] ++ name ++ declText body ++ [';'] ++ ['\n'] ++ ['\n'] := by
    simp [toText_recordDef]
  have htokens : (Item.recordDef id keyword name body).tokens =
      [.word keyword, .word name] ++ [.braces inner] ++ [semicolon] := by
    rw [Item.tokens, hlexes.lex_eq]
    rfl
  exact .of_lexes htext htokens
    (lexes_newline (lexes_semicolon ((lexes_tag hkeyword hname).append hlexes hstart)))
    (by simp [hfirst, hlast, hhash])

/-- Printed items are read one behind the other. -/
theorem headerText_reads {items : List Item} (h : ∀ item ∈ items, item.IsPrinted) :
    (∀ {rest : CString} {ts : List Token}, Lexes rest ts →
      Lexes (headerText items ++ rest) (items.flatMap Item.tokens ++ ts)) ∧
    CodeLines (headerText items) := by
  induction items with
  | nil => exact ⟨fun hrest => hrest, CodeLines.nil⟩
  | cons item items ih =>
      obtain ⟨hmore, hcode⟩ := ih fun other hother => h other (List.mem_cons_of_mem _ hother)
      obtain ⟨⟨text, htext, hlexes⟩, hhash⟩ := h item List.mem_cons_self
      have hall : headerText (item :: items) = item.toText ++ headerText items := rfl
      constructor
      · intro rest ts hrest
        have hline : Lexes (text ++ '\n' :: (headerText items ++ rest))
            (item.tokens ++ (items.flatMap Item.tokens ++ ts)) := by
          have hnewline : Lexes ('\n' :: (headerText items ++ rest))
              (items.flatMap Item.tokens ++ ts) := hmore hrest
          refine hlexes.append hnewline ?_
          intro c hc
          cases hc
          decide
        rw [hall, htext, List.flatMap_cons]
        simpa using hline
      · rw [hall]
        rw [htext] at hhash ⊢
        exact (CodeLines.of_not_mem (fun hmem => hhash (List.mem_append_left _ hmem))).append hcode

/-! ## The whole header -/

/-- Of the lines that open a header nothing but newlines is read. -/
theorem dropDirectives_opening (rest : CString) :
    dropDirectives .start (headerText headerOpening ++ rest) =
      ['\n', '\n', '\n', '\n', '\n'] ++ dropDirectives .start rest := by
  have hifndef := @dropDirectives_directive "ifndef MIN_COREHDR_GENERATED_VMLINUX_H".toList (by decide)
  have hdefine := @dropDirectives_directive "define MIN_COREHDR_GENERATED_VMLINUX_H".toList (by decide)
  have hpragma := @dropDirectives_directive
    ("pragma clang attribute push (__attribute__((preserve_access_index)), ".toList ++
      "apply_to = record)".toList) (by decide)
  have hblank : ∀ text, dropDirectives .start ('\n' :: text) = '\n' :: dropDirectives .start text :=
    fun _ => rfl
  have htext : headerText headerOpening ++ rest =
      '#' :: "ifndef MIN_COREHDR_GENERATED_VMLINUX_H".toList ++ '\n' ::
        ('#' :: "define MIN_COREHDR_GENERATED_VMLINUX_H".toList ++ '\n' :: '\n' ::
          ('#' :: ("pragma clang attribute push (__attribute__((preserve_access_index)), ".toList ++
            "apply_to = record)".toList) ++ '\n' :: '\n' :: rest)) := rfl
  rw [htext, hifndef, hdefine, hblank, hpragma, hblank]
  rfl

theorem dropDirectives_closing :
    dropDirectives .start (headerText headerClosing) = ['\n', '\n', '\n'] := by
  have hpragma := @dropDirectives_directive "pragma clang attribute pop".toList (by decide)
  have hendif := @dropDirectives_directive "endif".toList (by decide)
  have hblank : ∀ text, dropDirectives .start ('\n' :: text) = '\n' :: dropDirectives .start text :=
    fun _ => rfl
  have htext : headerText headerClosing = '#' :: "pragma clang attribute pop".toList ++ '\n' ::
      '\n' :: ('#' :: "endif".toList ++ '\n' :: []) := rfl
  rw [htext, hpragma, hblank, hendif]
  rfl

section

variable {ctx : EmitCtx} {required : TypeSet} {fwds enums defs : List Item}

theorem isPrinted_forwardItem (hnames : ctx.btf.NamesAreIdentifiers) {id : Nat}
    (h : hasType ctx (isForwardable ctx.btf) id = true) : (forwardItem ctx id).IsPrinted := by
  obtain ⟨type, htype, hforward⟩ := hasType_eq_true.mp h
  obtain ⟨hkind, hne⟩ : (type.kind.isRecord = true ∨ type.kind = .fwd) ∧
      mchBtfTypeName ctx.btf type ≠ [] := by
    simpa [isForwardable] using hforward
  have hnamed : type.kind.isNamedInC = true := by
    unfold Kind.isNamedInC
    rcases hkind with hkind | hkind <;> simp [hkind]
  unfold forwardItem
  rw [htype]
  exact .forwardDecl (recordKeyword_mem type) (isIdentifier_of_type hnames htype hnamed hne)

theorem isPrinted_enumItem (hnames : ctx.btf.NamesAreIdentifiers)
    (henums : ctx.btf.EnumeratorsAreIdentifiers) {id : Nat}
    (h : hasType ctx isEnumKind id = true) : (enumItem ctx id).IsPrinted := by
  obtain ⟨type, htype, hkind⟩ := hasType_eq_true.mp h
  have hnamed : type.kind.isNamedInC = true := by
    unfold isEnumKind at hkind
    unfold Kind.isNamedInC
    cases hcase : type.kind <;> simp [hcase] at hkind ⊢
  have hzero : id ≠ 0 := by
    rintro rfl
    cases htype
    cases hkind
  have hmem := mem_types_of_btfTypeById hzero htype
  unfold enumItem
  rw [htype]
  exact .enumDef (hnames.types type hmem hnamed) (henums type hmem hkind)
    (fun _ hconstant => isNumeral_of_mem hconstant)

theorem declText_recordBody {decl : Nat → CString → Except Fault (List Piece)} {id : Nat}
    {type : BtfType} {body : List Piece} (h : emitRecordBody ctx decl id type = .ok body) :
    ∀ c ∈ (declText body).head?, isWordChar c = false := by
  obtain ⟨members, _, h⟩ := bind_eq_ok.mp h
  cases h
  intro c hc
  cases hc
  decide

theorem Item.FromWalk.isPrinted (hnames : ctx.btf.NamesAreIdentifiers) {item : Item}
    (h : item.FromWalk ctx) : item.IsPrinted := by
  cases item with
  | text _ => cases h
  | enumDef _ _ _ => cases h
  | forwardDecl id keyword name =>
      obtain ⟨type, htype, hkind, rfl, rfl, hne⟩ := h
      have hnamed : type.kind.isNamedInC = true := by
        unfold Kind.isNamedInC
        rcases hkind with hkind | hkind <;> simp [hkind]
      exact .forwardDecl (recordKeyword_mem type) (isIdentifier_of_type hnames htype hnamed hne)
  | typedefDef id name decl =>
      obtain ⟨type, fuel, htype, hnamed, _, hprinted⟩ := h
      obtain ⟨pieces, hpieces, heq⟩ := bind_eq_ok.mp hprinted
      cases heq
      obtain ⟨hkind, hne⟩ : type.kind = .typedef ∧ mchBtfTypeName ctx.btf type ≠ [] := by
        simpa [isNamedTypedef] using hnamed
      have hid := isIdentifier_of_type hnames htype (by rw [hkind]; rfl) hne
      have hname : OptionalIdentifier (mchBtfTypeName ctx.btf type) := Or.inr hid
      obtain ⟨tree, htree, htext⟩ := emitDeclEx_text ctx fuel _ _ _ hpieces
      have hlexes := Tree.WellNamed.lexes tree (treeOf_wellNamed hnames fuel _ _ htree)
        (declaratorText_name hid)
      rw [← htext] at hlexes
      exact .typedefDef hlexes (emitDeclEx_noHash hnames fuel _ _ _ hname.hash_not_mem hpieces)
  | recordDef id keyword name body =>
      obtain ⟨type, fuel, htype, hnamed, _, hprinted⟩ := h
      obtain ⟨pieces, hpieces, heq⟩ := bind_eq_ok.mp hprinted
      cases heq
      obtain ⟨hkind, hne⟩ : type.kind.isRecord = true ∧ mchBtfTypeName ctx.btf type ≠ [] := by
        simpa [isNamedRecord] using hnamed
      have hzero : id ≠ 0 := by
        rintro rfl
        cases htype
        cases hkind
      have hmem := mem_types_of_btfTypeById hzero htype
      have hid := isIdentifier_of_type hnames htype (by simp [Kind.isNamedInC, hkind]) hne
      obtain ⟨inner, hlexes, _⟩ := emitRecordBody_lexes hnames hmem hpieces
      have hkeyword : tagKeywords.contains
          (if type.kind = .struct then "struct".toList else "union".toList) = true := by
        split <;> decide
      exact .recordDef hkeyword hid hlexes (declText_recordBody hpieces)
        (emitRecordBody_noHash (emitDeclEx_noHash hnames fuel) (hnames.members type hmem) hpieces)

theorem Layout.isPrinted (h : Layout ctx required fwds enums defs)
    (hnames : ctx.btf.NamesAreIdentifiers) (henums : ctx.btf.EnumeratorsAreIdentifiers) :
    ∀ item ∈ fwds ++ enums ++ defs, item.IsPrinted := by
  intro item hitem
  rw [List.mem_append, List.mem_append] at hitem
  rcases hitem with (hitem | hitem) | hitem
  · rw [h.fwds_eq] at hitem
    obtain ⟨id, hid, rfl⟩ := List.mem_map.mp hitem
    exact isPrinted_forwardItem hnames (List.mem_filter.mp hid).2
  · rw [h.enums_eq] at hitem
    obtain ⟨id, hid, rfl⟩ := List.mem_map.mp hitem
    exact isPrinted_enumItem hnames henums (List.mem_filter.mp hid).2
  · exact (h.defs_from item hitem).isPrinted hnames

/-- Without its directives a header is read as its declarations, one behind the other. -/
theorem Layout.lex_headerText (h : Layout ctx required fwds enums defs)
    (hnames : ctx.btf.NamesAreIdentifiers) (henums : ctx.btf.EnumeratorsAreIdentifiers) :
    lex (dropDirectives .start (headerText (headerItems fwds enums defs))) =
      (fwds ++ enums ++ defs).flatMap Item.tokens := by
  have hall := h.isPrinted hnames henums
  obtain ⟨hfwds, hfwdCode⟩ := @headerText_reads fwds fun item hitem =>
    hall item (List.mem_append_left _ (List.mem_append_left _ hitem))
  obtain ⟨hrest, hrestCode⟩ := @headerText_reads (enums ++ defs) fun item hitem =>
    hall item (by
      rw [List.append_assoc]
      exact List.mem_append_right _ hitem)
  have htext : headerText (headerItems fwds enums defs) = headerText headerOpening ++
      (headerText fwds ++ ('\n' :: (headerText (enums ++ defs) ++ headerText headerClosing))) := by
    simp [headerText, headerItems, toText_text]
  have hblank : ∀ text, dropDirectives .start ('\n' :: text) = '\n' :: dropDirectives .start text :=
    fun _ => rfl
  rw [htext, dropDirectives_opening, hfwdCode, hblank, hrestCode, dropDirectives_closing]
  have hend : Lexes ['\n', '\n', '\n'] [] := Lexes.nil
  have hlast : Lexes ('\n' :: (headerText (enums ++ defs) ++ ['\n', '\n', '\n']))
      ((enums ++ defs).flatMap Item.tokens ++ []) := hrest hend
  have hwhole : Lexes (['\n', '\n', '\n', '\n', '\n'] ++
      (headerText fwds ++ '\n' :: (headerText (enums ++ defs) ++ ['\n', '\n', '\n'])))
      (fwds.flatMap Item.tokens ++ ((enums ++ defs).flatMap Item.tokens ++ [])) := hfwds hlast
  rw [hwhole.lex_eq]
  simp

end

end MinCorehdr
