import MinCorehdr.Emitter.Structure
import MinCorehdr.Emitter.Unique
import MinCorehdr.Support.CRecord

/-!
# Reading a printed record

The body of a record is one member behind the other, each the tokens of its type's tree
and its width.  A member with a name is read where its type is, one without a name
where nothing stands around its specifier.
-/

namespace MinCorehdr

open Support.CDeclaration Support.CLayout Support.CRecord Support.CToken Support.Result

/-! ## Members as tokens -/

def memberName (ctx : EmitCtx) (member : BtfMember) : CString :=
  (btfNameByOffset ctx.btf member.nameOff).getD []

/-- The width the emitter prints; no bit-field has width 0. -/
def memberWidth (kflag : Bool) (member : BtfMember) : Option Nat :=
  let bitfieldSize := if kflag then member.offset >>> 24 else 0
  if bitfieldSize ≠ 0 then some bitfieldSize else none

def nameTokens (name : CString) : List Token := if name = [] then [] else [.word name]

def endTokens : Option Nat → List Token
  | none => [semicolon]
  | some n => [colon, .word (decimal n), semicolon]

/-- The tokens between the braces are those of the members. -/
inductive PrintedMembers (ctx : EmitCtx) (fuel : Nat) (kflag : Bool) :
    List (BtfMember × Nat) → List Token → Prop
  | nil : PrintedMembers ctx fuel kflag [] []
  | cons {member : BtfMember × Nat} {members : List (BtfMember × Nat)} {t : Tree}
      {ts : List Token} :
      OptionalIdentifier (memberName ctx member.1) → treeOf ctx fuel member.1.type = some t →
        PrintedMembers ctx fuel kflag members ts → PrintedMembers ctx fuel kflag (member :: members)
          (t.tokens (nameTokens (memberName ctx member.1)) ++
            endTokens (memberWidth kflag member.1) ++ ts)

/-- Nothing but tags above the leaf. -/
def Tree.Bare : Tree → Prop
  | .leaf _ _ => True
  | .tag _ t => t.Bare
  | .ptr _ _ | .array _ _ _ | .func _ _ _ => False

/-- The body of a struct or union without a tag. -/
def IsInline (spec : List Token) : Prop :=
  ∃ isUnion body, spec = [.word (keywordOf isUnion), .braces body]

/-- A member with this tree is read. -/
def Tree.IsMember (t : Tree) (name : CString) (width : Option Nat) : Prop :=
  if name = [] then t.Bare ∧ (width = none → IsInline t.spec) else t.Readable

/-! ## Ends of members -/

theorem endsDeclarator_endTokens (width : Option Nat) (ts : List Token) :
    EndsDeclarator (endTokens width ++ ts) := by
  cases width <;> exact endsDeclarator_punct (by decide) (by decide) _

theorem startsPlain_endTokens (width : Option Nat) (ts : List Token) :
    StartsPlain (endTokens width ++ ts) := by
  cases width <;> exact startsPlain_punct _ _

theorem memberEnd_iff {width : Option Nat} (hpos : ∀ n ∈ width, 0 < n) {ts rest : List Token}
    {width' : Option Nat} :
    MemberEnd (endTokens width ++ ts) width' rest ↔ width' = width ∧ rest = ts := by
  constructor
  · intro h
    cases width with
    | none =>
        cases h
        exact ⟨rfl, rfl⟩
    | some n =>
        cases h with
        | width hnumber _ =>
            have hread : number (decimal n) = some n := number_toDigits n
            rw [hread] at hnumber
            exact ⟨hnumber.symm, rfl⟩
  · rintro ⟨rfl, rfl⟩
    cases width' with
    | none => exact .plain
    | some n => exact .width (number_toDigits n) (hpos n rfl)

/-- No member ends where a declarator starts. -/
theorem not_memberEnd {d ts rest : List Token} {width : Option Nat} (h : StartsDeclarator d) :
    ¬MemberEnd (d ++ ts) width rest := by
  have hne : ∀ {c : Char} {more : List Token}, c ≠ '*' → c ≠ '(' → c ≠ '[' →
      d ++ ts ≠ .punct c :: more := by
    intro c more hstar hparen hbracket heq
    have hhead := (h.append ts).head?_ne hstar hparen hbracket
    rw [heq] at hhead
    exact hhead rfl
  intro hend
  generalize hall : d ++ ts = all at hend
  cases hend with
  | plain => exact hne (by decide) (by decide) (by decide) hall
  | width _ _ => exact hne (by decide) (by decide) (by decide) hall

theorem memberWidth_pos {kflag : Bool} {member : BtfMember} :
    ∀ n ∈ memberWidth kflag member, 0 < n := by
  intro n hn
  unfold memberWidth at hn
  extract_lets bitfieldSize at hn
  clear_value bitfieldSize
  split at hn
  · cases hn
    omega
  · cases hn

/-! ## Reading members -/

section

variable {t : Tree} {width width' : Option Nat} {ts rest : List Token} {name : CString}
  {type : CType}

theorem Tree.WellNamed.readSpecifiers_tokens (h : t.WellNamed) {d : List Token}
    (hplain : StartsPlain (t.tail d ++ (endTokens width ++ ts))) :
    readSpecifiers (t.tokens d ++ endTokens width ++ ts) =
      some (t.front, t.spec, t.tail d ++ (endTokens width ++ ts)) := by
  have hread := Support.CDeclaration.readSpecifiers_eq h.isSpecifier hplain t.front
  unfold Tree.tokens
  simpa only [List.append_assoc] using hread

/-- The specifiers of a member are those of its tree. -/
theorem Tree.WellNamed.of_readSpecifiers (h : t.WellNamed) {d spec after : List Token}
    {qs : List Qualifier} (hplain : StartsPlain (t.tail d ++ (endTokens width ++ ts)))
    (hread : readSpecifiers (t.tokens d ++ endTokens width ++ ts) = some (qs, spec, after)) :
    qs = t.front ∧ spec = t.spec ∧ after = t.tail d ++ (endTokens width ++ ts) := by
  rw [h.readSpecifiers_tokens hplain] at hread
  simp only [Option.some.injEq, Prod.mk.injEq] at hread
  obtain ⟨hfront, hspec, hafter⟩ := hread
  exact ⟨hfront.symm, hspec.symm, hafter.symm⟩

/-- A member with a name is read as its type is. -/
theorem Tree.WellNamed.namedMember_iff (h : t.WellNamed) {n : CString}
    (hn : isIdentifier n = true) (hpos : ∀ w ∈ width, 0 < w) :
    MemberDeclaration (t.tokens [.word n] ++ endTokens width ++ ts) name type width' rest ↔
      t.Readable ∧ name = n ∧ type = t.printed t.front ∧ width' = width ∧ rest = ts := by
  have facts := Tree.WellNamed.facts t h
  have hstarts := facts.starts [.word n] (startsDeclarator_name hn)
  have hplain := (hstarts.append (endTokens width ++ ts)).plain
  have hdecl := fun name type after => facts.read [.word n] n id (Accepts.name hn) t.front
    (endTokens width ++ ts) name type after (endsDeclarator_endTokens width ts)
  constructor
  · intro hmember
    cases hmember with
    | named hread hd hend =>
        obtain ⟨rfl, rfl, rfl⟩ := h.of_readSpecifiers hplain hread
        obtain ⟨hreadable, hname, htype, rfl⟩ := (hdecl _ _ _).mp hd
        obtain ⟨hwidth, hrest⟩ := (memberEnd_iff hpos).mp hend
        exact ⟨hreadable, hname, htype, hwidth, hrest⟩
    | record hread hend | bitField hread hend =>
        obtain ⟨_, _, rfl⟩ := h.of_readSpecifiers hplain hread
        exact absurd hend (not_memberEnd hstarts)
  · rintro ⟨hreadable, rfl, rfl, rfl, rfl⟩
    exact .named (h.readSpecifiers_tokens hplain) ((hdecl _ _ _).mpr ⟨hreadable, rfl, rfl, rfl⟩)
      ((memberEnd_iff hpos).mpr ⟨rfl, rfl⟩)

theorem Tree.tail_ne_nil : ∀ (t : Tree) {d : List Token}, d ≠ [] → t.tail d ≠ []
  | .leaf _ _, _, h => h
  | .tag _ t, _, h => t.tail_ne_nil h
  | .ptr _ t, _, _ => t.tail_ne_nil (List.cons_ne_nil _ _)
  | .array _ t _, _, _ => t.tail_ne_nil (List.append_ne_nil_of_right_ne_nil _ (List.cons_ne_nil _ _))
  | .func _ _ _, _, _ => by simp [Tree.tail]

/-- Nothing follows the specifier of a bare tree. -/
theorem Tree.tail_eq_nil_iff : ∀ t : Tree, t.tail [] = [] ↔ t.Bare
  | .leaf _ _ => by simp [Tree.tail, Tree.Bare]
  | .tag _ t => t.tail_eq_nil_iff
  | .ptr _ t => iff_of_false (t.tail_ne_nil (List.cons_ne_nil _ _)) id
  | .array _ t _ => iff_of_false
      (t.tail_ne_nil (List.append_ne_nil_of_right_ne_nil _ (List.cons_ne_nil _ _))) id
  | .func _ _ _ => by simp [Tree.tail, Tree.Bare]

theorem Tree.Bare.printed_eq : ∀ {t : Tree}, t.Bare → ∀ front,
    t.printed front = .base front t.spec
  | .leaf _ _, _, _ => rfl
  | .tag _ t, h, front => @printed_eq t h front

/-- A member without a name is read where its specifier is all there is. -/
theorem Tree.WellNamed.bareMember_iff (h : t.WellNamed) (hpos : ∀ w ∈ width, 0 < w) :
    MemberDeclaration (t.tokens [] ++ endTokens width ++ ts) name type width' rest ↔
      (t.Bare ∧ (width = none → IsInline t.spec)) ∧ name = [] ∧ type = .base t.front t.spec ∧
        width' = width ∧ rest = ts := by
  have hnameless := (Tree.WellNamed.facts t h).nameless [] Nameless.nil
  have hplain : StartsPlain (t.tail [] ++ (endTokens width ++ ts)) :=
    hnameless.plain (startsPlain_endTokens width ts)
  have hspec := h.readSpecifiers_tokens hplain
  have hnone : ∀ {base name type after},
      ¬Declarator base (t.tail [] ++ (endTokens width ++ ts)) name type after := by
    intro base name type after hd
    rcases hnameless.opens_or_stuck with ⟨k, hk⟩ | hstuck
    · have hend := (hk.2 _ _ _ _ _ (startsPlain_endTokens width ts)).mp hd
      cases width <;> exact not_declarator_punct (by decide) (by decide) hend
    · exact hstuck.2 _ _ _ _ _ hd
  have hbare : ∀ {width'}, MemberEnd (t.tail [] ++ (endTokens width ++ ts)) width' rest →
      t.Bare ∧ width' = width ∧ rest = ts := by
    intro width' hend
    by_cases hnil : t.tail [] = []
    · rw [hnil, List.nil_append] at hend
      exact ⟨t.tail_eq_nil_iff.mp hnil, (memberEnd_iff hpos).mp hend⟩
    · exact absurd hend (not_memberEnd (hnameless.startsDeclarator hnil))
  constructor
  · intro hmember
    cases hmember with
    | named hread hd hend =>
        obtain ⟨_, _, rfl⟩ := h.of_readSpecifiers hplain hread
        exact absurd hd hnone
    | record hread hend =>
        obtain ⟨rfl, hinline, rfl⟩ := h.of_readSpecifiers hplain hread
        obtain ⟨hisBare, rfl, rfl⟩ := hbare hend
        exact ⟨⟨hisBare, fun _ => ⟨_, _, hinline.symm⟩⟩, rfl, by rw [hinline], rfl, rfl⟩
    | bitField hread hend =>
        obtain ⟨rfl, rfl, rfl⟩ := h.of_readSpecifiers hplain hread
        obtain ⟨hisBare, rfl, rfl⟩ := hbare hend
        exact ⟨⟨hisBare, nofun⟩, rfl, rfl, rfl, rfl⟩
  · rintro ⟨⟨hisBare, hinline⟩, rfl, rfl, rfl, rfl⟩
    have hend : MemberEnd (t.tail [] ++ (endTokens width' ++ rest)) width' rest := by
      rw [t.tail_eq_nil_iff.mpr hisBare, List.nil_append]
      exact (memberEnd_iff hpos).mpr ⟨rfl, rfl⟩
    cases width' with
    | none =>
        obtain ⟨isUnion, body, heq⟩ := hinline rfl
        rw [heq] at hspec ⊢
        exact .record hspec hend
    | some n => exact .bitField hspec hend

/-- What a printed member is read as. -/
theorem Tree.WellNamed.member_iff (h : t.WellNamed) {n : CString} (hn : OptionalIdentifier n)
    (hpos : ∀ w ∈ width, 0 < w) :
    MemberDeclaration (t.tokens (nameTokens n) ++ endTokens width ++ ts) name type width' rest ↔
      t.IsMember n width ∧ name = n ∧ type = t.printed t.front ∧ width' = width ∧ rest = ts := by
  unfold nameTokens Tree.IsMember
  rcases hn with rfl | hn
  · rw [if_pos rfl, if_pos rfl, h.bareMember_iff hpos]
    refine and_congr_right fun hmember => and_congr_right fun _ => ?_
    rw [hmember.1.printed_eq]
  · have hne := (isWordChar_of_isIdentifier hn).1
    rw [if_neg hne, if_neg hne, h.namedMember_iff hn hpos]

end

/-! ## Texts of bodies -/

def endText (width : Option Nat) : CString :=
  match width with
  | none => ";\n".toList
  | some n => " : ".toList ++ decimal n ++ ";\n".toList

/-- What `emit_record_body` prints behind a declaration. -/
theorem endText_of_size (size : Nat) :
    (if size ≠ 0 then " : ".toList ++ decimal size else []) ++ ";\n".toList =
      endText (if size ≠ 0 then some size else none) := by
  split <;> rfl

theorem endText_lexes (width : Option Nat) {text : CString} {ts : List Token} (h : Lexes text ts) :
    Lexes (endText width ++ text) (endTokens width ++ ts) := by
  have hline : Lexes (";\n".toList ++ text) (semicolon :: ts) := h.punct rfl
  cases width with
  | none => exact hline
  | some n =>
      have hnumber := (decimal_lexes n).append hline (by
        intro c hc
        cases hc
        decide)
      have htext : endText (some n) ++ text = ' ' :: ':' :: ' ' :: (decimal n ++ (";\n".toList ++ text)) := by
        simp [endText]
      rw [htext]
      exact hnumber.blank.punct rfl

theorem endText_seam (width : Option Nat) (text : CString) :
    ∀ c ∈ (endText width ++ text).head?, isWordChar c = false := by
  intro c hc
  cases width <;> cases hc <;> decide

theorem declaratorText_memberName {name : CString} (h : OptionalIdentifier name) :
    DeclaratorText name (nameTokens name) := by
  unfold nameTokens
  rcases h with rfl | h
  · exact declaratorText_nil
  · rw [if_neg (isWordChar_of_isIdentifier h).1]
    exact declaratorText_name h

section

variable {ctx : EmitCtx} {fuel id : Nat} {type : BtfType}

/-- The text of the members is that of the kept ones. -/
theorem printedMembers_of_collect (hnames : ctx.btf.NamesAreIdentifiers)
    (hmem : type ∈ ctx.btf.types) {members : List (BtfMember × Nat)}
    (hmembers : ∀ m ∈ members, m.1 ∈ type.members) :
    ∀ {pieces : List Piece},
      collect (emitMember ctx (emitDeclEx ctx fuel) id type.kflag) members = .ok pieces →
        ∃ ts, Lexes (declText pieces) ts ∧ PrintedMembers ctx fuel type.kflag
          (members.filter fun member => ctx.keeps id member.2) ts := by
  induction members with
  | nil =>
      intro pieces h
      cases h
      exact ⟨[], Lexes.nil, .nil⟩
  | cons member members ih =>
      intro pieces h
      obtain ⟨first, rest, hfirst, hrest, rfl⟩ := collect_cons_eq_ok.mp h
      obtain ⟨ts, hlexes, hprinted⟩ := ih (fun m hm => hmembers m (List.mem_cons_of_mem _ hm)) hrest
      have hown := hmembers member List.mem_cons_self
      unfold emitMember at hfirst
      simp only at hfirst
      split at hfirst
      next hkeeps =>
        cases hfirst
        rw [List.filter_cons_of_neg (by simp [hkeeps])]
        exact ⟨ts, hlexes, hprinted⟩
      next hkeeps =>
        obtain ⟨decl, hdecl, hfirst⟩ := bind_eq_ok.mp hfirst
        cases hfirst
        obtain ⟨t, ht, htext⟩ := emitDeclEx_text ctx fuel _ _ _ hdecl
        have hwell := treeOf_wellNamed hnames fuel _ t ht
        have hmemberName : OptionalIdentifier (memberName ctx member.1) :=
          hnames.members type hmem member.1 hown
        have hname := declaratorText_memberName hmemberName
        rw [List.filter_cons_of_pos (by simpa using hkeeps)]
        refine ⟨_, ?_, .cons hmemberName ht hprinted⟩
        have hall := (Tree.WellNamed.lexes t hwell hname).append
          (endText_lexes (memberWidth type.kflag member.1) hlexes) (endText_seam _ _)
        have hline : declText (.member id member.2 :: decl ++ [.text
              ((if (if type.kflag then member.1.offset >>> 24 else 0) ≠ 0 then
                " : ".toList ++ decimal (if type.kflag then member.1.offset >>> 24 else 0) else []) ++
                ";\n".toList)] ++ rest) =
            ' ' :: ' ' :: (t.print (memberName ctx member.1) ++
              (endText (memberWidth type.kflag member.1) ++ declText rest)) := by
          rw [endText_of_size]
          change declText (_ :: decl ++ [.text (endText (memberWidth type.kflag member.1))] ++ rest) = _
          unfold memberName
          rw [← htext]
          simp [Piece.toText]
        rw [hline, List.append_assoc]
        exact hall.blank.blank

/-- A printed body is one pair of braces around the kept members. -/
theorem emitRecordBody_lexes (hnames : ctx.btf.NamesAreIdentifiers) (hmem : type ∈ ctx.btf.types)
    {body : List Piece} (h : emitRecordBody ctx (emitDeclEx ctx fuel) id type = .ok body) :
    ∃ inner, Lexes (declText body) [.braces inner] ∧
      PrintedMembers ctx fuel type.kflag (keptMembers ctx.keeps id type) (lex inner) := by
  obtain ⟨members, hmembers, h⟩ := bind_eq_ok.mp h
  cases h
  have hall : ∀ m ∈ type.members.zipIdx, m.1 ∈ type.members := fun m hm => List.fst_mem_of_mem_zipIdx hm
  obtain ⟨ts, hlexes, hprinted⟩ := printedMembers_of_collect hnames hmem hall hmembers
  have hbalanced := balanced_members hnames hmem (treeOf_wellNamed hnames fuel) hall hmembers
  have hinner : Balanced ('\n' :: declText members) := hbalanced.cons (by decide) (by decide)
  have hbraces : Lexes ('\x7b' :: ('\n' :: declText members) ++ '\x7d' :: [])
      [.braces ('\n' :: declText members)] := Lexes.braces hinner Lexes.nil
  have htext : declText (.text " \x7b\n".toList :: members ++ [.text "\x7d".toList]) =
      ' ' :: ('\x7b' :: ('\n' :: declText members) ++ '\x7d' :: []) := by
    simp [Piece.toText]
  have hlex : lex ('\n' :: declText members) = ts := Lexes.lex_eq hlexes
  refine ⟨_, htext ▸ hbraces.blank, ?_⟩
  rw [hlex]
  exact hprinted

theorem recordKeyword_of_isRecord (h : type.kind.isRecord = true) :
    recordKeyword type = keywordOf (type.kind == .union) := by
  unfold recordKeyword
  cases hkind : type.kind <;> rw [hkind] at h <;> first | rfl | cases h

end

end MinCorehdr
