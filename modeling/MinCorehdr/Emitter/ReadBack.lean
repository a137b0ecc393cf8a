import MinCorehdr.Emitter.Forwards
import MinCorehdr.Emitter.HeaderText

/-!
# Reading a header back

The text of a header is C: it declares the types that the closure asks for, each record
with its kept members in order, each with its name, its width and its type.
-/

namespace MinCorehdr

open Support.CConstant Support.CDeclaration Support.CRecord Support.CToken Support.CUnit
  Support.Result Support.Sequence

/-! ## What a header declares -/

/-- A declaration of a header: a tag, an enum, or the definition of a node. -/
inductive Entry
  | forward (id : Nat)
  | enum (id : Nat)
  | definition (node : Node)
  deriving DecidableEq, Repr

def Item.toEntry : Item → Option Entry
  | .text _ => none
  | .forwardDecl id _ _ => some (.forward id)
  | .enumDef id _ _ => some (.enum id)
  | .typedefDef id _ _ => some (.definition (.typedef id))
  | .recordDef id _ _ _ => some (.definition (.record id))

def headerEntries (items : List Item) : List Entry := items.filterMap Item.toEntry

/-- What the closure `required` asks a header for. -/
def Wanted (ctx : EmitCtx) (required : Set Nat) : Entry → Prop
  | .forward id => id ∈ frontTags ctx required ∨
      ∃ node, Reached ctx required node ∧ NodeDeclares ctx node id
  | .enum id => id ∈ required ∧ hasType ctx isEnumKind id = true
  | .definition node => Reached ctx required node

def isUnionTag (type : BtfType) : Bool :=
  decide (type.kind = .union ∨ (type.kind = .fwd ∧ type.kflag = true))

/-- The constants of an enum as they are read: the values that BTF gives them, but that those
of a 32-bit enum from `2 ^ 31` on are read as negative. -/
def readValues (btf : Btf) (type : BtfType) : List (CString × Int) :=
  (enumValues btf type).map fun value =>
    (value.1, if type.kind = .enum ∧ 2 ^ 31 ≤ value.2 then value.2 - 2 ^ 32 else value.2)

theorem toInt_eq_of_flag (kflag : Bool) (bits : BitVec 32) :
    (if 2 ^ 31 ≤ (if kflag then bits.toInt else bits.toNat) then
      (if kflag then bits.toInt else bits.toNat) - 2 ^ 32
      else if kflag then bits.toInt else bits.toNat) = bits.toInt := by
  have hlt := bits.isLt
  rw [BitVec.toInt_eq_toNat_cond]
  cases kflag <;> simp only [Bool.false_eq_true, if_true, if_false] <;> split <;> split <;> omega

/-- The text of a 32-bit constant is signed whatever the flag is. -/
theorem readValues_of_enum (btf : Btf) {type : BtfType} (hkind : type.kind = .enum) :
    readValues btf type =
      type.enums.map fun value => (enumeratorName btf value.nameOff, value.val.toInt) := by
  simp only [readValues, enumValues, hkind, if_true, List.map_map, true_and]
  exact List.map_congr_left fun value _ => congrArg _ (toInt_eq_of_flag type.kflag value.val)

theorem readValues_of_enum64 (btf : Btf) {type : BtfType} (hkind : type.kind ≠ .enum) :
    readValues btf type = type.enum64s.map fun value =>
      let bits : BitVec 64 := value.valHi32 ++ value.valLo32
      (enumeratorName btf value.nameOff, if type.kflag then bits.toInt else bits.toNat) := by
  simp [readValues, enumValues, hkind]

/-- C has an enum with these constants: there are some, and each has a literal. -/
def EnumReadable (type : BtfType) : Prop :=
  if type.kind = .enum then type.enums ≠ []
  else type.enum64s ≠ [] ∧ (type.kflag = true →
    ∀ value ∈ type.enum64s, (value.valHi32 ++ value.valLo32 : BitVec 64) ≠ BitVec.intMin 64)

/-- C has a declaration for the entry. -/
def Entry.Readable (ctx : EmitCtx) : Entry → Prop
  | .forward _ => True
  | .enum id => ∃ type, btfTypeById ctx.btf id = some type ∧ EnumReadable type
  | .definition (.typedef id) =>
      ∃ type, btfTypeById ctx.btf id = some type ∧ Declarable ctx type.type
  | .definition (.record id) => ∃ type, btfTypeById ctx.btf id = some type ∧
      ∀ member ∈ keptMembers ctx.keeps id type,
        MemberDeclarable ctx member.1 (memberWidth type.kflag member.1)

/-- What is read is the member of BTF, its type up to qualifiers. -/
structure ReadsMember (ctx : EmitCtx) (kflag : Bool) (member : BtfMember × Nat) (m : Member) :
    Prop where
  name : m.name = memberName ctx member.1
  width : m.width = memberWidth kflag member.1
  type : Reads ctx m.type member.1.type

/-- The declaration says of the type what BTF says. -/
def Entry.Declares (ctx : EmitCtx) (entry : Entry) (d : External) : Prop :=
  match entry with
  | .forward id => ∃ type, btfTypeById ctx.btf id = some type ∧
      d = .tag (isUnionTag type) (mchBtfTypeName ctx.btf type)
  | .enum id => ∃ type, btfTypeById ctx.btf id = some type ∧
      d = .enum (mchBtfTypeName ctx.btf type) (readValues ctx.btf type)
  | .definition (.typedef id) => ∃ type t, btfTypeById ctx.btf id = some type ∧
      d = .typedef (mchBtfTypeName ctx.btf type) t ∧ Reads ctx t type.type
  | .definition (.record id) => ∃ type ms, btfTypeById ctx.btf id = some type ∧
      d = .record (type.kind == .union) (mchBtfTypeName ctx.btf type) ms ∧
      List.Forall₂ (ReadsMember ctx type.kflag) (keptMembers ctx.keeps id type) ms

/-! ## Members -/

theorem not_declaresMember_nil (m : Member) (rest : List Token) : ¬DeclaresMember [] m rest :=
  not_memberDeclaration_nil

section

variable {ctx : EmitCtx} {fuel : Nat} {kflag : Bool}

/-- A printed member is read alone, and as what it is. -/
theorem printedMember_reading {member : BtfMember × Nat} {t : Tree}
    (hnames : ctx.btf.NamesAreIdentifiers)
    (hname : OptionalIdentifier (memberName ctx member.1))
    (htree : treeOf ctx fuel member.1.type = some t) :
    SelfDelimiting DeclaresMember (t.tokens (nameTokens (memberName ctx member.1)) ++
        endTokens (memberWidth kflag member.1)) ∧
      Reading (fun m => DeclaresMember (t.tokens (nameTokens (memberName ctx member.1)) ++
          endTokens (memberWidth kflag member.1)) m [])
        (MemberDeclarable ctx member.1 (memberWidth kflag member.1))
        (ReadsMember ctx kflag member) := by
  have hne : t.tokens (nameTokens (memberName ctx member.1)) ++
      endTokens (memberWidth kflag member.1) ≠ [] := by
    intro hnil
    have hend := (List.append_eq_nil_iff.mp hnil).2
    cases hwidth : memberWidth kflag member.1 <;> rw [hwidth] at hend <;> cases hend
  have hread : ∀ (rest : List Token) (m : Member) (rest' : List Token),
      DeclaresMember (t.tokens (nameTokens (memberName ctx member.1)) ++
          endTokens (memberWidth kflag member.1) ++ rest) m rest' ↔
        (t.IsMember (memberName ctx member.1) (memberWidth kflag member.1) ∧
          m = { name := memberName ctx member.1, type := t.printed t.front,
                width := memberWidth kflag member.1 }) ∧ rest' = rest := by
    intro rest m rest'
    unfold DeclaresMember
    rw [(treeOf_wellNamed hnames fuel _ t htree).member_iff hname memberWidth_pos]
    constructor
    · rintro ⟨hmember, hsame, htype, hwidth, hrest⟩
      refine ⟨⟨hmember, ?_⟩, hrest⟩
      rw [← hsame, ← htype, ← hwidth]
    · rintro ⟨⟨hmember, rfl⟩, hrest⟩
      exact ⟨hmember, rfl, rfl, rfl, hrest⟩
  obtain ⟨hpart, halone⟩ := SelfDelimiting.of_iff hne hread
  exact ⟨hpart, .of_iff halone (isMember_iff_declarable htree _)
    fun hmember => ⟨rfl, rfl, hmember.reads htree⟩⟩

/-- The tokens between the braces of a record are read as its kept members. -/
theorem PrintedMembers.reading {members : List (BtfMember × Nat)} {ts : List Token}
    (h : PrintedMembers ctx fuel kflag members ts) (hnames : ctx.btf.NamesAreIdentifiers) :
    Reading (ReadsAll DeclaresMember ts)
      (∀ member ∈ members, MemberDeclarable ctx member.1 (memberWidth kflag member.1))
      (List.Forall₂ (ReadsMember ctx kflag) members) := by
  obtain ⟨parts, rfl, hparts⟩ : ∃ parts : List (List Token), ts = parts.flatten ∧
      List.Forall₂ (fun member part => SelfDelimiting DeclaresMember part ∧
        Reading (fun m => DeclaresMember part m [])
          (MemberDeclarable ctx member.1 (memberWidth kflag member.1))
          (ReadsMember ctx kflag member)) members parts := by
    induction h with
    | nil => exact ⟨[], rfl, .nil⟩
    | cons hname htree _ ih =>
        obtain ⟨parts, rfl, hparts⟩ := ih
        exact ⟨_ :: parts, rfl, .cons (printedMember_reading hnames hname htree) hparts⟩
  exact Reading.readsAll not_declaresMember_nil hparts

end

/-! ## Enums -/

theorem forall₂_and_eq_iff {α β : Type} {P : α → Prop} {f : α → β} {as : List α} {bs : List β} :
    List.Forall₂ (fun a b => P a ∧ b = f a) as bs ↔ (∀ a ∈ as, P a) ∧ bs = as.map f := by
  rw [List.forall₂_and_left]
  refine and_congr_right fun _ => ?_
  have hflip : List.Forall₂ (fun a b => b = f a) as bs ↔ List.Forall₂ Eq (as.map f) bs := by
    rw [List.forall₂_map_left_iff]
    constructor <;> exact List.Forall₂.imp fun _ _ => Eq.symm
  rw [hflip, List.forall₂_eq_eq_eq]
  exact eq_comm

/-- A signed constant is read where it is not the smallest. -/
theorem constantValue_signed_iff (bits : BitVec 64) (n : Int) :
    constantValue (signedDecimal bits.toInt) = some n ↔ bits ≠ BitVec.intMin 64 ∧ n = bits.toInt := by
  by_cases hmin : bits = BitVec.intMin 64
  · have hsmallest : (BitVec.intMin 64).toInt = -(2 ^ 63) := by decide
    rw [hmin, hsmallest, constantValue_smallest]
    simp
  · rw [(constantValue_enum64_iff bits).mpr hmin, Option.some.injEq]
    constructor
    · exact fun heq => ⟨hmin, heq.symm⟩
    · exact fun hboth => hboth.2.symm

/-- The constants of an enum have a literal each or the list is not read. -/
theorem enumerators_iff (btf : Btf) (type : BtfType) (constants : List (CString × Int)) :
    enumeratorTexts (enumerators btf type) ≠ [] ∧
        List.Forall₂ (fun entry constant => constant.1 = entry.1 ∧
          constantValue entry.2 = some constant.2)
          (enumeratorTexts (enumerators btf type)) constants ↔
      EnumReadable type ∧ constants = readValues btf type := by
  unfold enumeratorTexts enumerators EnumReadable
  by_cases hkind : type.kind = .enum
  · rw [readValues_of_enum btf hkind]
    simp only [hkind, if_true, List.map_map, ne_eq, List.map_eq_nil_iff,
      List.forall₂_map_left_iff]
    refine and_congr_right fun _ => ?_
    have hvalue : ∀ (value : BtfEnum) (constant : CString × Int),
        constant.1 = enumeratorName btf value.nameOff ∧
            constantValue (signedDecimal value.val.toInt) = some constant.2 ↔
          True ∧ constant = (enumeratorName btf value.nameOff, value.val.toInt) := by
      intro value constant
      rw [constantValue_enum, Option.some.injEq, true_and, Prod.ext_iff, eq_comm (b := constant.2)]
    simp only [Function.comp_apply, hvalue, forall₂_and_eq_iff]
    simp
  · rw [readValues_of_enum64 btf hkind]
    simp only [hkind, if_false, List.map_map, ne_eq, List.map_eq_nil_iff,
      List.forall₂_map_left_iff]
    rw [and_assoc]
    refine and_congr_right fun _ => ?_
    have hvalue : ∀ (value : BtfEnum64) (constant : CString × Int),
        constant.1 = enumeratorName btf value.nameOff ∧
            constantValue (if type.kflag = true then
              signedDecimal (value.valHi32 ++ value.valLo32 : BitVec 64).toInt
              else decimal (value.valHi32 ++ value.valLo32 : BitVec 64).toNat ++ "ULL".toList) =
              some constant.2 ↔
          (type.kflag = true → (value.valHi32 ++ value.valLo32 : BitVec 64) ≠ BitVec.intMin 64) ∧
            constant = (enumeratorName btf value.nameOff,
              if type.kflag = true then (value.valHi32 ++ value.valLo32 : BitVec 64).toInt
              else ((value.valHi32 ++ value.valLo32 : BitVec 64).toNat : Int)) := by
      intro value constant
      rw [Prod.ext_iff, and_left_comm]
      refine and_congr_right fun _ => ?_
      generalize (value.valHi32 ++ value.valLo32 : BitVec 64) = bits
      cases hflag : type.kflag with
      | true => simpa using constantValue_signed_iff bits constant.2
      | false =>
          have hread : constantValue (decimal bits.toNat ++ "ULL".toList) = some (bits.toNat : Int) :=
            constantValue_unsigned bits.isLt
          rw [if_neg Bool.false_ne_true, if_neg Bool.false_ne_true, hread, Option.some.injEq]
          simp only [reduceCtorEq, false_implies, true_and]
          exact eq_comm
    simp only [Function.comp_apply, hvalue, forall₂_and_eq_iff]
    refine and_congr_left fun _ => ?_
    constructor
    · exact fun hall hflag value hmem => hall value hmem hflag
    · exact fun hall value hmem hflag => hall hflag value hmem

/-! ## Items -/

section

variable {ctx : EmitCtx}

theorem recordKeyword_eq (type : BtfType) : recordKeyword type = keywordOf (isUnionTag type) := by
  unfold recordKeyword isUnionTag keywordOf
  split <;> simp_all

/-- The item is read alone, and as its entry. -/
def Item.IsRead (ctx : EmitCtx) (item : Item) : Prop :=
  ∃ entry, item.toEntry = some entry ∧ SelfDelimiting ExternalDeclaration item.tokens ∧
    Reading (fun d => ExternalDeclaration item.tokens d []) (entry.Readable ctx) (entry.Declares ctx)

theorem Item.IsRead.forwardDecl {id : Nat} {type : BtfType}
    (htype : btfTypeById ctx.btf id = some type)
    (hname : isIdentifier (mchBtfTypeName ctx.btf type) = true) :
    (Item.forwardDecl id (recordKeyword type) (mchBtfTypeName ctx.btf type)).IsRead ctx := by
  have htokens : (Item.forwardDecl id (recordKeyword type) (mchBtfTypeName ctx.btf type)).tokens =
      [.word (keywordOf (isUnionTag type)), .word (mchBtfTypeName ctx.btf type), semicolon] := by
    rw [← recordKeyword_eq]
    rfl
  have hread : ∀ (rest : List Token) (d : External) (rest' : List Token),
      ExternalDeclaration ((Item.forwardDecl id (recordKeyword type)
          (mchBtfTypeName ctx.btf type)).tokens ++ rest) d rest' ↔
        (True ∧ d = .tag (isUnionTag type) (mchBtfTypeName ctx.btf type)) ∧ rest' = rest := by
    intro rest d rest'
    rw [htokens, true_and]
    exact tag_iff hname
  obtain ⟨hpart, halone⟩ := SelfDelimiting.of_iff (List.cons_ne_nil _ _) hread
  exact ⟨.forward id, rfl, hpart, .of_iff halone Iff.rfl fun _ => ⟨type, htype, rfl⟩⟩

theorem Item.IsRead.enumDef {id : Nat} {type : BtfType}
    (htype : btfTypeById ctx.btf id = some type)
    (hname : OptionalIdentifier (mchBtfTypeName ctx.btf type))
    (hnames : ∀ constant ∈ enumerators ctx.btf type, isIdentifier constant.name = true) :
    (Item.enumDef id (mchBtfTypeName ctx.btf type) (enumerators ctx.btf type)).IsRead ctx := by
  obtain ⟨hlexes, _, _⟩ := enumeratorLines_text hnames fun _ hmem => isNumeral_of_mem hmem
  have hlex : lex ('\n' :: enumeratorLines (enumerators ctx.btf type)) =
      enumeratorTokens (enumeratorTexts (enumerators ctx.btf type)) := Lexes.lex_eq hlexes
  have htexts : ∀ entry ∈ enumeratorTexts (enumerators ctx.btf type), isIdentifier entry.1 = true := by
    intro entry hentry
    obtain ⟨constant, hmem, rfl⟩ := List.mem_map.mp hentry
    exact hnames constant hmem
  have hread : ∀ (rest : List Token) (d : External) (rest' : List Token),
      ExternalDeclaration ((Item.enumDef id (mchBtfTypeName ctx.btf type)
          (enumerators ctx.btf type)).tokens ++ rest) d rest' ↔
        (EnumReadable type ∧ d = .enum (mchBtfTypeName ctx.btf type) (readValues ctx.btf type)) ∧
          rest' = rest := by
    intro rest d rest'
    have hbody : ExternalDeclaration ((Item.enumDef id (mchBtfTypeName ctx.btf type)
          (enumerators ctx.btf type)).tokens ++ rest) d rest' ↔
        (∃ constants, EnumeratorList (lex ('\n' :: enumeratorLines (enumerators ctx.btf type)))
          constants ∧ d = .enum (mchBtfTypeName ctx.btf type) constants) ∧ rest' = rest := by
      rw [Item.tokens, nameTokens]
      rcases hname with hempty | hname
      · rw [hempty, if_pos rfl]
        exact constants_iff
      · rw [if_neg (isWordChar_of_isIdentifier hname).1]
        exact enum_iff hname
    rw [hbody, hlex]
    refine and_congr_left fun _ => ?_
    simp only [enumeratorList_iff htexts, enumerators_iff]
    constructor
    · rintro ⟨_, ⟨hreadable, rfl⟩, rfl⟩
      exact ⟨hreadable, rfl⟩
    · rintro ⟨hreadable, rfl⟩
      exact ⟨_, ⟨hreadable, rfl⟩, rfl⟩
  obtain ⟨hpart, halone⟩ := SelfDelimiting.of_iff (List.cons_ne_nil _ _) hread
  refine ⟨.enum id, rfl, hpart, .of_iff halone ?_ fun _ => ⟨type, htype, rfl⟩⟩
  constructor
  · exact fun hreadable => ⟨type, htype, hreadable⟩
  · rintro ⟨other, hother, hreadable⟩
    cases htype.symm.trans hother
    exact hreadable

theorem Item.IsRead.typedefDef (hnames : ctx.btf.NamesAreIdentifiers) {id fuel : Nat}
    {type : BtfType} (htype : btfTypeById ctx.btf id = some type)
    (hname : isIdentifier (mchBtfTypeName ctx.btf type) = true) {decl : List Piece}
    (hprinted : emitDeclEx ctx fuel type.type (mchBtfTypeName ctx.btf type) = .ok decl) :
    (Item.typedefDef id (mchBtfTypeName ctx.btf type) decl).IsRead ctx := by
  obtain ⟨tree, htree, htext⟩ := emitDeclEx_text ctx fuel _ _ _ hprinted
  have hwell := treeOf_wellNamed hnames fuel _ _ htree
  have hlexes := Tree.WellNamed.lexes tree hwell (declaratorText_name hname)
  rw [← htext] at hlexes
  have hne := (isWordChar_of_isIdentifier hname).1
  have hnameTokens : nameTokens (mchBtfTypeName ctx.btf type) = [.word (mchBtfTypeName ctx.btf type)] := by
    rw [nameTokens, if_neg hne]
  have htokens : (Item.typedefDef id (mchBtfTypeName ctx.btf type) decl).tokens =
      .word "typedef".toList :: (tree.tokens (nameTokens (mchBtfTypeName ctx.btf type)) ++
        endTokens none) := by
    rw [Item.tokens, hlexes.lex_eq, hnameTokens]
    rfl
  have hread : ∀ (rest : List Token) (d : External) (rest' : List Token),
      ExternalDeclaration ((Item.typedefDef id (mchBtfTypeName ctx.btf type) decl).tokens ++ rest)
          d rest' ↔
        (tree.Readable ∧ d = .typedef (mchBtfTypeName ctx.btf type) (tree.printed tree.front)) ∧
          rest' = rest := by
    intro rest d rest'
    have hmember : ∀ name t, MemberDeclaration (tree.tokens (nameTokens (mchBtfTypeName ctx.btf type)) ++
          endTokens none ++ rest) name t none rest' ↔
        tree.IsMember (mchBtfTypeName ctx.btf type) none ∧ name = mchBtfTypeName ctx.btf type ∧
          t = tree.printed tree.front ∧ none = none ∧ rest' = rest :=
      fun _ _ => hwell.member_iff (Or.inr hname) (by simp)
    rw [htokens, List.cons_append, typedef_iff]
    simp only [hmember, Tree.IsMember, if_neg hne]
    constructor
    · rintro ⟨_, _, _, ⟨hreadable, rfl, rfl, _, hrest⟩, rfl⟩
      exact ⟨⟨hreadable, rfl⟩, hrest⟩
    · rintro ⟨⟨hreadable, rfl⟩, hrest⟩
      exact ⟨_, _, hne, ⟨hreadable, rfl, rfl, trivial, hrest⟩, rfl⟩
  obtain ⟨hpart, halone⟩ := SelfDelimiting.of_iff (List.cons_ne_nil _ _) hread
  refine ⟨.definition (.typedef id), rfl, hpart, .of_iff halone ?_ fun hreadable =>
    ⟨type, _, htype, rfl, hreadable.reads htree⟩⟩
  rw [readable_iff_declarable htree]
  constructor
  · exact fun hdeclarable => ⟨type, htype, hdeclarable⟩
  · rintro ⟨other, hother, hdeclarable⟩
    cases htype.symm.trans hother
    exact hdeclarable

theorem Item.IsRead.recordDef (hnames : ctx.btf.NamesAreIdentifiers) {id fuel : Nat}
    {type : BtfType} (htype : btfTypeById ctx.btf id = some type) (hzero : id ≠ 0)
    (hname : isIdentifier (mchBtfTypeName ctx.btf type) = true) {keyword : CString}
    (hkeyword : keyword = keywordOf (type.kind == .union)) {body : List Piece}
    (hprinted : emitRecordBody ctx (emitDeclEx ctx fuel) id type = .ok body) :
    (Item.recordDef id keyword (mchBtfTypeName ctx.btf type) body).IsRead ctx := by
  obtain ⟨inner, hlexes, hmembers⟩ := emitRecordBody_lexes hnames
    (mem_types_of_btfTypeById hzero htype) hprinted
  have hreading := hmembers.reading hnames
  have hread : ∀ (rest : List Token) (d : External) (rest' : List Token),
      ExternalDeclaration ((Item.recordDef id keyword (mchBtfTypeName ctx.btf type) body).tokens ++
          rest) d rest' ↔
        (∃ ms, ReadsAll DeclaresMember (lex inner) ms ∧
          d = .record (type.kind == .union) (mchBtfTypeName ctx.btf type) ms) ∧ rest' = rest := by
    intro rest d rest'
    rw [Item.tokens, hlexes.lex_eq, hkeyword]
    exact record_iff hname
  obtain ⟨hpart, halone⟩ := SelfDelimiting.of_iff (List.cons_ne_nil _ _) hread
  refine ⟨.definition (.record id), rfl, hpart, ?_, ?_, ?_⟩
  · constructor
    · rintro ⟨d, hd⟩
      obtain ⟨ms, hms, _⟩ := (halone d).mp hd
      exact ⟨type, htype, hreading.readable_iff.mp ⟨ms, hms⟩⟩
    · rintro ⟨other, hother, hdeclarable⟩
      cases htype.symm.trans hother
      obtain ⟨ms, hms⟩ := hreading.readable_iff.mpr hdeclarable
      exact ⟨_, (halone _).mpr ⟨ms, hms, rfl⟩⟩
  · intro d hd
    obtain ⟨ms, hms, rfl⟩ := (halone d).mp hd
    exact ⟨type, ms, htype, rfl, hreading.sound ms hms⟩
  · intro d d' hd hd'
    obtain ⟨ms, hms, rfl⟩ := (halone d).mp hd
    obtain ⟨ms', hms', rfl⟩ := (halone d').mp hd'
    rw [hreading.unique ms ms' hms hms']

/-- What the walks print is read. -/
theorem Item.FromWalk.isRead (hnames : ctx.btf.NamesAreIdentifiers) {item : Item}
    (h : item.FromWalk ctx) : item.IsRead ctx := by
  cases item with
  | text _ => cases h
  | enumDef _ _ _ => cases h
  | forwardDecl id keyword name =>
      obtain ⟨type, htype, hkind, rfl, rfl, hne⟩ := h
      have hnamed : type.kind.isNamedInC = true := by
        unfold Kind.isNamedInC
        rcases hkind with hkind | hkind <;> simp [hkind]
      exact .forwardDecl htype (isIdentifier_of_type hnames htype hnamed hne)
  | typedefDef id name decl =>
      obtain ⟨type, fuel, htype, hnamed, _, hprinted⟩ := h
      obtain ⟨pieces, hpieces, heq⟩ := bind_eq_ok.mp hprinted
      cases heq
      obtain ⟨hkind, hne⟩ : type.kind = .typedef ∧ mchBtfTypeName ctx.btf type ≠ [] := by
        simpa [isNamedTypedef] using hnamed
      exact .typedefDef hnames htype
        (isIdentifier_of_type hnames htype (by rw [hkind]; rfl) hne) hpieces
  | recordDef id keyword name body =>
      obtain ⟨type, fuel, htype, hnamed, _, hprinted⟩ := h
      obtain ⟨pieces, hpieces, heq⟩ := bind_eq_ok.mp hprinted
      cases heq
      obtain ⟨hkind, hne⟩ : type.kind.isRecord = true ∧ mchBtfTypeName ctx.btf type ≠ [] := by
        simpa [isNamedRecord] using hnamed
      have hzero : id ≠ 0 := by
        rintro rfl
        cases htype
        cases hkind
      have hkeyword : (if type.kind = .struct then "struct".toList else "union".toList) =
          keywordOf (type.kind == .union) := by
        cases hcase : type.kind <;> rw [hcase] at hkind <;> first | rfl | cases hkind
      exact .recordDef hnames htype hzero
        (isIdentifier_of_type hnames htype (by simp [Kind.isNamedInC, hkind]) hne) hkeyword hpieces

/-! ## The header -/

variable {required : TypeSet} {fwds enums defs : List Item}

theorem Layout.isRead (h : Layout ctx required fwds enums defs)
    (hnames : ctx.btf.NamesAreIdentifiers) (henums : ctx.btf.EnumeratorsAreIdentifiers) :
    ∀ item ∈ fwds ++ enums ++ defs, item.IsRead ctx := by
  intro item hitem
  rw [List.mem_append, List.mem_append] at hitem
  rcases hitem with (hitem | hitem) | hitem
  · rw [h.fwds_eq] at hitem
    obtain ⟨id, hid, rfl⟩ := List.mem_map.mp hitem
    obtain ⟨type, htype, hforward⟩ := hasType_eq_true.mp (List.mem_filter.mp hid).2
    obtain ⟨hkind, hne⟩ : (type.kind.isRecord = true ∨ type.kind = .fwd) ∧
        mchBtfTypeName ctx.btf type ≠ [] := by
      simpa [isForwardable] using hforward
    have hnamed : type.kind.isNamedInC = true := by
      unfold Kind.isNamedInC
      rcases hkind with hkind | hkind <;> simp [hkind]
    unfold forwardItem
    rw [htype]
    exact .forwardDecl htype (isIdentifier_of_type hnames htype hnamed hne)
  · rw [h.enums_eq] at hitem
    obtain ⟨id, hid, rfl⟩ := List.mem_map.mp hitem
    obtain ⟨type, htype, hkind⟩ := hasType_eq_true.mp (List.mem_filter.mp hid).2
    have hzero : id ≠ 0 := by
      rintro rfl
      cases htype
      cases hkind
    have hmem := mem_types_of_btfTypeById hzero htype
    have hnamed : type.kind.isNamedInC = true := by
      unfold isEnumKind at hkind
      unfold Kind.isNamedInC
      cases hcase : type.kind <;> simp [hcase] at hkind ⊢
    unfold enumItem
    rw [htype]
    exact .enumDef htype (hnames.types type hmem hnamed) (henums type hmem hkind)
  · exact (h.defs_from item hitem).isRead hnames

/-- Items that are read one by one are read one behind the other. -/
theorem reading_of_isRead {items : List Item} (h : ∀ item ∈ items, item.IsRead ctx) :
    Reading (ReadsAll ExternalDeclaration (items.flatMap Item.tokens))
      (∀ entry ∈ headerEntries items, entry.Readable ctx)
      (List.Forall₂ (Entry.Declares ctx) (headerEntries items)) := by
  refine Reading.readsAll not_externalDeclaration_nil ?_
  induction items with
  | nil => exact .nil
  | cons item items ih =>
      obtain ⟨entry, hentry, hread⟩ := h item List.mem_cons_self
      have hentries : headerEntries (item :: items) = entry :: headerEntries items :=
        List.filterMap_cons_some hentry
      rw [hentries, List.map_cons]
      exact .cons hread (ih fun other hother => h other (List.mem_cons_of_mem _ hother))

theorem headerEntries_append (xs ys : List Item) :
    headerEntries (xs ++ ys) = headerEntries xs ++ headerEntries ys := List.filterMap_append

theorem headerEntries_headerItems (fwds enums defs : List Item) :
    headerEntries (headerItems fwds enums defs) = headerEntries (fwds ++ enums ++ defs) := by
  have hopening : headerEntries headerOpening = [] := rfl
  have hclosing : headerEntries headerClosing = [] := rfl
  have hblank : ∀ items, headerEntries (.text ['\n'] :: items) = headerEntries items := fun _ => rfl
  rw [headerItems, headerEntries_append, headerEntries_append, headerEntries_append,
    headerEntries_append, hopening, hclosing, hblank, headerEntries_append, headerEntries_append]
  simp

theorem Layout.reading (h : Layout ctx required fwds enums defs)
    (hnames : ctx.btf.NamesAreIdentifiers) (henums : ctx.btf.EnumeratorsAreIdentifiers) :
    Reading (TranslationUnit (headerText (headerItems fwds enums defs)))
      (∀ entry ∈ headerEntries (headerItems fwds enums defs), entry.Readable ctx)
      (List.Forall₂ (Entry.Declares ctx) (headerEntries (headerItems fwds enums defs))) := by
  have hreading := reading_of_isRead (h.isRead hnames henums)
  rw [← h.lex_headerText hnames henums] at hreading
  rw [headerEntries_headerItems]
  exact hreading

/-! ## Which declarations there are -/

def Entry.forward? : Entry → Option Nat
  | .forward id => some id
  | _ => none

def Entry.enum? : Entry → Option Nat
  | .enum id => some id
  | _ => none

def Entry.node? : Entry → Option Node
  | .definition node => some node
  | _ => none

/-- Entries are apart where those of each kind are. -/
theorem nodup_of_kinds {entries : List Entry} (hforwards : (entries.filterMap Entry.forward?).Nodup)
    (henums : (entries.filterMap Entry.enum?).Nodup)
    (hnodes : (entries.filterMap Entry.node?).Nodup) : entries.Nodup := by
  induction entries with
  | nil => exact List.nodup_nil
  | cons entry entries ih =>
      have hkind : ∀ {α : Type} {f : Entry → Option α} {a : α}, f entry = some a →
          ((entry :: entries).filterMap f).Nodup →
            entry ∉ entries ∧ (entries.filterMap f).Nodup := by
        intro α f a hentry hnodup
        rw [List.filterMap_cons_some hentry, List.nodup_cons] at hnodup
        exact ⟨fun hmem => hnodup.1 (List.mem_filterMap.mpr ⟨entry, hmem, hentry⟩), hnodup.2⟩
      rw [List.nodup_cons]
      cases entry with
      | forward id =>
          obtain ⟨hnot, hrest⟩ := hkind (f := Entry.forward?) rfl hforwards
          exact ⟨hnot, ih hrest henums hnodes⟩
      | enum id =>
          obtain ⟨hnot, hrest⟩ := hkind (f := Entry.enum?) rfl henums
          exact ⟨hnot, ih hforwards hrest hnodes⟩
      | definition node =>
          obtain ⟨hnot, hrest⟩ := hkind (f := Entry.node?) rfl hnodes
          exact ⟨hnot, ih hforwards henums hrest⟩

theorem filterMap_headerEntries {α : Type} {f : Entry → Option α} {g : Item → Option α}
    (h : ∀ item, (item.toEntry).bind f = g item) (items : List Item) :
    (headerEntries items).filterMap f = items.filterMap g := by
  rw [headerEntries, List.filterMap_filterMap]
  exact List.filterMap_congr fun item _ => h item

theorem forwards_headerEntries (items : List Item) :
    (headerEntries items).filterMap Entry.forward? = forwardIds items :=
  filterMap_headerEntries (fun item => by cases item <;> rfl) items

theorem nodes_headerEntries (items : List Item) :
    (headerEntries items).filterMap Entry.node? = definedNodes items :=
  filterMap_headerEntries (fun item => by cases item <;> rfl) items

theorem definedNodes_headerItems (h : Layout ctx required fwds enums defs) :
    definedNodes (headerItems fwds enums defs) = definedNodes defs := by
  have hfront := definedNodes_eq_nil h.node?_front
  have hclosing : definedNodes headerClosing = [] := rfl
  have hsplit : headerItems fwds enums defs = headerFront fwds enums ++ defs ++ headerClosing := by
    simp [headerItems, headerFront]
  rw [hsplit, definedNodes_append, definedNodes_append, hfront, hclosing]
  simp

/-- The enums of a header are those of the required set, in order. -/
theorem Layout.enums_headerEntries (h : Layout ctx required fwds enums defs) :
    (headerEntries (headerItems fwds enums defs)).filterMap Entry.enum? =
      (requiredIds required).filter (hasType ctx isEnumKind) := by
  have hnone : ∀ items : List Item, (∀ item ∈ items, (item.toEntry).bind Entry.enum? = none) →
      (headerEntries items).filterMap Entry.enum? = [] := by
    intro items hitems
    rw [headerEntries, List.filterMap_filterMap, List.filterMap_eq_nil_iff]
    exact hitems
  have hfwds : (headerEntries fwds).filterMap Entry.enum? = [] := by
    apply hnone
    intro item hitem
    rw [h.fwds_eq] at hitem
    obtain ⟨id, _, rfl⟩ := List.mem_map.mp hitem
    unfold forwardItem
    split <;> rfl
  have hdefs : (headerEntries defs).filterMap Entry.enum? = [] := by
    apply hnone
    intro item hitem
    have hfrom := h.defs_from item hitem
    cases item with
    | enumDef _ _ _ => cases hfrom
    | text _ => rfl
    | forwardDecl _ _ _ => rfl
    | typedefDef _ _ _ => rfl
    | recordDef _ _ _ _ => rfl
  have hown : ∀ id, ((enumItem ctx id).toEntry).bind Entry.enum? = some id := by
    intro id
    unfold enumItem
    split <;> rfl
  rw [headerEntries_headerItems, headerEntries_append, headerEntries_append, List.filterMap_append,
    List.filterMap_append, hfwds, hdefs, h.enums_eq, headerEntries, List.filterMap_filterMap,
    List.filterMap_map]
  simp only [Function.comp_def, hown, List.nil_append, List.append_nil]
  exact List.filterMap_some

/-- A header has the declarations that are asked for, each once. -/
theorem emitHeader_entries {fuel : Nat} {items : List Item}
    (h : emitHeader ctx fuel required = .ok items) :
    (headerEntries items).Nodup ∧
      ∀ entry, entry ∈ headerEntries items ↔ Wanted ctx required.ids entry := by
  obtain ⟨hnodup, hforwards, _⟩ := emitHeader_forwards h
  obtain ⟨fwds, enums, defs, rfl, hlayout⟩ := emitHeader_layout h
  have hkind : ∀ {α : Type} {f : Entry → Option α} {make : α → Entry},
      (∀ entry a, f entry = some a ↔ entry = make a) → ∀ (entries : List Entry) (a : α),
        make a ∈ entries ↔ a ∈ entries.filterMap f := by
    intro α f make hmake entries a
    rw [List.mem_filterMap]
    constructor
    · exact fun hmem => ⟨_, hmem, (hmake _ _).mpr rfl⟩
    · rintro ⟨entry, hmem, hentry⟩
      rwa [(hmake _ _).mp hentry] at hmem
  refine ⟨nodup_of_kinds ?_ ?_ ?_, ?_⟩
  · rw [forwards_headerEntries]
    exact hnodup
  · rw [hlayout.enums_headerEntries]
    exact (requiredIds_nodup required).filter _
  · rw [nodes_headerEntries, definedNodes_headerItems hlayout]
    exact hlayout.nodup
  · intro entry
    cases entry with
    | forward id =>
        rw [hkind (f := Entry.forward?) (by
          intro entry a
          cases entry <;> simp [Entry.forward?]), forwards_headerEntries]
        exact hforwards id
    | enum id =>
        rw [hkind (f := Entry.enum?) (by
          intro entry a
          cases entry <;> simp [Entry.enum?]), hlayout.enums_headerEntries, List.mem_filter,
          mem_requiredIds]
        rfl
    | definition node =>
        rw [hkind (f := Entry.node?) (by
          intro entry a
          cases entry <;> simp [Entry.node?]), nodes_headerEntries, definedNodes_headerItems hlayout]
        exact hlayout.mem_definedNodes_iff node

end

end MinCorehdr
