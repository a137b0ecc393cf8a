import MinCorehdr.Emitter.NaturalLayout

/-!
# The layout of a printed record

The header is an environment for its own definitions, and a printed record has the
shapes that the natural layout gives its members.  So it keeps the size and the
offsets that BTF records exactly where these are the natural ones.
-/

namespace MinCorehdr

open Relation Support.CConstant Support.CDeclaration Support.CLayout Support.CRecord Support.CToken
  Support.CTypedef Support.Result

/-- The names that a header gives a meaning. -/
def headerEnv (items : List Item) : Env where
  typedefs := headerTypedefs items
  records isUnion name ts :=
    ∃ id body inner, .recordDef id (keywordOf isUnion) name body ∈ items ∧
      lex (declText body) = [.braces inner] ∧ ts = lex inner
  enums name size :=
    ∃ id values, .enumDef id name values ∈ items ∧
      enumSize (values.map fun value => constantValue value.value) = some size

/-- The definition that the header has for the record `id` can be laid out, and by the rules
of C it has the size and the offsets that BTF records: a name in it that the header declares
more than once may stand for either. -/
def KeepsLayout (ctx : EmitCtx) (items : List Item) (id : Nat) (type : BtfType) : Prop :=
  ∃ body inner, .recordDef id (keywordOf (type.kind == .union)) (mchBtfTypeName ctx.btf type) body
      ∈ items ∧ lex (declText body) = [.braces inner] ∧
    (∃ ms, (headerEnv items).HasShapes ms (lex inner)) ∧
      ∀ ms, (headerEnv items).HasShapes ms (lex inner) →
        LaidOut (type.kind == .union) ms type.size (type.members.map (memberBitOffset type.kflag))

/-! ## Enums -/

theorem enumSize_of_fits {constants : List (Option Int)} {low high : Int}
    (hfits : (low = 0 ∧ high = 2 ^ 32) ∨ (low = -(2 ^ 31) ∧ high = 2 ^ 31))
    (h : ∀ c ∈ constants, ∃ n, c = some n ∧ low ≤ n ∧ n < high) :
    enumSize constants = if constants = [] then none else some 4 := by
  have hall : constants.all (Option.any fun n => decide (low ≤ n ∧ n < high)) = true := by
    rw [List.all_eq_true]
    intro c hc
    obtain ⟨n, rfl, hn⟩ := h c hc
    simpa using hn
  unfold enumSize
  rcases hfits with ⟨rfl, rfl⟩ | ⟨rfl, rfl⟩
  · simp only [hall, Bool.true_or, if_true]
  · simp only [hall, Bool.or_true, if_true]

/-- What does not fit in one list does not fit in the other. -/
theorem enumSize_congr {α : Type} {values : List α} {f g : α → Option Int}
    (h : ∀ v ∈ values, f v = g v ∨ f v = none ∧ ∃ n, g v = some n ∧ n < -(2 ^ 31)) :
    enumSize (values.map f) = enumSize (values.map g) := by
  have hall : ∀ low high : Int, -(2 ^ 31) ≤ low →
      (values.map f).all (Option.any fun n => decide (low ≤ n ∧ n < high)) =
        (values.map g).all (Option.any fun n => decide (low ≤ n ∧ n < high)) := by
    intro low high hlow
    rw [List.all_map, List.all_map, Bool.eq_iff_iff, List.all_eq_true, List.all_eq_true]
    refine forall₂_congr fun v hv => ?_
    rcases h v hv with heq | ⟨hnone, n, hsome, hn⟩
    · simp only [Function.comp_apply, heq]
    · simp only [Function.comp_apply, hnone, hsome, Option.any_none, Option.any_some]
      have hout : ¬(low ≤ n ∧ n < high) := by omega
      simp only [hout, decide_false]
  unfold enumSize
  simp only [hall 0 _ (by omega), hall _ _ (Int.le_refl _), List.map_eq_nil_iff]

/-- A 32-bit enum has 32 bits, whichever its flag. -/
theorem enumSize_enum (values : List BtfEnum) :
    enumSize (values.map fun value => some value.val.toInt) =
      enumSize (values.map fun value => some (value.val.toNat : Int)) := by
  have hsigned := @enumSize_of_fits (values.map fun value => some value.val.toInt) _ _
    (Or.inr ⟨rfl, rfl⟩) (by
      intro c hc
      obtain ⟨value, _, rfl⟩ := List.mem_map.mp hc
      have hlow := @BitVec.le_toInt 32 value.val
      have hhigh := @BitVec.toInt_lt 32 value.val
      exact ⟨_, rfl, by omega, by omega⟩)
  have hunsigned := @enumSize_of_fits (values.map fun value => some (value.val.toNat : Int)) _ _
    (Or.inl ⟨rfl, rfl⟩) (by
      intro c hc
      obtain ⟨value, _, rfl⟩ := List.mem_map.mp hc
      have hhigh := value.val.isLt
      exact ⟨_, rfl, by omega, by omega⟩)
  rw [hsigned, hunsigned]
  simp only [List.map_eq_nil_iff]

/-- The printed constants give an enum the size its values give it. -/
theorem enumSize_enumerators (btf : Btf) (type : BtfType) :
    enumSize ((enumerators btf type).map fun value => constantValue value.value) =
      enumSizeOf btf type := by
  unfold enumerators enumSizeOf enumValues
  by_cases hkind : type.kind = .enum
  · have hconstants : (type.enums.map fun value => constantValue (signedDecimal value.val.toInt)) =
        type.enums.map fun value => some value.val.toInt :=
      List.map_congr_left fun value _ => constantValue_enum value.val
    rw [if_pos hkind, if_pos hkind, List.map_map, List.map_map]
    refine (congrArg enumSize hconstants).trans ?_
    cases hflag : type.kflag with
    | true => rfl
    | false => exact enumSize_enum type.enums
  · rw [if_neg hkind, if_neg hkind, List.map_map, List.map_map]
    refine enumSize_congr fun value _ => ?_
    cases hflag : type.kflag with
    | true =>
        by_cases hmin : (value.valHi32 ++ value.valLo32 : BitVec 64) = BitVec.intMin 64
        · right
          have hsmallest : (BitVec.intMin 64).toInt = -(2 ^ 63) := by decide
          refine ⟨?_, -(2 ^ 63), ?_, by decide⟩
          · change constantValue (signedDecimal (value.valHi32 ++ value.valLo32 : BitVec 64).toInt) = none
            rw [hmin, hsmallest, constantValue_smallest]
          · change some (value.valHi32 ++ value.valLo32 : BitVec 64).toInt = _
            rw [hmin, hsmallest]
        · exact Or.inl ((constantValue_enum64_iff _).mpr hmin)
    | false => exact Or.inl (constantValue_unsigned (BitVec.isLt _))

/-! ## Names -/

section

variable {ctx : EmitCtx} {required : TypeSet} {fwds enums defs : List Item}

theorem isIdentifier_of_type {type : BtfType} (hnames : ctx.btf.NamesAreIdentifiers)
    {id : Nat} (htype : btfTypeById ctx.btf id = some type) (hkind : type.kind.isNamedInC = true)
    (hne : mchBtfTypeName ctx.btf type ≠ []) : isIdentifier (mchBtfTypeName ctx.btf type) = true := by
  have hzero : id ≠ 0 := by
    rintro rfl
    cases htype
    cases hkind
  exact (hnames.types type (mem_types_of_btfTypeById hzero htype) hkind).resolve_left hne

/-- A typedef name of the header is that of a typedef in reach, and stands for its type. -/
theorem Layout.typedefs_of_header (h : Layout ctx required fwds enums defs)
    (hnames : ctx.btf.NamesAreIdentifiers) {name : CString} {t : CType}
    (hname : (headerEnv (headerItems fwds enums defs)).typedefs name t) :
    ∃ id type, Reached ctx required.ids (.typedef id) ∧ btfTypeById ctx.btf id = some type ∧
      mchBtfTypeName ctx.btf type = name ∧ isIdentifier name = true ∧
        Declarable ctx type.type ∧ Reads ctx t type.type := by
  change headerTypedefs (headerItems fwds enums defs) name t at hname
  rw [h.headerTypedefs_eq hnames] at hname
  obtain ⟨id, type, hreached, htype, rfl, fuel, tree, htree, hreadable, rfl⟩ := hname
  obtain ⟨type', htype', hfits⟩ := isNode_eq_true.mp hreached.isNode
  cases htype.symm.trans htype'
  obtain ⟨hkind, hne⟩ : type.kind = .typedef ∧ mchBtfTypeName ctx.btf type ≠ [] := by
    simpa [Node.Fits, isNamedTypedef] using hfits
  exact ⟨id, type, hreached, htype, rfl, isIdentifier_of_type hnames htype (by rw [hkind]; rfl) hne,
    (readable_iff_declarable htree).mp hreadable, hreadable.reads htree⟩

/-- A typedef in reach whose type C can declare has its name in the header. -/
theorem Layout.typedefs_of_reached (h : Layout ctx required fwds enums defs)
    (hnames : ctx.btf.NamesAreIdentifiers) {id : Nat} {type : BtfType}
    (hreached : Reached ctx required.ids (.typedef id)) (htype : btfTypeById ctx.btf id = some type)
    (hdeclarable : Declarable ctx type.type) :
    ∃ t, (headerEnv (headerItems fwds enums defs)).typedefs (mchBtfTypeName ctx.btf type) t ∧
      Reads ctx t type.type := by
  obtain ⟨decl, hitem⟩ := h.typedefDef_of_reached hreached htype
  obtain ⟨type', fuel, tree, _, htype', _, htree, hread⟩ := h.typedefDef_mem hnames hitem
  cases htype.symm.trans htype'
  have hreadable := (readable_iff_declarable htree).mpr hdeclarable
  have hspelled := (spelledAs_iff htree _).mpr ⟨hreadable, rfl⟩
  exact ⟨_, ⟨id, _, decl, hitem, (hread _ _).mpr ⟨rfl, hspelled⟩⟩, hreadable.reads htree⟩

/-- A record definition of the header is that of a record in reach, member by member. -/
theorem Layout.printedMembers_of_mem (h : Layout ctx required fwds enums defs)
    (hnames : ctx.btf.NamesAreIdentifiers) {id : Nat} {isUnion : Bool} {name : CString}
    {body : List Piece} {inner : List Char}
    (hitem : .recordDef id (keywordOf isUnion) name body ∈ headerItems fwds enums defs)
    (hlex : lex (declText body) = [.braces inner]) :
    ∃ record fuel, Reached ctx required.ids (.record id) ∧
      btfTypeById ctx.btf id = some record ∧ mchBtfTypeName ctx.btf record = name ∧
        isUnion = (record.kind == .union) ∧
          PrintedMembers ctx fuel record.kflag (keptMembers ctx.keeps id record) (lex inner) := by
  obtain ⟨hreached, hfrom⟩ := h.reached_of_mem hitem rfl
  obtain ⟨record, fuel, hrecord, hnamed, _, hprinted⟩ := hfrom
  obtain ⟨pieces, hpieces, heq⟩ := bind_eq_ok.mp hprinted
  simp only [Except.ok.injEq, Item.recordDef.injEq, true_and] at heq
  obtain ⟨hkeyword, rfl, rfl⟩ := heq
  obtain ⟨hkind, hne⟩ : record.kind.isRecord = true ∧ mchBtfTypeName ctx.btf record ≠ [] := by
    simpa [isNamedRecord] using hnamed
  have hzero : id ≠ 0 := by
    rintro rfl
    cases hrecord
    cases hkind
  obtain ⟨inner', hlexes, hmembers⟩ := emitRecordBody_lexes hnames
    (mem_types_of_btfTypeById hzero hrecord) hpieces
  rw [hlexes.lex_eq] at hlex
  cases hlex
  refine ⟨record, fuel, hreached, hrecord, rfl, ?_, hmembers⟩
  cases hcase : record.kind <;> rw [hcase] at hkind hkeyword <;> cases isUnion <;>
    first | rfl | exact absurd hkeyword (by decide) | cases hkind

/-- A name of a record in the header is that of a record in reach. -/
theorem Layout.records_of_header (h : Layout ctx required fwds enums defs)
    (hnames : ctx.btf.NamesAreIdentifiers) {isUnion : Bool} {name : CString} {ts : List Token}
    (hname : (headerEnv (headerItems fwds enums defs)).records isUnion name ts) :
    ∃ id record fuel, Reached ctx required.ids (.record id) ∧
      btfTypeById ctx.btf id = some record ∧ mchBtfTypeName ctx.btf record = name ∧
        isUnion = (record.kind == .union) ∧
          PrintedMembers ctx fuel record.kflag (keptMembers ctx.keeps id record) ts := by
  obtain ⟨id, body, inner, hitem, hlex, rfl⟩ := hname
  exact ⟨id, h.printedMembers_of_mem hnames hitem hlex⟩

/-- A record in reach has a definition in the header. -/
theorem Layout.recordDef_of_reached (h : Layout ctx required fwds enums defs)
    (hnames : ctx.btf.NamesAreIdentifiers) {id : Nat} {record : BtfType}
    (hreached : Reached ctx required.ids (.record id))
    (hrecord : btfTypeById ctx.btf id = some record) :
    ∃ body inner, .recordDef id (keywordOf (record.kind == .union)) (mchBtfTypeName ctx.btf record)
        body ∈ headerItems fwds enums defs ∧ lex (declText body) = [.braces inner] := by
  obtain ⟨item, hitem, hnode, hfrom⟩ := h.exists_item hreached
  cases item with
  | text _ => cases hnode
  | forwardDecl _ _ _ => cases hnode
  | enumDef _ _ _ => cases hnode
  | typedefDef _ _ _ => cases hnode
  | recordDef id' keyword name body =>
      cases hnode
      obtain ⟨record', fuel, hrecord', hnamed, _, hprinted⟩ := hfrom
      cases hrecord.symm.trans hrecord'
      obtain ⟨pieces, hpieces, heq⟩ := bind_eq_ok.mp hprinted
      cases heq
      have hkind : record.kind.isRecord = true := (Bool.and_eq_true_iff.mp hnamed).1
      have hzero : id ≠ 0 := by
        rintro rfl
        cases hrecord
        cases hkind
      obtain ⟨inner, hlexes, _⟩ := emitRecordBody_lexes hnames
        (mem_types_of_btfTypeById hzero hrecord) hpieces
      have hkeyword : (if record.kind = .struct then "struct".toList else "union".toList) =
          keywordOf (record.kind == .union) := by
        cases hcase : record.kind <;> rw [hcase] at hkind <;> first | rfl | cases hkind
      rw [hkeyword] at hitem
      exact ⟨_, inner, hitem, hlexes.lex_eq⟩

/-- A record in reach has its name in the header, member by member. -/
theorem Layout.records_of_reached (h : Layout ctx required fwds enums defs)
    (hnames : ctx.btf.NamesAreIdentifiers) {id : Nat} {record : BtfType}
    (hreached : Reached ctx required.ids (.record id))
    (hrecord : btfTypeById ctx.btf id = some record) :
    ∃ ts fuel, (headerEnv (headerItems fwds enums defs)).records (record.kind == .union)
        (mchBtfTypeName ctx.btf record) ts ∧
      PrintedMembers ctx fuel record.kflag (keptMembers ctx.keeps id record) ts := by
  obtain ⟨body, inner, hitem, hlex⟩ := h.recordDef_of_reached hnames hreached hrecord
  obtain ⟨record', fuel, _, hrecord', _, _, hmembers⟩ :=
    h.printedMembers_of_mem hnames hitem hlex
  cases hrecord.symm.trans hrecord'
  exact ⟨_, fuel, ⟨id, body, inner, hitem, hlex, rfl⟩, hmembers⟩

/-- The enums of the header are those of the required set. -/
theorem Layout.enums_iff (h : Layout ctx required fwds enums defs) {name : CString} {size : Nat} :
    (headerEnv (headerItems fwds enums defs)).enums name size ↔
      ∃ id ∈ required.ids, ∃ type, btfTypeById ctx.btf id = some type ∧ isEnumKind type = true ∧
        mchBtfTypeName ctx.btf type = name ∧ enumSizeOf ctx.btf type = some size := by
  change (∃ id values, _ ∧ _) ↔ _
  constructor
  · rintro ⟨id, values, hitem, hsize⟩
    obtain ⟨hreq, type, htype, hkind, rfl, rfl⟩ := h.enumDef_mem_iff.mp hitem
    rw [enumSize_enumerators] at hsize
    exact ⟨id, hreq, type, htype, hkind, rfl, hsize⟩
  · rintro ⟨id, hreq, type, htype, hkind, rfl, hsize⟩
    rw [← enumSize_enumerators] at hsize
    exact ⟨id, _, h.enumDef_mem_iff.mpr ⟨hreq, type, htype, hkind, rfl, rfl⟩, hsize⟩

/-! ## One level of a type -/

theorem not_typeKeyword_keywordOf (isUnion : Bool) :
    (some (Token.word (keywordOf isUnion))).any isTypeKeyword = false := by
  cases isUnion <;> decide

theorem keywordOf_inj {isUnion isUnion' : Bool} (h : keywordOf isUnion = keywordOf isUnion') :
    isUnion = isUnion' := by
  cases isUnion <;> cases isUnion' <;> first | rfl | exact absurd h (by decide)

theorem exists_recordKeyword (type : BtfType) : ∃ isUnion, recordKeyword type = keywordOf isUnion := by
  unfold recordKeyword
  split
  · exact ⟨true, rfl⟩
  · exact ⟨false, rfl⟩

theorem keywordOf_ne_enum (isUnion : Bool) : keywordOf isUnion ≠ "enum".toList := by
  cases isUnion <;> decide

/-- A type that is read is a scalar in C where it is one in BTF. -/
theorem Layout.isScalar_iff (h : Layout ctx required fwds enums defs) {id : Nat} {type : BtfType}
    {t : CType} (hhead : HeadOf ctx id type t) (size bits : Nat) :
    (headerEnv (headerItems fwds enums defs)).IsScalar t size bits ↔
      HasScalar ctx required.ids type size bits := by
  have hkinds : type.kind.isRecord = true ∨ type.kind = .fwd ∨ type.kind = .typedef ∨
      type.kind = .array ∨ type.kind = .funcProto →
        isNamedEnum ctx.btf type = false ∧ scalarOf type = none := by
    unfold isNamedEnum isEnumKind scalarOf
    cases type.kind <;> simp [Kind.isRecord]
  have hplain : type.kind.isRecord = true ∨ type.kind = .fwd ∨ type.kind = .typedef ∨
      type.kind = .array ∨ type.kind = .funcProto → ¬HasScalar ctx required.ids type size bits := by
    intro hkind hscalar
    obtain ⟨henum, hnone⟩ := hkinds hkind
    rw [HasScalar, henum, if_neg Bool.false_ne_true, hnone] at hscalar
    cases hscalar
  have hnone : ∀ {w : CString} {ts : List Token}, (some (Token.word w)).any isTypeKeyword = false →
      (∀ name, Token.word w :: ts ≠ [.word "enum".toList, .word name]) → ∀ qs,
        ¬(headerEnv (headerItems fwds enums defs)).IsScalar (.base qs (.word w :: ts)) size bits := by
    intro w ts hw hne qs hscalar
    have hbuiltins : builtinScalar (.word w :: ts) = none := builtinScalar_eq_none hw
    rcases (Env.isScalar_base_iff _).mp hscalar with hbuiltin | ⟨name, heq, _⟩
    · rw [hbuiltins] at hbuiltin
      cases hbuiltin
    · exact hne name heq
  cases hhead with
  | ptr hkind =>
      have hscalar : HasScalar ctx required.ids type size bits ↔ (8, 0) = (size, bits) := by
        simp [HasScalar, isNamedEnum, isEnumKind, scalarOf, hkind]
      rw [hscalar]
      constructor
      · intro hpointer
        cases hpointer
        rfl
      · intro heq
        cases heq
        exact .pointer
  | array hkind => exact iff_of_false (fun hscalar => by cases hscalar) (hplain (by simp [hkind]))
  | func hkind => exact iff_of_false (fun hscalar => by cases hscalar) (hplain (by simp [hkind]))
  | @leaf qs spec hspec =>
      cases hspec with
      | builtin _ henum hhead hscalar =>
          rw [Env.isScalar_base_iff, hscalar, HasScalar, henum, if_neg Bool.false_ne_true]
          refine or_iff_left ?_
          rintro ⟨name, rfl, _⟩
          rw [List.head?_cons] at hhead
          exact absurd hhead (by decide)
      | enum henum =>
          have hbuiltin : builtinScalar [.word "enum".toList, .word (mchBtfTypeName ctx.btf type)] =
              none := builtinScalar_eq_none (by rw [List.head?_cons]; decide)
          rw [Env.isScalar_base_iff, hbuiltin, HasScalar, if_pos henum]
          simp only [h.enums_iff, reduceCtorEq, false_or]
          constructor
          · rintro ⟨name, heq, hsize, hbits⟩
            cases heq
            exact ⟨hbits, hsize⟩
          · rintro ⟨hbits, hsize⟩
            exact ⟨_, rfl, hsize, hbits⟩
      | typedef hnamed hid =>
          have hkind : type.kind = .typedef := by
            simpa using (Bool.and_eq_true_iff.mp hnamed).1
          have hword : (some (Token.word (mchBtfTypeName ctx.btf type))).any isTypeKeyword = false := by
            have hplain := isTypeKeyword_of_startsPlain (startsPlain_word hid [])
            simpa using hplain
          exact iff_of_false (hnone hword (fun _ heq => by simp at heq) qs) (hplain (by simp [hkind]))
      | tag hkind hne =>
          obtain ⟨isUnion, hkeyword⟩ := exists_recordKeyword type
          rw [hkeyword]
          refine iff_of_false (hnone (not_typeKeyword_keywordOf isUnion) (fun _ heq => ?_) qs)
            (hplain (by tauto))
          exact keywordOf_ne_enum isUnion (Token.word.inj (List.cons.inj heq).1)
      | inline hrecord _ =>
          have hkind : type.kind.isRecord = true := (Bool.and_eq_true_iff.mp hrecord).1
          exact iff_of_false (hnone (not_typeKeyword_keywordOf _) (fun _ heq => by simp at heq) qs)
            (hplain (Or.inl hkind))

theorem Reached.recordKeyword_eq {required : Set Nat} {id : Nat} {record : BtfType}
    (h : Reached ctx required (.record id)) (hrecord : btfTypeById ctx.btf id = some record) :
    recordKeyword record = keywordOf (record.kind == .union) := by
  obtain ⟨record', hrecord', hfits⟩ := isNode_eq_true.mp h.isNode
  cases hrecord.symm.trans hrecord'
  exact recordKeyword_of_isRecord (Bool.and_eq_true_iff.mp hfits).1

/-- A record of the header is one of BTF, and its body is printed. -/
theorem Layout.hasBodyOf_of_isRecord (h : Layout ctx required fwds enums defs)
    (hnames : ctx.btf.NamesAreIdentifiers) {id : Nat} {type : BtfType} {t : CType}
    (htype : btfTypeById ctx.btf id = some type) (hhead : HeadOf ctx id type t) {isUnion : Bool}
    {ts : List Token} (hrecord : (headerEnv (headerItems fwds enums defs)).IsRecord isUnion t ts) :
    ∃ body record fuel, HasBodyOf ctx required.ids id body record ∧
      isUnion = (record.kind == .union) ∧
        PrintedMembers ctx fuel record.kflag (keptMembers ctx.keeps body record) ts := by
  cases hhead with
  | ptr _ => cases hrecord
  | array _ _ => cases hrecord
  | func _ => cases hrecord
  | @leaf qs spec hspec =>
      cases hrecord with
      | @inline _ body =>
          generalize heq : [Token.word (keywordOf isUnion), .braces body] = spec at hspec
          cases hspec with
          | builtin _ _ hkeyword _ =>
              rw [← heq, List.head?_cons, not_typeKeyword_keywordOf] at hkeyword
              cases hkeyword
          | enum _ => simp at heq
          | typedef _ _ => simp at heq
          | tag _ _ => simp at heq
          | @inline fuel inner hanon hmembers =>
              simp only [List.cons.injEq, Token.word.injEq, Token.braces.injEq, and_true] at heq
              obtain ⟨hkeyword, rfl⟩ := heq
              exact ⟨id, type, fuel, .inline htype hanon, keywordOf_inj hkeyword, hmembers⟩
      | @tag _ name _ hname =>
          obtain ⟨body, record, fuel, hreached, hrecord, hsame, hisUnion, hmembers⟩ :=
            h.records_of_header hnames hname
          generalize heq : [Token.word (keywordOf isUnion), .word name] = spec at hspec
          cases hspec with
          | builtin _ _ hkeyword _ =>
              rw [← heq, List.head?_cons, not_typeKeyword_keywordOf] at hkeyword
              cases hkeyword
          | enum _ =>
              have hkeyword := Token.word.inj (List.cons.inj heq).1
              exact absurd hkeyword (keywordOf_ne_enum isUnion)
          | typedef _ _ => simp at heq
          | inline _ _ => simp at heq
          | tag hkind hne =>
              simp only [List.cons.injEq, Token.word.injEq, and_true] at heq
              obtain ⟨hkeyword, rfl⟩ := heq
              have hkeywords : recordKeyword record = recordKeyword type := by
                rw [← hkeyword, hisUnion, hreached.recordKeyword_eq hrecord]
              exact ⟨body, record, fuel, .tag htype hkind hne hreached hrecord hkeywords hsame,
                hisUnion, hmembers⟩

theorem isWrapper_eq_false {type : BtfType}
    (h : type.kind ≠ .const ∧ type.kind ≠ .volatile ∧ type.kind ≠ .restrict ∧
      type.kind ≠ .typeTag ∧ type.kind ≠ .declTag ∧
        (type.kind = .typedef → mchBtfTypeName ctx.btf type ≠ [])) :
    isWrapper ctx.btf type = false := by
  obtain ⟨hconst, hvolatile, hrestrict, htypeTag, hdeclTag, htypedef⟩ := h
  unfold isWrapper roleOf
  cases hkind : type.kind <;> simp_all

theorem HasBodyOf.isWrapper_eq_false {required : Set Nat} {id body : Nat} {type record : BtfType}
    (h : HasBodyOf ctx required id body record) (htype : btfTypeById ctx.btf id = some type) :
    isWrapper ctx.btf type = false := by
  have hkind : type.kind.isRecord = true ∨ type.kind = .fwd := by
    cases h with
    | inline htype' hanon =>
        cases htype.symm.trans htype'
        exact Or.inl (Bool.and_eq_true_iff.mp hanon).1
    | tag htype' hkind =>
        cases htype.symm.trans htype'
        exact hkind
  apply MinCorehdr.isWrapper_eq_false
  cases hcase : type.kind <;> rw [hcase] at hkind <;> simp [Kind.isRecord] at hkind ⊢

/-- A body of BTF is one in the header. -/
theorem Layout.isRecord_of_hasBodyOf (h : Layout ctx required fwds enums defs)
    (hnames : ctx.btf.NamesAreIdentifiers) {id body : Nat} {type record : BtfType} {t : CType}
    (htype : btfTypeById ctx.btf id = some type) (hhead : HeadOf ctx id type t)
    (hbody : HasBodyOf ctx required.ids id body record) :
    ∃ ts fuel, (headerEnv (headerItems fwds enums defs)).IsRecord (record.kind == .union) t ts ∧
      PrintedMembers ctx fuel record.kflag (keptMembers ctx.keeps body record) ts := by
  have hkinds : type.kind.isRecord = true ∨ type.kind = .fwd →
      type.kind ≠ .ptr ∧ type.kind ≠ .array ∧ type.kind ≠ .funcProto ∧
        type.kind.isBuiltin = false ∧ isNamedEnum ctx.btf type = false ∧
          isNamedTypedef ctx.btf type = false := by
    unfold isNamedEnum isEnumKind isNamedTypedef
    cases type.kind <;> simp [Kind.isRecord, Kind.isBuiltin]
  cases hbody with
  | inline htype' hanon =>
      cases htype.symm.trans htype'
      obtain ⟨hkind, hname⟩ : type.kind.isRecord = true ∧ mchBtfTypeName ctx.btf type = [] := by
        simpa [isUnnamedRecord] using hanon
      obtain ⟨hptr, harray, hfunc, hbuiltin, henum, htypedef⟩ := hkinds (Or.inl hkind)
      cases hhead with
      | ptr hcase => exact absurd hcase hptr
      | array hcase => exact absurd hcase harray
      | func hcase => exact absurd hcase hfunc
      | leaf hspec =>
          cases hspec with
          | builtin hcase => simp [hbuiltin] at hcase
          | enum hcase => simp [henum] at hcase
          | typedef hcase => simp [htypedef] at hcase
          | tag _ hne => exact absurd hname hne
          | inline _ hmembers => exact ⟨_, _, .inline, hmembers⟩
  | tag htype' hkind hne hreached hrecord hkeywords hsame =>
      cases htype.symm.trans htype'
      obtain ⟨hptr, harray, hfunc, hbuiltin, henum, htypedef⟩ := hkinds hkind
      cases hhead with
      | ptr hcase => exact absurd hcase hptr
      | array hcase => exact absurd hcase harray
      | func hcase => exact absurd hcase hfunc
      | leaf hspec =>
          cases hspec with
          | builtin hcase => simp [hbuiltin] at hcase
          | enum hcase => simp [henum] at hcase
          | typedef hcase => simp [htypedef] at hcase
          | inline hanon =>
              have hanon : mchBtfTypeName ctx.btf type = [] := by
                simpa using (Bool.and_eq_true_iff.mp hanon).2
              exact absurd hanon hne
          | tag _ _ =>
              obtain ⟨ts, fuel, hname, hmembers⟩ := h.records_of_reached hnames hreached hrecord
              rw [hsame] at hname
              rw [← hkeywords, hreached.recordKeyword_eq hrecord]
              exact ⟨ts, fuel, .tag hname, hmembers⟩

theorem Reads.of_namedTypedef {t : CType} {id : Nat} {type : BtfType} (h : Reads ctx t id)
    (hnames : ctx.btf.NamesAreIdentifiers) (htype : btfTypeById ctx.btf id = some type)
    (hnamed : isNamedTypedef ctx.btf type = true) :
    ∃ qs, t = .base qs [.word (mchBtfTypeName ctx.btf type)] := by
  obtain ⟨hkind, hne⟩ : type.kind = .typedef ∧ mchBtfTypeName ctx.btf type ≠ [] := by
    simpa [isNamedTypedef] using hnamed
  have hunwrapped : isWrapper ctx.btf type = false := isWrapper_eq_false (by simp [hkind, hne])
  cases h.headOf hnames htype hunwrapped with
  | ptr hcase => simp [hkind] at hcase
  | array hcase => simp [hkind] at hcase
  | func hcase => simp [hkind] at hcase
  | @leaf qs spec hspec =>
      cases hspec with
      | builtin hcase => simp [hkind, Kind.isBuiltin] at hcase
      | enum hcase => simp [isNamedEnum, isEnumKind, hkind] at hcase
      | tag hcase => simp [hkind, Kind.isRecord] at hcase
      | inline hcase => simp [isUnnamedRecord, hkind, Kind.isRecord] at hcase
      | typedef _ _ => exact ⟨qs, rfl⟩

/-! ## Names that stand for types -/

/-- What a typedef name unfolds to is what BTF names stand for. -/
theorem Layout.exists_renames (h : Layout ctx required fwds enums defs)
    (hnames : ctx.btf.NamesAreIdentifiers) {t last : CType}
    (hpath : ReflTransGen (Unfolds (headerEnv (headerItems fwds enums defs)).typedefs) t last) :
    ∀ {id : Nat}, Reads ctx t id → ∃ to_ type, ReflTransGen (Renames ctx required.ids) id to_ ∧
      btfTypeById ctx.btf to_ = some type ∧ HeadOf ctx to_ type last := by
  have hunwrap : ∀ {t : CType} {id : Nat}, Reads ctx t id → ∃ to_ type,
      ReflTransGen (Renames ctx required.ids) id to_ ∧ btfTypeById ctx.btf to_ = some type ∧
        HeadOf ctx to_ type t := by
    rintro t id ⟨m, hm, hmatches⟩
    obtain ⟨to_, hrenames, hreads, type, htype, hunwrapped⟩ := hm.exists_unwraps required.ids
    exact ⟨to_, type, hrenames, htype, (hreads t ⟨m, hm, hmatches⟩).headOf hnames htype hunwrapped⟩
  induction hpath using ReflTransGen.head_induction_on with
  | refl => exact hunwrap
  | head hstep _ ih =>
      intro id hread
      obtain ⟨qs, name, rfl, hname⟩ := hstep
      obtain ⟨other, named, hreached, hother, hsame, hid, hdeclarable, hreads⟩ :=
        h.typedefs_of_header hnames hname
      obtain ⟨from_, type, hfrom, htype, hhead⟩ := hunwrap hread
      obtain ⟨to_, last, hto, hlast⟩ := ih hreads
      refine ⟨to_, last, hfrom.trans (.head ?_ hto), hlast⟩
      cases hhead with
      | leaf hspec =>
          generalize heq : [Token.word name] = spec at hspec
          cases hspec with
          | builtin _ _ hkeyword _ =>
              rw [← heq, List.head?_cons] at hkeyword
              have hplain := isTypeKeyword_of_startsPlain (startsPlain_word hid []) _ rfl
              simp [hplain] at hkeyword
          | enum _ => simp at heq
          | tag _ _ => simp at heq
          | inline _ _ => simp at heq
          | typedef hnamed _ =>
              cases heq
              exact .typedef htype hnamed hreached hother hsame hdeclarable

/-- What BTF names stand for is what typedef names unfold to. -/
theorem Layout.exists_unfolds (h : Layout ctx required fwds enums defs)
    (hnames : ctx.btf.NamesAreIdentifiers) {id to_ : Nat}
    (hpath : ReflTransGen (Renames ctx required.ids) id to_) :
    ∀ {t : CType}, Reads ctx t id → ∃ last,
      ReflTransGen (Unfolds (headerEnv (headerItems fwds enums defs)).typedefs) t last ∧ Reads ctx last to_ := by
  induction hpath using ReflTransGen.head_induction_on with
  | refl => exact fun hread => ⟨_, .refl, hread⟩
  | head hstep _ ih =>
      intro t hread
      cases hstep with
      | wrapper htype hwrapper => exact ih ((reads_of_isWrapper htype hwrapper).mp hread)
      | typedef htype hnamed hreached hother hsame hdeclarable =>
          obtain ⟨t', hname, hread'⟩ := h.typedefs_of_reached hnames hreached hother hdeclarable
          obtain ⟨last, hunfolds, hlast⟩ := ih hread'
          obtain ⟨qs, rfl⟩ := hread.of_namedTypedef hnames htype hnamed
          rw [hsame] at hname
          exact ⟨last, .head ⟨qs, _, rfl, hname⟩ hunfolds, hlast⟩

/-! ## Shapes -/

theorem HasScalar.isWrapper_eq_false {required : Set Nat} {type : BtfType} {size bits : Nat}
    (h : HasScalar ctx required type size bits) : isWrapper ctx.btf type = false := by
  apply MinCorehdr.isWrapper_eq_false
  unfold HasScalar isNamedEnum isEnumKind scalarOf at h
  cases hkind : type.kind <;> simp [hkind] at h ⊢

theorem not_memberDeclaration_nil {name : CString} {type : CType} {width : Option Nat}
    {rest : List Token} : ¬MemberDeclaration [] name type width rest := by
  intro h
  cases h with
  | named hread => cases hread
  | record hread => cases hread
  | bitField hread => cases hread

mutual

/-- A type that is read has in the header the shapes it has in BTF. -/
theorem Layout.hasShape_iff (h : Layout ctx required fwds enums defs)
    (hnames : ctx.btf.NamesAreIdentifiers) : ∀ (s : Shape) {t : CType} {id : Nat},
      Reads ctx t id → ((headerEnv (headerItems fwds enums defs)).HasShape s t ↔
        LaysOut ctx required.ids s id)
  | .scalar size bits, t, id, hread => by
      constructor
      · rintro ⟨last, hunfolds, hscalar⟩
        obtain ⟨to_, type, hrenames, htype, hhead⟩ := h.exists_renames hnames hunfolds hread
        exact ⟨to_, type, hrenames, htype, (h.isScalar_iff hhead size bits).mp hscalar⟩
      · rintro ⟨to_, type, hrenames, htype, hscalar⟩
        obtain ⟨last, hunfolds, hlast⟩ := h.exists_unfolds hnames hrenames hread
        have hhead := hlast.headOf hnames htype hscalar.isWrapper_eq_false
        exact ⟨last, hunfolds, (h.isScalar_iff hhead size bits).mpr hscalar⟩
  | .array s count, t, id, hread => by
      constructor
      · rintro ⟨element, hunfolds, hshape⟩
        obtain ⟨to_, type, hrenames, htype, hhead⟩ := h.exists_renames hnames hunfolds hread
        cases hhead with
        | array hkind helement =>
            exact ⟨to_, type, hrenames, htype, hkind, rfl,
              (Layout.hasShape_iff h hnames s helement).mp hshape⟩
      · rintro ⟨to_, type, hrenames, htype, hkind, rfl, hshape⟩
        obtain ⟨last, hunfolds, hlast⟩ := h.exists_unfolds hnames hrenames hread
        have hzero : to_ ≠ 0 := by
          rintro rfl
          cases htype
          cases hkind
        have hrole := hlast.byRole hzero htype
        simp only [roleOf, hkind] at hrole
        obtain ⟨element, rfl, helement⟩ := hrole
        exact ⟨element, hunfolds, (Layout.hasShape_iff h hnames s helement).mpr hshape⟩
  | .record isUnion ms, t, id, hread => by
      constructor
      · rintro ⟨last, ts, hunfolds, hrecord, hshapes⟩
        obtain ⟨to_, type, hrenames, htype, hhead⟩ := h.exists_renames hnames hunfolds hread
        obtain ⟨body, record, fuel, hbody, hisUnion, hmembers⟩ :=
          h.hasBodyOf_of_isRecord hnames htype hhead hrecord
        exact ⟨to_, body, record, hrenames, hbody, hisUnion,
          (Layout.hasShapes_iff h hnames ms hmembers).mp hshapes⟩
      · rintro ⟨to_, body, record, hrenames, hbody, rfl, hshapes⟩
        obtain ⟨last, hunfolds, hlast⟩ := h.exists_unfolds hnames hrenames hread
        obtain ⟨type, htype⟩ : ∃ type, btfTypeById ctx.btf to_ = some type := by
          cases hbody with
          | inline htype => exact ⟨_, htype⟩
          | tag htype => exact ⟨_, htype⟩
        have hhead := hlast.headOf hnames htype (hbody.isWrapper_eq_false htype)
        obtain ⟨ts, fuel, hrecord, hmembers⟩ := h.isRecord_of_hasBodyOf hnames htype hhead hbody
        exact ⟨last, ts, hunfolds, hrecord, (Layout.hasShapes_iff h hnames ms hmembers).mpr hshapes⟩

/-- The members of a printed body have the shapes their types have in BTF. -/
theorem Layout.hasShapes_iff (h : Layout ctx required fwds enums defs)
    (hnames : ctx.btf.NamesAreIdentifiers) : ∀ (ms : Shapes) {fuel : Nat} {kflag : Bool}
      {members : List (BtfMember × Nat)} {ts : List Token},
      PrintedMembers ctx fuel kflag members ts →
        ((headerEnv (headerItems fwds enums defs)).HasShapes ms ts ↔
          LaysOutMembers ctx required.ids ms kflag members)
  | .nil, fuel, kflag, members, ts, hprinted => by
      cases hprinted with
      | nil => exact iff_of_true rfl trivial
      | @cons member _ t _ _ _ _ =>
          refine iff_of_false (fun hnil => ?_) id
          have hend := (List.append_eq_nil_iff.mp (List.append_eq_nil_iff.mp hnil).1).2
          cases hwidth : memberWidth kflag member.1 <;> rw [hwidth] at hend <;> cases hend
  | .cons named width s ms, fuel, kflag, members, ts, hprinted => by
      cases hprinted with
      | nil =>
          refine iff_of_false ?_ id
          rintro ⟨_, _, _, hmember, _⟩
          exact not_memberDeclaration_nil hmember
      | @cons member members t rest hname htree hrest =>
          have hwell := treeOf_wellNamed hnames fuel _ t htree
          have hmember : ∀ name type width' rest',
              MemberDeclaration (t.tokens (nameTokens (memberName ctx member.1)) ++
                endTokens (memberWidth kflag member.1) ++ rest) name type width' rest' ↔
              t.IsMember (memberName ctx member.1) (memberWidth kflag member.1) ∧
                name = memberName ctx member.1 ∧ type = t.printed t.front ∧
                  width' = memberWidth kflag member.1 ∧ rest' = rest :=
            fun _ _ _ _ => hwell.member_iff hname memberWidth_pos
          have hdeclarable := isMember_iff_declarable htree (memberWidth kflag member.1)
          constructor
          · rintro ⟨name, type, rest', hdecl, hnamed, hholds, hshape, hshapes⟩
            obtain ⟨hisMember, rfl, rfl, rfl, rfl⟩ := (hmember _ _ _ _).mp hdecl
            exact ⟨hnamed, rfl, hholds, hdeclarable.mp hisMember,
              (Layout.hasShape_iff h hnames s (hisMember.reads htree)).mp hshape,
              (Layout.hasShapes_iff h hnames ms hrest).mp hshapes⟩
          · rintro ⟨hnamed, rfl, hholds, hdecl, hshape, hshapes⟩
            have hisMember := hdeclarable.mpr hdecl
            exact ⟨_, _, _, (hmember _ _ _ _).mpr ⟨hisMember, rfl, rfl, rfl, rfl⟩, hnamed, hholds,
              (Layout.hasShape_iff h hnames s (hisMember.reads htree)).mpr hshape,
              (Layout.hasShapes_iff h hnames ms hrest).mpr hshapes⟩

end

/-! ## The layout that is kept -/

/-- A record of the required set keeps its layout exactly where its members have their sizes
and offsets by the rules of C. -/
theorem Layout.keepsLayout_iff (h : Layout ctx required fwds enums defs)
    (hnames : ctx.btf.NamesAreIdentifiers) {id : Nat} {type : BtfType} (hid : id ∈ required.ids)
    (htype : btfTypeById ctx.btf id = some type) (hnamed : isNamedRecord ctx.btf type = true) :
    KeepsLayout ctx (headerItems fwds enums defs) id type ↔
      NaturallyLaidOut ctx required.ids id type := by
  have hreached : Reached ctx required.ids (.record id) :=
    ⟨.record id, hid, isNode_eq_true.mpr ⟨type, htype, hnamed⟩, .refl⟩
  have hreadings : ∀ body inner, .recordDef id (keywordOf (type.kind == .union))
        (mchBtfTypeName ctx.btf type) body ∈ headerItems fwds enums defs →
      lex (declText body) = [.braces inner] →
        ∀ ms, (headerEnv (headerItems fwds enums defs)).HasShapes ms (lex inner) ↔
          LaysOutMembers ctx required.ids ms type.kflag (keptMembers ctx.keeps id type) := by
    intro body inner hitem hlex ms
    obtain ⟨record, fuel, _, hrecord, _, _, hmembers⟩ := h.printedMembers_of_mem hnames hitem hlex
    cases htype.symm.trans hrecord
    exact h.hasShapes_iff hnames ms hmembers
  constructor
  · rintro ⟨body, inner, hitem, hlex, ⟨ms, hshapes⟩, hall⟩
    have hread := hreadings body inner hitem hlex
    exact ⟨⟨ms, (hread ms).mp hshapes⟩, fun ms hms => hall ms ((hread ms).mpr hms)⟩
  · rintro ⟨⟨ms, hshapes⟩, hall⟩
    obtain ⟨body, inner, hitem, hlex⟩ := h.recordDef_of_reached hnames hreached htype
    have hread := hreadings body inner hitem hlex
    exact ⟨body, inner, hitem, hlex, ⟨ms, (hread ms).mpr hshapes⟩,
      fun ms hms => hall ms ((hread ms).mp hms)⟩

end

/-- An integer has the shape of its spelling. -/
theorem laysOut_int {ctx : EmitCtx} {required : Set Nat} {id : Nat} {type : BtfType} {s : Shape}
    (htype : btfTypeById ctx.btf id = some type) (hkind : type.kind = .int)
    (h : LaysOut ctx required s id) : s = .scalar (intScalar type).1 (intScalar type).2 := by
  have hlast : ∀ {last : Nat}, ReflTransGen (Renames ctx required) id last → last = id := by
    intro last hpath
    rcases hpath.cases_head with heq | ⟨mid, hstep, _⟩
    · exact heq.symm
    · exfalso
      cases hstep with
      | wrapper htype' hwrapper =>
          cases htype.symm.trans htype'
          simp [isWrapper, roleOf, hkind] at hwrapper
      | typedef htype' hnamed =>
          cases htype.symm.trans htype'
          simp [isNamedTypedef, hkind] at hnamed
  cases s with
  | scalar size bits =>
      obtain ⟨last, type', hpath, htype', hscalar⟩ := h
      obtain rfl := hlast hpath
      cases htype.symm.trans htype'
      have hsome : (intScalar type) = (size, bits) := by
        simpa [HasScalar, isNamedEnum, isEnumKind, scalarOf, hkind] using hscalar
      rw [hsome]
  | array s count =>
      obtain ⟨last, type', hpath, htype', harray, _⟩ := h
      obtain rfl := hlast hpath
      cases htype.symm.trans htype'
      rw [hkind] at harray
      cases harray
  | record isUnion ms =>
      obtain ⟨last, body, record, hpath, hbody, _⟩ := h
      obtain rfl := hlast hpath
      cases hbody with
      | inline htype' hanon =>
          cases htype.symm.trans htype'
          simp [isUnnamedRecord, hkind, Kind.isRecord] at hanon
      | tag htype' hrecord =>
          cases htype.symm.trans htype'
          simp [hkind, Kind.isRecord] at hrecord

/-- The printed definition of a required record has the size and the offsets that BTF records
exactly where these are the natural ones of what its members are spelled as. -/
theorem keepsLayout_iff_naturallyLaidOut {fuel : Nat} {btf : Btf} {required : TypeSet}
    {requirements : Option Requirements} {items : List Item} {id : Nat} {type : BtfType}
    (h : mchEmitHeaderWithOptions fuel btf required requirements = .ok items)
    (hnames : btf.NamesAreIdentifiers) (hid : id ∈ required.ids)
    (htype : btfTypeById btf id = some type) (hnamed : isNamedRecord btf type = true) :
    KeepsLayout (emitCtx btf requirements) items id type ↔
      NaturallyLaidOut (emitCtx btf requirements) required.ids id type := by
  obtain ⟨fwds, enums, defs, rfl, hlayout⟩ := emitHeader_layout h
  exact hlayout.keepsLayout_iff hnames hid htype hnamed

/-- `struct R { char a; int b; };` -/
def naturalRecord : Btf where
  types := [
    { nameOff := 1, kind := .struct, size := 8,
      members := [{ nameOff := 3, type := 2 }, { nameOff := 5, type := 3, offset := 32 }] },
    { nameOff := 7, kind := .int, size := 1, intInfo := 0x01000008 },
    { nameOff := 12, kind := .int, size := 4, intInfo := 0x01000020 }]
  strs := "\x00R\x00a\x00b\x00char\x00int\x00".toList

theorem keepsLayout_iff_naturalRecord :
    ∃ items type, mchEmitHeaderWithOptions 10 naturalRecord (seedsOf naturalRecord [1]) none =
        .ok items ∧ btfTypeById naturalRecord 1 = some type ∧
      (KeepsLayout (emitCtx naturalRecord none) items 1 type ↔
        NaturallyLaidOut (emitCtx naturalRecord none) (seedsOf naturalRecord [1]).ids 1 type) := by
  have hruns : ∃ items,
      mchEmitHeaderWithOptions 10 naturalRecord (seedsOf naturalRecord [1]) none = .ok items :=
    exists_ok_of_isSome (by decide +kernel)
  obtain ⟨items, hitems⟩ := hruns
  have hid : (1 : Nat) ∈ (seedsOf naturalRecord [1]).ids := by
    rw [TypeSet.mem_ids]
    decide
  exact ⟨items, _, hitems, rfl,
    keepsLayout_iff_naturallyLaidOut hitems (by decide) hid rfl (by decide)⟩

/-- `struct R { __int128 v; };` -/
def wideRecord : Btf where
  types := [
    { nameOff := 1, kind := .struct, size := 16, members := [{ nameOff := 3, type := 2 }] },
    { nameOff := 5, kind := .int, size := 16, intInfo := 0x01000080 }]
  strs := "\x00R\x00v\x00__int128\x00".toList

/-- The member is spelled `int`, so the definition that is printed has 4 bytes. -/
theorem wideRecord_not_keepsLayout :
    ∃ items type, mchEmitHeaderWithOptions 10 wideRecord (seedsOf wideRecord [1, 2]) none =
        .ok items ∧ btfTypeById wideRecord 1 = some type ∧ type.size = 16 ∧
      ¬KeepsLayout (emitCtx wideRecord none) items 1 type := by
  have hruns : ∃ items,
      mchEmitHeaderWithOptions 10 wideRecord (seedsOf wideRecord [1, 2]) none = .ok items :=
    exists_ok_of_isSome (by decide +kernel)
  obtain ⟨items, hitems⟩ := hruns
  refine ⟨items, _, hitems, rfl, rfl, fun hkeeps => ?_⟩
  obtain ⟨fwds, enums, defs, rfl, hlayout⟩ := emitHeader_layout hitems
  have hid : (1 : Nat) ∈ (seedsOf wideRecord [1, 2]).ids := by
    rw [TypeSet.mem_ids]
    decide
  obtain ⟨⟨ms, hshapes⟩, hall⟩ :=
    (hlayout.keepsLayout_iff (by decide) hid rfl (by decide)).mp hkeeps
  have hlaidOut := hall ms hshapes
  cases ms with
  | nil => exact hshapes
  | cons named width s ms =>
      obtain ⟨rfl, rfl, _, _, hshape, hrest⟩ := hshapes
      obtain rfl := @laysOut_int (emitCtx wideRecord none) _ 2 _ s rfl rfl hshape
      cases ms with
      | cons _ _ _ _ => exact hrest
      | nil => exact absurd hlaidOut.size_eq (by decide)

end MinCorehdr
