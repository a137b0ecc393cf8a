import MinCorehdr.Emitter.Enums
import MinCorehdr.Emitter.RecordText
import MinCorehdr.Emitter.Unique

/-!
# The natural layout of BTF types

What the rules of C make of a record's members by their BTF types: wrappers count for
nothing, an integer has the size of its spelling, and a name stands for the type in
reach that has it.
-/

namespace MinCorehdr

open Relation Support.CDeclaration Support.CLayout Support.CRecord Support.CToken Support.Result

/-! ## Sizes -/

/-- The size and the width of the spelling; every unusual width is spelled `int`. -/
def intScalar (type : BtfType) : Nat × Nat :=
  if ((type.intInfo &&& 0x0f000000) >>> 24) &&& 4 ≠ 0 then (1, 1)
  else
    match type.intInfo &&& 0x000000ff with
    | 8 => (1, 8)
    | 16 => (2, 16)
    | 64 => (8, 64)
    | _ => (4, 32)

def floatScalar (type : BtfType) : Nat × Nat := if type.size = 4 then (4, 0) else (8, 0)

/-- The size and the widest bit-field of a type that needs no name. -/
def scalarOf (type : BtfType) : Option (Nat × Nat) :=
  match type.kind with
  | .ptr => some (8, 0)
  | .int => some (intScalar type)
  | .float => some (floatScalar type)
  | .enum => some (4, 32)
  | .enum64 => some (8, 64)
  | _ => none

def enumSizeOf (btf : Btf) (type : BtfType) : Option Nat :=
  enumSize ((enumValues btf type).map fun value => some value.2)

/-- The low 24 bits of a member's offset where the others are its width. -/
def memberBitOffset (kflag : Bool) (member : BtfMember) : Nat :=
  if kflag then member.offset &&& 0xffffff else member.offset

/-! ## Shapes -/

/-- C can declare the type: its functions return pointers to leaves. -/
def Declarable (ctx : EmitCtx) (id : Nat) : Prop :=
  ∃ t, Means ctx id t ∧ t.FixedParams ∧ t.ReturnsPointers

/-- C can declare the member: with a name its type is declared, and without one the
type is a body or the base of a bit-field. -/
def MemberDeclarable (ctx : EmitCtx) (member : BtfMember) (width : Option Nat) : Prop :=
  ∃ t, Means ctx member.type t ∧
    if memberName ctx member = [] then
      ∃ qs spec, t = .base qs spec ∧ (width = none → IsInline spec)
    else t.FixedParams ∧ t.ReturnsPointers

/-- A qualifier, a tag or a typedef without a name. -/
def isWrapper (btf : Btf) (type : BtfType) : Bool :=
  match roleOf btf type with
  | .qualifier _ | .transparent => true
  | _ => false

section

variable (ctx : EmitCtx) (required : Set Nat)

/-- `id` is `to_` but for qualifiers and tags, or a typedef name that stands for `to_`. -/
inductive Renames : Nat → Nat → Prop
  | wrapper {id : Nat} {type : BtfType} :
      btfTypeById ctx.btf id = some type → isWrapper ctx.btf type = true → Renames id type.type
  | typedef {id other : Nat} {type named : BtfType} :
      btfTypeById ctx.btf id = some type → isNamedTypedef ctx.btf type = true →
        Reached ctx required (.typedef other) → btfTypeById ctx.btf other = some named →
          mchBtfTypeName ctx.btf named = mchBtfTypeName ctx.btf type →
            Declarable ctx named.type → Renames id named.type

/-- The type has this size; a named enum has that of the constants in the header. -/
def HasScalar (type : BtfType) (size bits : Nat) : Prop :=
  if isNamedEnum ctx.btf type then
    bits = 8 * size ∧ ∃ id ∈ required, ∃ named, btfTypeById ctx.btf id = some named ∧
      isEnumKind named = true ∧ mchBtfTypeName ctx.btf named = mchBtfTypeName ctx.btf type ∧
        enumSizeOf ctx.btf named = some size
  else scalarOf type = some (size, bits)

/-- `HasBodyOf id body record`: `id` is a struct or union with the body of `record`. -/
inductive HasBodyOf : Nat → Nat → BtfType → Prop
  | inline {id : Nat} {type : BtfType} :
      btfTypeById ctx.btf id = some type → isUnnamedRecord ctx.btf type = true →
        HasBodyOf id id type
  | tag {id body : Nat} {type record : BtfType} :
      btfTypeById ctx.btf id = some type → type.kind.isRecord = true ∨ type.kind = .fwd →
        mchBtfTypeName ctx.btf type ≠ [] → Reached ctx required (.record body) →
          btfTypeById ctx.btf body = some record → recordKeyword record = recordKeyword type →
            mchBtfTypeName ctx.btf record = mchBtfTypeName ctx.btf type →
              HasBodyOf id body record

mutual

/-- The BTF type has this shape. -/
def LaysOut : Shape → Nat → Prop
  | .scalar size bits, id =>
      ∃ last type, ReflTransGen (Renames ctx required) id last ∧
        btfTypeById ctx.btf last = some type ∧ HasScalar ctx required type size bits
  | .array s count, id =>
      ∃ last type, ReflTransGen (Renames ctx required) id last ∧
        btfTypeById ctx.btf last = some type ∧ type.kind = .array ∧ type.array.nelems = count ∧
          LaysOut s type.array.type
  | .record isUnion ms, id =>
      ∃ last body record, ReflTransGen (Renames ctx required) id last ∧
        HasBodyOf ctx required last body record ∧ isUnion = (record.kind == .union) ∧
          LaysOutMembers ms record.kflag (keptMembers ctx.keeps body record)

/-- The members have these shapes. -/
def LaysOutMembers : Shapes → Bool → List (BtfMember × Nat) → Prop
  | .nil, _, [] => True
  | .cons named width s ms, kflag, member :: members =>
      named = decide (memberName ctx member.1 ≠ []) ∧ width = memberWidth kflag member.1 ∧
        s.Holds width ∧ MemberDeclarable ctx member.1 width ∧ LaysOut s member.1.type ∧
          LaysOutMembers ms kflag members
  | _, _, _ => False

end

/-- The members have a layout, and whatever the names in them stand for, the size and the
offsets of the record are those that the rules of C give it. -/
def NaturallyLaidOut (id : Nat) (type : BtfType) : Prop :=
  (∃ ms, LaysOutMembers ctx required ms type.kflag (keptMembers ctx.keeps id type)) ∧
    ∀ ms, LaysOutMembers ctx required ms type.kflag (keptMembers ctx.keeps id type) →
      LaidOut (type.kind == .union) ms type.size (type.members.map (memberBitOffset type.kflag))

end

/-! ## What a type is read as -/

theorem matches_qualify {level : List Qualifier → List Qualifier → Prop}
    (hlevel : ∀ qs qs', level qs qs') (qs : List Qualifier) :
    ∀ t m : CType, t.Matches level (m.qualify qs) ↔ t.Matches level m
  | .base _ _, .base _ _ | .ptr _ _, .ptr _ _ => by
      simp [CType.qualify, CType.Matches, hlevel]
  | .array t _, .array m _ => and_congr_left fun _ => matches_qualify hlevel qs t m
  | .func _ _ _, .func _ _ _ => Iff.rfl
  | .base _ _, .ptr _ _ | .base _ _, .array _ _ | .base _ _, .func _ _ _ => Iff.rfl
  | .ptr _ _, .base _ _ | .ptr _ _, .array _ _ | .ptr _ _, .func _ _ _ => Iff.rfl
  | .array _ _, .base _ _ | .array _ _, .ptr _ _ | .array _ _, .func _ _ _ => Iff.rfl
  | .func _ _ _, .base _ _ | .func _ _ _, .ptr _ _ | .func _ _ _, .array _ _ => Iff.rfl

/-- `t` is the C type of `id` up to qualifiers. -/
def Reads (ctx : EmitCtx) (t : CType) (id : Nat) : Prop :=
  ∃ m, Means ctx id m ∧ t.Matches (fun _ _ => True) m

section

variable {ctx : EmitCtx} {required : Set Nat} {id : Nat} {type : BtfType} {t : CType}

theorem isWrapper_iff : isWrapper ctx.btf type = true ↔
    roleOf ctx.btf type = .transparent ∨ ∃ q, roleOf ctx.btf type = .qualifier q := by
  unfold isWrapper
  cases roleOf ctx.btf type <;> simp

theorem ne_zero_of_isWrapper (htype : btfTypeById ctx.btf id = some type)
    (hwrapper : isWrapper ctx.btf type = true) : id ≠ 0 := by
  rintro rfl
  cases htype
  cases hwrapper

/-- A wrapper is read as what it wraps. -/
theorem reads_of_isWrapper (htype : btfTypeById ctx.btf id = some type)
    (hwrapper : isWrapper ctx.btf type = true) : Reads ctx t id ↔ Reads ctx t type.type := by
  have hmeans := fun m => @means_iff ctx id type m (ne_zero_of_isWrapper htype hwrapper) htype
  unfold Reads
  simp only [hmeans]
  rcases isWrapper_iff.mp hwrapper with hrole | ⟨q, hrole⟩
  · simp only [hrole, MeansByRole]
  · simp only [hrole, MeansByRole]
    constructor
    · rintro ⟨_, ⟨m, hm, rfl⟩, hmatches⟩
      exact ⟨m, hm, (matches_qualify (fun _ _ => trivial) [q] t m).mp hmatches⟩
    · rintro ⟨m, hm, hmatches⟩
      exact ⟨_, ⟨m, hm, rfl⟩, (matches_qualify (fun _ _ => trivial) [q] t m).mpr hmatches⟩

/-- What a type that is no wrapper is read as, by its role. -/
def ReadsByRole (ctx : EmitCtx) (id : Nat) (type : BtfType) (t : CType) : Role → Prop
  | .leaf => ∃ qs fuel text, leafText ctx (emitDeclEx ctx fuel) id type = some text ∧
      t = .base qs (lex text)
  | .ptr => ∃ qs target, t = .ptr qs target
  | .array => ∃ element, t = .array element type.array.nelems ∧ Reads ctx element type.array.type
  | .func => ∃ result params variadic, t = .func result params variadic
  | .transparent | .qualifier _ => True

theorem Reads.byRole (h : Reads ctx t id) (hzero : id ≠ 0)
    (htype : btfTypeById ctx.btf id = some type) : ReadsByRole ctx id type t (roleOf ctx.btf type) := by
  obtain ⟨m, hm, hmatches⟩ := h
  have hmeans := (means_iff hzero htype).mp hm
  cases hrole : roleOf ctx.btf type with
  | transparent | qualifier q => trivial
  | leaf =>
      rw [hrole] at hmeans
      obtain ⟨fuel, text, htext, rfl⟩ := hmeans
      cases t <;> simp only [CType.Matches] at hmatches
      next qs spec => exact ⟨qs, fuel, text, htext, by rw [hmatches.2]⟩
  | ptr =>
      rw [hrole] at hmeans
      obtain ⟨_, _, rfl⟩ := hmeans
      cases t <;> simp only [CType.Matches] at hmatches
      next qs target => exact ⟨qs, target, rfl⟩
  | array =>
      rw [hrole] at hmeans
      obtain ⟨m', hm', rfl⟩ := hmeans
      cases t <;> simp only [CType.Matches] at hmatches
      next element count =>
        obtain ⟨helement, rfl⟩ := hmatches
        exact ⟨element, rfl, m', hm', helement⟩
  | func =>
      rw [hrole] at hmeans
      obtain ⟨_, _, _, _, _, rfl⟩ := hmeans
      cases t <;> simp only [CType.Matches] at hmatches
      next result params variadic => exact ⟨result, params, variadic, rfl⟩

theorem reads_zero (h : Reads ctx t 0) : ∃ qs, t = .base qs [.word "void".toList] := by
  obtain ⟨m, hm, hmatches⟩ := h
  rw [means_zero.mp hm] at hmatches
  cases t <;> simp only [CType.Matches] at hmatches
  next qs spec => exact ⟨qs, by rw [hmatches.2]⟩

/-- `last` is what stands behind the wrappers of `id`, and is read as `id` is. -/
def UnwrapsTo (ctx : EmitCtx) (required : Set Nat) (id last : Nat) : Prop :=
  ReflTransGen (Renames ctx required) id last ∧ (∀ t, Reads ctx t id → Reads ctx t last) ∧
    ∃ type, btfTypeById ctx.btf last = some type ∧ isWrapper ctx.btf type = false

theorem UnwrapsTo.head {last : Nat} (htype : btfTypeById ctx.btf id = some type)
    (hwrapper : isWrapper ctx.btf type = true) (h : UnwrapsTo ctx required type.type last) :
    UnwrapsTo ctx required id last := by
  obtain ⟨hpath, hreads, hlast⟩ := h
  refine ⟨.head (.wrapper htype hwrapper) hpath, fun t ht => ?_, hlast⟩
  exact hreads t ((reads_of_isWrapper htype hwrapper).mp ht)

/-- A type that has a meaning has one behind its wrappers. -/
theorem Means.exists_unwraps (required : Set Nat) (h : Means ctx id t) :
    ∃ last, UnwrapsTo ctx required id last := by
  have hplain : ∀ {id : Nat} {type : BtfType} {role : Role}, btfTypeById ctx.btf id = some type →
      roleOf ctx.btf type = role → (∀ q, role ≠ .qualifier q) → role ≠ .transparent →
        ∃ last, UnwrapsTo ctx required id last := by
    intro id type role htype hrole hqualifier htransparent
    refine ⟨id, .refl, fun _ ht => ht, type, htype, ?_⟩
    rw [Bool.eq_false_iff, ne_eq, isWrapper_iff, hrole]
    rintro (h | ⟨q, h⟩)
    · exact htransparent h
    · exact hqualifier q h
  have hstep : ∀ {id : Nat} {type : BtfType}, btfTypeById ctx.btf id = some type →
      isWrapper ctx.btf type = true → (∃ last, UnwrapsTo ctx required type.type last) →
        ∃ last, UnwrapsTo ctx required id last :=
    fun htype hwrapper ⟨last, hlast⟩ => ⟨last, hlast.head htype hwrapper⟩
  refine @Means.rec ctx (fun id _ _ => ∃ last, UnwrapsTo ctx required id last) (fun _ _ _ _ _ => True)
    ?_ ?_ ?_ ?_ ?_ ?_ ?_ ?_ ?_ ?_ ?_ id t h
  · exact ⟨0, .refl, fun _ ht => ht, voidType, rfl, rfl⟩
  · exact fun _ htype hrole _ => hplain htype hrole nofun nofun
  · exact fun htype hrole _ _ => hplain htype hrole nofun nofun
  · exact fun htype hrole _ _ => hplain htype hrole nofun nofun
  · exact fun htype hrole _ ih => hstep htype (isWrapper_iff.mpr (Or.inr ⟨_, hrole⟩)) ih
  · exact fun htype hrole _ ih => hstep htype (isWrapper_iff.mpr (Or.inl hrole)) ih
  · exact fun htype hrole _ _ _ _ => hplain htype hrole nofun nofun
  · trivial
  · exact fun _ => trivial
  · exact fun _ _ => trivial
  · exact fun _ _ _ _ _ => trivial

end

/-! ## Trees and what they are read as -/

section

variable {ctx : EmitCtx} {fuel id : Nat} {t : Tree}

theorem matches_printed (t : Tree) (h : t.meaning.FixedParams) :
    (t.printed t.front).Matches (fun _ _ => True) t.meaning := by
  have hmatches := t.matches_iff (fun _ _ => True) h [] []
  rw [List.nil_append, CType.qualify_nil] at hmatches
  exact hmatches.mpr (t.placed_any [] [])

/-- The tree of a type is read where C can declare the type. -/
theorem readable_iff_declarable (htree : treeOf ctx fuel id = some t) :
    t.Readable ↔ Declarable ctx id := by
  have htells := treeOf_tellsMeaning ctx fuel id t htree
  rw [t.readable_iff]
  constructor
  · rintro ⟨hmeaning, hfixed, hreturns⟩
    exact ⟨_, (htells _).mpr ⟨hmeaning, rfl⟩, hfixed, hreturns⟩
  · rintro ⟨m, hm, hfixed, hreturns⟩
    obtain ⟨hmeaning, rfl⟩ := (htells m).mp hm
    exact ⟨hmeaning, hfixed, hreturns⟩

theorem Tree.Readable.reads (h : t.Readable) (htree : treeOf ctx fuel id = some t) :
    Reads ctx (t.printed t.front) id := by
  obtain ⟨hmeaning, hfixed, _⟩ := t.readable_iff.mp h
  exact ⟨_, (treeOf_tellsMeaning ctx fuel id t htree _).mpr ⟨hmeaning, rfl⟩, matches_printed t hfixed⟩

theorem Tree.Bare.meaning_eq : ∀ {t : Tree}, t.Bare →
    t.HasMeaning ∧ ∃ qs, t.meaning = .base qs t.spec
  | .leaf run _, _ => ⟨trivial, run, rfl⟩
  | .tag run t, h => by
      obtain ⟨hmeaning, qs, heq⟩ := @meaning_eq t h
      refine ⟨hmeaning, run ++ qs, ?_⟩
      change t.meaning.qualify run = _
      rw [heq]
      rfl

theorem Tree.bare_of_meaning : ∀ {t : Tree} {qs : List Qualifier} {spec : List Token},
    t.meaning = .base qs spec → t.Bare
  | .leaf _ _, _, _, _ => trivial
  | .tag run t, qs, spec, h => by
      change t.meaning.qualify run = _ at h
      cases hm : t.meaning with
      | base _ _ => exact @bare_of_meaning t _ _ hm
      | ptr _ _ | array _ _ | func _ _ _ =>
          rw [hm] at h
          cases h
  | .ptr _ _, _, _, h => nomatch h
  | .array _ _ _, _, _, h => nomatch h
  | .func _ _ _, _, _, h => nomatch h

/-- A printed member is read where C can declare the member. -/
theorem isMember_iff_declarable {member : BtfMember} (htree : treeOf ctx fuel member.type = some t)
    (width : Option Nat) :
    t.IsMember (memberName ctx member) width ↔ MemberDeclarable ctx member width := by
  have htells := treeOf_tellsMeaning ctx fuel member.type t htree
  unfold Tree.IsMember MemberDeclarable
  by_cases hname : memberName ctx member = []
  · simp only [if_pos hname]
    constructor
    · rintro ⟨hbare, hinline⟩
      obtain ⟨hmeaning, qs, heq⟩ := hbare.meaning_eq
      exact ⟨_, (htells _).mpr ⟨hmeaning, rfl⟩, qs, t.spec, heq, hinline⟩
    · rintro ⟨m, hm, qs, spec, heq, hinline⟩
      obtain ⟨_, rfl⟩ := (htells m).mp hm
      have hbare := Tree.bare_of_meaning heq
      obtain ⟨_, _, hspec⟩ := hbare.meaning_eq
      rw [heq] at hspec
      cases hspec
      exact ⟨hbare, hinline⟩
  · simp only [if_neg hname]
    exact readable_iff_declarable htree

theorem Tree.IsMember.reads {name : CString} {width : Option Nat} (h : t.IsMember name width)
    (htree : treeOf ctx fuel id = some t) : Reads ctx (t.printed t.front) id := by
  unfold Tree.IsMember at h
  split at h
  next =>
    obtain ⟨hmeaning, qs, heq⟩ := h.1.meaning_eq
    have hfixed : t.meaning.FixedParams := by
      rw [heq]
      trivial
    exact ⟨_, (treeOf_tellsMeaning ctx fuel id t htree _).mpr ⟨hmeaning, rfl⟩,
      matches_printed t hfixed⟩
  next => exact h.reads htree

end

/-! ## Specifiers of leaves -/

/-- The kinds that are printed with a base type where they have no name. -/
def Kind.isBuiltin (kind : Kind) : Bool :=
  kind == .int || kind == .float || kind == .enum || kind == .enum64 || kind == .unkn

/-- The specifier that is printed for a type that ends the recursion. -/
inductive LeafSpec (ctx : EmitCtx) (id : Nat) (type : BtfType) : List Token → Prop
  | builtin {spec : List Token} : type.kind.isBuiltin = true → isNamedEnum ctx.btf type = false →
      spec.head?.any isTypeKeyword = true → builtinScalar spec = scalarOf type →
        LeafSpec ctx id type spec
  | enum : isNamedEnum ctx.btf type = true →
      LeafSpec ctx id type [.word "enum".toList, .word (mchBtfTypeName ctx.btf type)]
  | typedef : isNamedTypedef ctx.btf type = true →
      isIdentifier (mchBtfTypeName ctx.btf type) = true →
        LeafSpec ctx id type [.word (mchBtfTypeName ctx.btf type)]
  | tag : type.kind.isRecord = true ∨ type.kind = .fwd → mchBtfTypeName ctx.btf type ≠ [] →
      LeafSpec ctx id type [.word (recordKeyword type), .word (mchBtfTypeName ctx.btf type)]
  | inline {fuel : Nat} {inner : CString} : isUnnamedRecord ctx.btf type = true →
      PrintedMembers ctx fuel type.kflag (keptMembers ctx.keeps id type) (lex inner) →
        LeafSpec ctx id type [.word (keywordOf (type.kind == .union)), .braces inner]

theorem builtinScalar_intTypeName (type : BtfType) :
    builtinScalar (lex (intTypeName type)) = some (intScalar type) := by
  have hspelled : ∀ isSigned : Bool,
      builtinScalar (lex (if isSigned then "signed char".toList else "unsigned char".toList)) =
          some (1, 8) ∧
        builtinScalar (lex (if isSigned then "short".toList else "unsigned short".toList)) =
          some (2, 16) ∧
        builtinScalar (lex (if isSigned then "int".toList else "unsigned int".toList)) =
          some (4, 32) ∧
        builtinScalar (lex (if isSigned then "long long".toList else "unsigned long long".toList)) =
          some (8, 64) := by
    decide
  unfold intTypeName intScalar
  extract_lets encoding isBool isChar isSigned bits
  have hsigned := hspelled (decide isSigned)
  simp only [decide_eq_true_eq] at hsigned
  obtain ⟨hchar, hshort, hint, hlong⟩ := hsigned
  by_cases hbool : isBool
  · rw [if_pos hbool]
    refine (by decide : builtinScalar (lex "_Bool".toList) = some (1, 1)).trans ?_
    exact congrArg some (if_pos hbool).symm
  · rw [if_neg hbool]
    refine Eq.trans ?_ (congrArg some (if_neg hbool).symm)
    change _ = some (match bits with | 8 => (1, 8) | 16 => (2, 16) | 64 => (8, 64) | _ => (4, 32))
    clear_value bits
    by_cases hisChar : isChar ∧ bits = 8
    · rw [if_pos hisChar, hisChar.2]
      exact hchar
    · rw [if_neg hisChar]
      split
      next => exact hchar
      next => exact hshort
      next => exact hint
      next => exact hlong
      next height hsixteen _ hsixtyFour =>
        refine hint.trans (congrArg some ?_)
        split
        next heq => exact absurd rfl height
        next heq => exact absurd rfl hsixteen
        next heq => exact absurd rfl hsixtyFour
        next => rfl

theorem builtinScalar_floatTypeName (type : BtfType) :
    builtinScalar (lex (floatTypeName type)) = some (floatScalar type) := by
  unfold floatTypeName floatScalar
  split
  next hsize => rw [if_pos hsize]; decide
  next hsize => rw [if_neg (by omega)]; decide
  next hsize => rw [if_neg (by omega)]; decide
  next hsize _ _ => rw [if_neg hsize]; decide

section

variable {ctx : EmitCtx} {fuel id : Nat} {type : BtfType}

theorem head_builtin {text : CString} (h : text ∈ builtinTexts) :
    (lex text).head?.any isTypeKeyword = true := by
  have hall : ∀ text ∈ builtinTexts, (lex text).head?.any isTypeKeyword = true := by
    decide
  exact hall text h

theorem leafSpec_of_leafText (hnames : ctx.btf.NamesAreIdentifiers) (hmem : type ∈ ctx.btf.types)
    (hnamed : type.kind = .typedef → mchBtfTypeName ctx.btf type ≠ []) {text : CString}
    (h : leafText ctx (emitDeclEx ctx fuel) id type = some text) : LeafSpec ctx id type (lex text) := by
  have hname : type.kind.isNamedInC = true → mchBtfTypeName ctx.btf type ≠ [] →
      isIdentifier (mchBtfTypeName ctx.btf type) = true :=
    fun hkind hne => (hnames.types type hmem hkind).resolve_left hne
  have hbuiltin : text ∈ builtinTexts → type.kind.isBuiltin = true →
      isNamedEnum ctx.btf type = false → builtinScalar (lex text) = scalarOf type →
        LeafSpec ctx id type (lex text) :=
    fun hmem hkind henum hscalar => .builtin hkind henum (head_builtin hmem) hscalar
  have htag : type.kind.isRecord = true ∨ type.kind = .fwd → mchBtfTypeName ctx.btf type ≠ [] →
      recordKeyword type ++ [' '] ++ mchBtfTypeName ctx.btf type = text →
        LeafSpec ctx id type (lex text) := by
    rintro hkind hne rfl
    have hisNamed : type.kind.isNamedInC = true := by
      unfold Kind.isNamedInC
      rcases hkind with hkind | hkind <;> simp [hkind]
    rw [(lexes_tag (recordKeyword_mem type) (hname hisNamed hne)).lex_eq]
    exact .tag hkind hne
  have hrecord : type.kind.isRecord = true →
      (if mchBtfTypeName ctx.btf type = [] then
        (emitRecordBody ctx (emitDeclEx ctx fuel) id type).toOption.map fun body =>
          (if type.kind = .struct then "struct".toList else "union".toList) ++ declText body
      else some (recordKeyword type ++ [' '] ++ mchBtfTypeName ctx.btf type)) = some text →
        LeafSpec ctx id type (lex text) := by
    intro hkind heq
    split at heq
    next hanon =>
      obtain ⟨body, hbody, rfl⟩ := Option.map_eq_some_iff.mp heq
      obtain ⟨inner, hlexes, hprinted⟩ := emitRecordBody_lexes hnames hmem (toOption_eq_some.mp hbody)
      have hkeyword : (if type.kind = .struct then "struct".toList else "union".toList) =
          keywordOf (type.kind == .union) := by
        cases hcase : type.kind <;> rw [hcase] at hkind <;> first | rfl | cases hkind
      have hword : Lexes (keywordOf (type.kind == .union)) [.word (keywordOf (type.kind == .union))] := by
        cases type.kind == .union <;> exact Lexes.word (by decide) (by decide)
      have hall := hword.append hlexes (by
        intro c hc
        obtain ⟨_, _, hbody⟩ := bind_eq_ok.mp (toOption_eq_some.mp hbody)
        cases hbody
        cases hc
        decide)
      rw [hkeyword, hall.lex_eq]
      exact .inline (by simp [isUnnamedRecord, hkind, hanon]) hprinted
    next hne => exact htag (Or.inl hkind) hne (Option.some.inj heq)
  have henum : isEnumKind type = true → mchBtfTypeName ctx.btf type ≠ [] →
      "enum ".toList ++ mchBtfTypeName ctx.btf type = text → LeafSpec ctx id type (lex text) := by
    rintro hkind hne rfl
    have hisNamed : type.kind.isNamedInC = true := by
      unfold isEnumKind at hkind
      unfold Kind.isNamedInC
      cases hcase : type.kind <;> rw [hcase] at hkind <;> first | rfl | cases hkind
    have hlexes := @lexes_tag "enum".toList (by decide) _ (hname hisNamed hne)
    have hlex : lex ("enum ".toList ++ mchBtfTypeName ctx.btf type) = _ := hlexes.lex_eq
    rw [hlex]
    exact .enum (by simp [isNamedEnum, hkind, hne])
  unfold leafText at h
  cases hkind : type.kind <;> simp only [hkind, Option.some.injEq, reduceCtorEq] at h
  case int =>
    rw [← h] at hbuiltin ⊢
    exact hbuiltin (intTypeName_mem type) (by rw [hkind]; rfl) (by simp [isNamedEnum, isEnumKind, hkind])
      (by rw [builtinScalar_intTypeName, scalarOf, hkind])
  case float =>
    rw [← h] at hbuiltin ⊢
    exact hbuiltin (floatTypeName_mem type) (by rw [hkind]; rfl)
      (by simp [isNamedEnum, isEnumKind, hkind])
      (by rw [builtinScalar_floatTypeName, scalarOf, hkind])
  case typedef =>
    have hne := hnamed hkind
    have hid := hname (by rw [hkind]; rfl) hne
    rw [← h, (Lexes.word hne (isWordChar_of_isIdentifier hid).2).lex_eq]
    exact .typedef (by simp [isNamedTypedef, hkind, hne]) hid
  case struct | union =>
    exact hrecord (by rw [hkind]; rfl) (by simpa only [hkind, reduceCtorEq, if_true, if_false] using h)
  case fwd => exact htag (Or.inr hkind) (hnames.fwds type hmem hkind) h
  case enum | enum64 =>
    split_ifs at h with hanon
    · rw [← h] at hbuiltin ⊢
      exact hbuiltin (by decide) (by rw [hkind]; rfl) (by simp [isNamedEnum, hanon])
        (by simp only [scalarOf, hkind]; decide)
    · exact henum (by simp [isEnumKind, hkind]) hanon h

/-- What a type that is no wrapper is read as. -/
inductive HeadOf (ctx : EmitCtx) (id : Nat) (type : BtfType) : CType → Prop
  | leaf {qs : List Qualifier} {spec : List Token} :
      LeafSpec ctx id type spec → HeadOf ctx id type (.base qs spec)
  | ptr {qs : List Qualifier} {target : CType} :
      type.kind = .ptr → HeadOf ctx id type (.ptr qs target)
  | array {element : CType} : type.kind = .array → Reads ctx element type.array.type →
      HeadOf ctx id type (.array element type.array.nelems)
  | func {result : CType} {params : CParams} {variadic : Bool} :
      type.kind = .funcProto → HeadOf ctx id type (.func result params variadic)

theorem Reads.headOf {t : CType} (h : Reads ctx t id) (hnames : ctx.btf.NamesAreIdentifiers)
    (htype : btfTypeById ctx.btf id = some type) (hunwrapped : isWrapper ctx.btf type = false) :
    HeadOf ctx id type t := by
  by_cases hzero : id = 0
  · subst hzero
    obtain ⟨qs, rfl⟩ := reads_zero h
    cases htype
    exact .leaf (.builtin rfl rfl (by decide) (by decide))
  have hmem := mem_types_of_btfTypeById hzero htype
  have hrole := h.byRole hzero htype
  have hleaf : roleOf ctx.btf type = .leaf → HeadOf ctx id type t := by
    intro hisLeaf
    rw [hisLeaf] at hrole
    obtain ⟨qs, fuel, text, htext, rfl⟩ := hrole
    refine .leaf (leafSpec_of_leafText hnames hmem (fun hkind hanon => ?_) htext)
    unfold roleOf at hisLeaf
    simp only [hkind, hanon, if_true] at hisLeaf
    cases hisLeaf
  unfold isWrapper at hunwrapped
  unfold roleOf at hrole hunwrapped hleaf
  cases hkind : type.kind <;> simp only [hkind] at hrole hunwrapped hleaf
  case ptr =>
    obtain ⟨qs, target, rfl⟩ := hrole
    exact .ptr hkind
  case array =>
    obtain ⟨element, rfl, helement⟩ := hrole
    exact .array hkind helement
  case funcProto =>
    obtain ⟨result, params, variadic, rfl⟩ := hrole
    exact .func hkind
  case const | volatile | restrict | typeTag | declTag => cases hunwrapped
  case typedef =>
    by_cases hanon : mchBtfTypeName ctx.btf type = []
    · rw [if_pos hanon] at hunwrapped
      cases hunwrapped
    · exact hleaf (if_neg hanon)
  all_goals exact hleaf trivial

end

end MinCorehdr
