import MinCorehdr.Emitter.Declared
import MinCorehdr.Emitter.Structure
import MinCorehdr.Support.CConstant
import MinCorehdr.Support.CTypedef

/-!
# One definition for each name

The emitter prints each type id at most once and looks at no names.  A header gives
every name one meaning exactly when no two ids in reach share one.
-/

namespace MinCorehdr

open Relation Support.CConstant Support.CDeclaration Support.CToken Support.CTypedef

def isUnnamedRecord (btf : Btf) (type : BtfType) : Bool :=
  type.kind.isRecord && decide (mchBtfTypeName btf type = [])

/-- What the typedef names of a header stand for. -/
def headerTypedefs (items : List Item) (name : CString) (t : CType) : Prop :=
  ∃ id own decl, .typedefDef id own decl ∈ items ∧ Declaration (lex (declText decl)) name t

/-- The C type that a declaration of the type `id` is read as, with the qualifiers where the
printer puts them. -/
def SpelledAs (ctx : EmitCtx) (id : Nat) (t : CType) : Prop :=
  ∃ fuel tree, treeOf ctx fuel id = some tree ∧ tree.Readable ∧ t = tree.printed tree.front

/-- What the names of the typedefs in reach stand for. -/
def reachedTypedefs (ctx : EmitCtx) (required : Set Nat) (name : CString) (t : CType) : Prop :=
  ∃ id type, Reached ctx required (.typedef id) ∧ btfTypeById ctx.btf id = some type ∧
    mchBtfTypeName ctx.btf type = name ∧ SpelledAs ctx type.type t

section Layout

variable {ctx : EmitCtx} {required : TypeSet} {fwds enums defs : List Item}

theorem name_of_fromWalk {item : Item} {id : Nat} {name : CString}
    (hitem : (∃ keyword body, item = .recordDef id keyword name body) ∨
      ∃ decl, item = .typedefDef id name decl) (h : item.FromWalk ctx) :
    ∃ type, btfTypeById ctx.btf id = some type ∧ mchBtfTypeName ctx.btf type = name := by
  rcases hitem with ⟨keyword, body, rfl⟩ | ⟨decl, rfl⟩
  · obtain ⟨type, fuel, htype, _, _, hprinted⟩ := h
    obtain ⟨_, _, heq⟩ := Support.Result.bind_eq_ok.mp hprinted
    cases heq
    exact ⟨type, htype, rfl⟩
  · obtain ⟨type, fuel, htype, _, _, hprinted⟩ := h
    obtain ⟨_, _, heq⟩ := Support.Result.bind_eq_ok.mp hprinted
    cases heq
    exact ⟨type, htype, rfl⟩

theorem spelledAs_iff {fuel id : Nat} {tree : Tree} (htree : treeOf ctx fuel id = some tree)
    (t : CType) : SpelledAs ctx id t ↔ tree.Readable ∧ t = tree.printed tree.front := by
  constructor
  · rintro ⟨fuel', tree', htree', hreadable, ht⟩
    obtain rfl := treeOf_unique htree htree'
    exact ⟨hreadable, ht⟩
  · rintro ⟨hreadable, ht⟩
    exact ⟨fuel, tree, htree, hreadable, ht⟩

/-- A typedef of the header is one in reach, and its declaration is read as the type is
spelled. -/
theorem Layout.typedefDef_mem (h : Layout ctx required fwds enums defs)
    (hnames : ctx.btf.NamesAreIdentifiers) {id : Nat} {name : CString} {decl : List Piece}
    (hitem : .typedefDef id name decl ∈ headerItems fwds enums defs) :
    ∃ type fuel tree, Reached ctx required.ids (.typedef id) ∧ btfTypeById ctx.btf id = some type ∧
      mchBtfTypeName ctx.btf type = name ∧ treeOf ctx fuel type.type = some tree ∧
        ∀ name' t, Declaration (lex (declText decl)) name' t ↔
          name' = name ∧ SpelledAs ctx type.type t := by
  obtain ⟨hreached, hfrom⟩ := h.reached_of_mem hitem rfl
  obtain ⟨type, fuel, htype, hnamed, _, hprinted⟩ := hfrom
  obtain ⟨pieces, hpieces, heq⟩ := Support.Result.bind_eq_ok.mp hprinted
  cases heq
  obtain ⟨hkind, hne⟩ : type.kind = .typedef ∧ mchBtfTypeName ctx.btf type ≠ [] := by
    simpa [isNamedTypedef] using hnamed
  have hzero : id ≠ 0 := by
    rintro rfl
    cases htype
    cases hkind
  have hid := (hnames.types type (mem_types_of_btfTypeById hzero htype)
    (by rw [hkind]; rfl)).resolve_left hne
  obtain ⟨tree, htree, _⟩ := emitDeclEx_text ctx fuel _ _ _ hpieces
  have hread := emitDeclEx_declaration_iff hpieces htree (treeOf_wellNamed hnames fuel _ _ htree) hid
  refine ⟨type, fuel, tree, hreached, htype, rfl, htree, fun name' t => ?_⟩
  rw [hread name' t, spelledAs_iff htree, and_left_comm]

/-- A typedef in reach has its declaration in the header. -/
theorem Layout.typedefDef_of_reached (h : Layout ctx required fwds enums defs) {id : Nat}
    {type : BtfType} (hreached : Reached ctx required.ids (.typedef id))
    (htype : btfTypeById ctx.btf id = some type) :
    ∃ decl, .typedefDef id (mchBtfTypeName ctx.btf type) decl ∈ headerItems fwds enums defs := by
  obtain ⟨item, hitem, hnode, hfrom⟩ := h.exists_item hreached
  cases item with
  | typedefDef id' name decl =>
      cases hnode
      obtain ⟨type', htype', hname⟩ := name_of_fromWalk (Or.inr ⟨decl, rfl⟩) hfrom
      cases htype.symm.trans htype'
      rw [← hname] at hitem
      exact ⟨decl, hitem⟩
  | text _ => cases hnode
  | forwardDecl _ _ _ => cases hnode
  | enumDef _ _ _ => cases hnode
  | recordDef _ _ _ _ => cases hnode

/-- The typedef names of the header are those in reach. -/
theorem Layout.headerTypedefs_eq (h : Layout ctx required fwds enums defs)
    (hnames : ctx.btf.NamesAreIdentifiers) :
    headerTypedefs (headerItems fwds enums defs) = reachedTypedefs ctx required.ids := by
  funext name t
  apply propext
  constructor
  · rintro ⟨id, own, decl, hitem, hdecl⟩
    obtain ⟨type, _, _, hreached, htype, rfl, _, hread⟩ := h.typedefDef_mem hnames hitem
    obtain ⟨rfl, hspelled⟩ := (hread name t).mp hdecl
    exact ⟨id, type, hreached, htype, rfl, hspelled⟩
  · rintro ⟨id, type, hreached, htype, rfl, hspelled⟩
    obtain ⟨decl, hitem⟩ := h.typedefDef_of_reached hreached htype
    obtain ⟨type', _, _, _, htype', _, _, hread⟩ := h.typedefDef_mem hnames hitem
    cases htype.symm.trans htype'
    exact ⟨id, _, decl, hitem, (hread _ t).mpr ⟨rfl, hspelled⟩⟩

end Layout

end MinCorehdr
