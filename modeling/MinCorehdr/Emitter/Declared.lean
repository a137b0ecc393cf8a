import MinCorehdr.Emitter.Reach
import MinCorehdr.Generate

/-!
# What is declared before it is used

The walks decide what is printed before a definition, the printer what the
definition uses.  The two agree except behind a pointer or a prototype, where
the walk stops at records and the printer goes on into those without a name,
and behind a typedef without a name.
-/

namespace MinCorehdr

open Relation Support.DepthFirst Support.Result

/-! ## Headers of closed sets -/

/-- What the closure of `seeds` holds. -/
def closureSet (base : Btf) (options : ClosureOptions) (seeds : TypeSet) : Set Nat :=
  { id | ClosureReaches base options seeds id }

theorem closeAndEmit_layout {base : Btf} {seeds : TypeSet} {options : ClosureOptions} {fuel : Nat}
    {items : List Item} {added : Nat} (hcount : seeds.count = btfTypeCnt base)
    (h : closeAndEmit fuel base seeds options = .ok (items, added)) :
    ∃ required fwds enums defs, items = headerItems fwds enums defs ∧
      required.ids = closureSet base options seeds ∧
      Layout (emitCtx base options.requirements) required fwds enums defs := by
  obtain ⟨⟨required, added'⟩, hclose, h⟩ := bind_eq_ok.mp h
  obtain ⟨items', hemit, h⟩ := bind_eq_ok.mp h
  cases h
  obtain ⟨fwds, enums, defs, hitems, hlayout⟩ := emitHeader_layout hemit
  obtain ⟨_, hids⟩ := contains_closure_iff hcount hclose
  exact ⟨required, fwds, enums, defs, hitems, Set.ext hids, hlayout⟩

/-! ## Enums -/

def isNamedEnum (btf : Btf) (type : BtfType) : Bool :=
  isEnumKind type && decide (mchBtfTypeName btf type ≠ [])

/-- Every enum a definition of the header uses by value is defined earlier. -/
def EnumsComeFirst (ctx : EmitCtx) (items : List Item) : Prop :=
  ∀ before item after node, items = before ++ item :: after → item.node? = some node →
    ∀ id, UsesByValue ctx node id → hasType ctx (isNamedEnum ctx.btf) id = true →
      enumItem ctx id ∈ before

theorem Layout.enumItem_mem_front {ctx : EmitCtx} {required : TypeSet} {fwds enums defs : List Item}
    (h : Layout ctx required fwds enums defs) {id : Nat} {type : BtfType}
    (htype : btfTypeById ctx.btf id = some type) (hkind : isEnumKind type = true) :
    enumItem ctx id ∈ headerFront fwds enums ↔ id ∈ required.ids := by
  have hitem : enumItem ctx id =
      .enumDef id (mchBtfTypeName ctx.btf type) (enumerators ctx.btf type) := by
    simp [enumItem, htype]
  constructor
  · intro hmem
    simp only [headerFront, headerOpening, h.fwds_eq, h.enums_eq, List.mem_append, List.mem_cons,
      List.not_mem_nil, or_false, List.mem_map, List.mem_filter] at hmem
    rcases hmem with (hmem | ⟨other, _, heq⟩) | heq | ⟨other, ⟨hother, _⟩, heq⟩
    · rw [hitem] at hmem
      rcases hmem with heq | heq | heq <;> cases heq
    · rw [hitem] at heq
      unfold forwardItem at heq
      split at heq <;> cases heq
    · rw [hitem] at heq
      cases heq
    · have hid : other = id := by
        rw [hitem] at heq
        unfold enumItem at heq
        split at heq <;> exact (Item.enumDef.inj heq).1
      rw [← hid]
      exact mem_requiredIds.mp hother
  · intro hmem
    have hin : enumItem ctx id ∈ enums := by
      rw [h.enums_eq]
      apply List.mem_map_of_mem
      rw [List.mem_filter]
      exact ⟨mem_requiredIds.mpr hmem, by rw [hasType_of_some htype, hkind]⟩
    simp [headerFront, hin]

theorem enumItem_not_fromWalk (ctx : EmitCtx) (id : Nat) : ¬(enumItem ctx id).FromWalk ctx := by
  unfold enumItem
  split <;> simp [Item.FromWalk]

/-- The enums come first exactly when the required set has every enum that a
definition in reach uses by value. -/
theorem Layout.enumsComeFirst_iff {ctx : EmitCtx} {required : TypeSet} {fwds enums defs : List Item}
    (h : Layout ctx required fwds enums defs) :
    EnumsComeFirst ctx (headerItems fwds enums defs) ↔
      ∀ node, Reached ctx required.ids node → ∀ id, UsesByValue ctx node id →
        hasType ctx (isNamedEnum ctx.btf) id = true → id ∈ required.ids := by
  have hkind : ∀ id, hasType ctx (isNamedEnum ctx.btf) id = true →
      ∃ type, btfTypeById ctx.btf id = some type ∧ isEnumKind type = true := by
    intro id hid
    obtain ⟨type, htype, htest⟩ := hasType_eq_true.mp hid
    exact ⟨type, htype, (Bool.and_eq_true_iff.mp htest).1⟩
  constructor
  · intro hfirst node hreached id huses hid
    obtain ⟨type, htype, henum⟩ := hkind id hid
    obtain ⟨pre, item, post, hdefs, hnode⟩ :=
      exists_item_of_mem_definedNodes ((h.mem_definedNodes_iff node).mpr hreached)
    have hbefore := hfirst (headerFront fwds enums ++ pre) item (post ++ headerClosing) node
      (by rw [hdefs]; simp [headerItems, headerFront]) hnode id huses hid
    rcases List.mem_append.mp hbefore with hfront | hpre
    · exact (h.enumItem_mem_front htype henum).mp hfront
    · have hfrom := h.defs_from (enumItem ctx id) (by
        rw [hdefs]
        exact List.mem_append_left _ hpre)
      exact absurd hfrom (enumItem_not_fromWalk ctx id)
  · intro hrequired before item after node hsplit hnode id huses hid
    obtain ⟨type, htype, henum⟩ := hkind id hid
    obtain ⟨pre, post, hdefs, hbefore⟩ := h.split hsplit hnode
    have hreached : Reached ctx required.ids node := by
      rw [← h.mem_definedNodes_iff, hdefs, definedNodes_split hnode]
      simp
    rw [hbefore]
    apply List.mem_append_left
    exact (h.enumItem_mem_front htype henum).mpr (hrequired node hreached id huses hid)

/-- The enums come first exactly when the closure of the seeds has every enum
that a definition in reach uses by value. -/
theorem enumsComeFirst_iff_closureReaches {base : Btf} {seeds : TypeSet} {options : ClosureOptions}
    {fuel : Nat} {items : List Item} {added : Nat} (hcount : seeds.count = btfTypeCnt base)
    (h : closeAndEmit fuel base seeds options = .ok (items, added)) :
    EnumsComeFirst (emitCtx base options.requirements) items ↔
      ∀ node, Reached (emitCtx base options.requirements) (closureSet base options seeds) node →
        ∀ id, UsesByValue (emitCtx base options.requirements) node id →
          hasType (emitCtx base options.requirements) (isNamedEnum base) id = true →
            ClosureReaches base options seeds id := by
  obtain ⟨required, fwds, enums, defs, rfl, hids, hlayout⟩ := closeAndEmit_layout hcount h
  rw [hlayout.enumsComeFirst_iff, hids]
  rfl

/-- The seed set with the type ids of a list. -/
def seedsOf (base : Btf) (ids : List Nat) : TypeSet :=
  ids.foldl (fun set id => (mchTypeSetAdd set id).1) (mchTypeSetInit (btfTypeCnt base))

/-- `struct R { E_t *p; }` with `typedef enum E E_t`. -/
def enumBehindPointer : Btf where
  types := [
    { nameOff := 1, kind := .struct, size := 8, members := [{ nameOff := 3, type := 2 }] },
    { kind := .ptr, type := 3 },
    { nameOff := 5, kind := .typedef, type := 4 },
    { nameOff := 9, kind := .enum, size := 4, enums := [{ nameOff := 11, val := 1 }] }]
  strs := "\x00R\x00p\x00E_t\x00E\x00A\x00".toList

def enumBehindPointerDefs : List Item := [
  .typedefDef 3 "E_t".toList [.tagName 4 "enum".toList ['E'], .text " E_t".toList],
  .recordDef 1 "struct".toList ['R'] [.text " \x7b\n".toList, .member 1 0,
    .typedefName 3 "E_t".toList, .text " *p".toList, .text ";\n".toList, .text "\x7d".toList]]

theorem enumsComeFirst_enumBehindPointer :
    EnumsComeFirst (emitCtx enumBehindPointer none) (headerItems
        [.forwardDecl 1 "struct".toList ['R']] [.enumDef 4 ['E'] [{ name := ['A'], value := ['1'] }]]
        enumBehindPointerDefs) ↔
      ∀ node, Reached (emitCtx enumBehindPointer none) (closureSet enumBehindPointer
          { expandPointers := true } (seedsOf enumBehindPointer [1])) node →
        ∀ id, UsesByValue (emitCtx enumBehindPointer none) node id →
          hasType (emitCtx enumBehindPointer none) (isNamedEnum enumBehindPointer) id = true →
            ClosureReaches enumBehindPointer { expandPointers := true }
              (seedsOf enumBehindPointer [1]) id := by
  have hrun : closeAndEmit 10 enumBehindPointer (seedsOf enumBehindPointer [1])
      { expandPointers := true } = .ok (headerItems [.forwardDecl 1 "struct".toList ['R']]
        [.enumDef 4 ['E'] [{ name := ['A'], value := ['1'] }]] enumBehindPointerDefs, 3) := by
    decide +kernel
  exact enumsComeFirst_iff_closureReaches (by decide) hrun

theorem enumBehindPointer_emits :
    closeAndEmit 10 enumBehindPointer (seedsOf enumBehindPointer [1]) {} =
      .ok (headerItems [.forwardDecl 1 "struct".toList ['R']] [] enumBehindPointerDefs, 1) := by
  decide +kernel

/-- The walk prints the typedef behind the pointer; the closure stopped at the
pointer, so the enum of the typedef is never defined. -/
theorem enumBehindPointer_undefined :
    closeAndEmit 10 enumBehindPointer (seedsOf enumBehindPointer [1]) {} =
        .ok (headerItems [.forwardDecl 1 "struct".toList ['R']] [] enumBehindPointerDefs, 1) ∧
      ¬EnumsComeFirst (emitCtx enumBehindPointer none)
        (headerItems [.forwardDecl 1 "struct".toList ['R']] [] enumBehindPointerDefs) := by
  constructor
  · exact enumBehindPointer_emits
  · intro hfirst
    have huses : UsesByValue (emitCtx enumBehindPointer none) (.typedef 3) 4 :=
      ⟨4, by decide, .refl⟩
    have hmem := hfirst (headerFront [.forwardDecl 1 "struct".toList ['R']] []) _ _ (.typedef 3)
      rfl rfl 4 huses (by decide)
    revert hmem
    decide

/-! ## Typedefs -/

/-- Every typedef name that occurs in a definition of the header is introduced
by a typedef line earlier. -/
def TypedefsComeFirst (items : List Item) : Prop :=
  ∀ before item after, items = before ++ item :: after → ∀ id name,
    .typedefName id name ∈ item.pieces → ∃ id' decl, .typedefDef id' name decl ∈ before

theorem Layout.typedefsComeFirst {ctx : EmitCtx} {required : TypeSet} {fwds enums defs : List Item}
    (h : Layout ctx required fwds enums defs)
    (hneeds : ∀ node, Reached ctx required.ids node → ∀ id name,
      NodeShows ctx node (.typedefName id name) → Needs ctx node (.typedef id)) :
    TypedefsComeFirst (headerItems fwds enums defs) := by
  intro before item after hsplit id name hpiece
  obtain ⟨node, hnode⟩ : ∃ node, item.node? = some node := by
    cases item with
    | text _ => cases hpiece
    | forwardDecl _ _ _ => cases hpiece
    | enumDef _ _ _ => cases hpiece
    | typedefDef id name decl => exact ⟨_, rfl⟩
    | recordDef id keyword name body => exact ⟨_, rfl⟩
  obtain ⟨pre, post, hdefs, hbefore⟩ := h.split hsplit hnode
  have hfrom := h.defs_from item (by rw [hdefs]; simp)
  have htagged : ¬(Piece.typedefName id name).IsText := fun htext => htext
  have hshows := (nodeShows_of_item hfrom hnode _ htagged).mp hpiece
  have hreached : Reached ctx required.ids node := by
    rw [← h.mem_definedNodes_iff, hdefs, definedNodes_split hnode]
    simp
  have hlog : definedNodes defs = definedNodes pre ++ node :: definedNodes post := by
    rw [hdefs, definedNodes_split hnode]
  have hmem := h.typedef_before hlog (hneeds node hreached id name hshows)
  obtain ⟨front, other, back, hpre, hother⟩ := exists_item_of_mem_definedNodes hmem
  obtain ⟨type, htype, _, hname⟩ := hshows.typedefName
  have hotherFrom := h.defs_from other (by rw [hdefs, hpre]; simp)
  cases other with
  | text _ => cases hother
  | forwardDecl _ _ _ => cases hother
  | enumDef _ _ _ => cases hother
  | recordDef _ _ _ _ => cases hother
  | typedefDef id' name' decl =>
      cases hother
      obtain ⟨type', fuel, htype', _, _, hitem⟩ := hotherFrom
      obtain ⟨pieces, _, heq⟩ := bind_eq_ok.mp hitem
      rw [htype] at htype'
      cases htype'
      have hname' : name' = name := by
        rw [hname]
        exact (Item.typedefDef.inj (Except.ok.inj heq)).2.1.symm
      refine ⟨id, decl, ?_⟩
      rw [hbefore, hpre, ← hname']
      simp

/-- Where the typedefs come first, every typedef name in use belongs to a typedef
in reach. -/
theorem Layout.reached_of_typedefsComeFirst {ctx : EmitCtx} {required : TypeSet}
    {fwds enums defs : List Item} (h : Layout ctx required fwds enums defs)
    (hfirst : TypedefsComeFirst (headerItems fwds enums defs)) {node : Node}
    (hreached : Reached ctx required.ids node) {id : Nat} {name : CString}
    (hshows : NodeShows ctx node (.typedefName id name)) :
    ∃ id' type, Reached ctx required.ids (.typedef id') ∧ btfTypeById ctx.btf id' = some type ∧
      mchBtfTypeName ctx.btf type = name := by
  obtain ⟨pre, item, post, hdefs, hnode⟩ :=
    exists_item_of_mem_definedNodes ((h.mem_definedNodes_iff node).mpr hreached)
  have hfrom := h.defs_from item (by rw [hdefs]; simp)
  have htagged : ¬(Piece.typedefName id name).IsText := fun htext => htext
  obtain ⟨id', decl, hmem⟩ := hfirst (headerFront fwds enums ++ pre) item (post ++ headerClosing)
    (by rw [hdefs]; simp [headerItems, headerFront]) id name
    ((nodeShows_of_item hfrom hnode _ htagged).mpr hshows)
  rcases List.mem_append.mp hmem with hmem | hmem
  · have hnone := h.node?_front _ hmem
    cases hnone
  · have hdef : .typedefDef id' name decl ∈ defs := by
      rw [hdefs]
      exact List.mem_append_left _ hmem
    obtain ⟨type, fuel, htype, _, _, hitem⟩ := h.defs_from _ hdef
    obtain ⟨pieces, _, heq⟩ := bind_eq_ok.mp hitem
    refine ⟨id', type, ?_, htype, (Item.typedefDef.inj (Except.ok.inj heq)).2.1⟩
    rw [← h.mem_definedNodes_iff]
    exact List.mem_filterMap.mpr ⟨_, hdef, rfl⟩

/-- The typedefs come first when every typedef a definition in reach mentions is
met by its walk, and only when each mentioned name is that of a typedef in
reach. -/
theorem typedefsComeFirst_of_closed {base : Btf} {seeds : TypeSet} {options : ClosureOptions}
    {fuel : Nat} {items : List Item} {added : Nat} (hcount : seeds.count = btfTypeCnt base)
    (h : closeAndEmit fuel base seeds options = .ok (items, added)) :
    ((∀ node, Reached (emitCtx base options.requirements) (closureSet base options seeds) node →
        ∀ id name, NodeShows (emitCtx base options.requirements) node (.typedefName id name) →
          Needs (emitCtx base options.requirements) node (.typedef id)) →
      TypedefsComeFirst items) ∧
    (TypedefsComeFirst items →
      ∀ node, Reached (emitCtx base options.requirements) (closureSet base options seeds) node →
        ∀ id name, NodeShows (emitCtx base options.requirements) node (.typedefName id name) →
          ∃ id' type,
            Reached (emitCtx base options.requirements) (closureSet base options seeds)
              (.typedef id') ∧
            btfTypeById base id' = some type ∧ mchBtfTypeName base type = name) := by
  obtain ⟨required, fwds, enums, defs, rfl, hids, hlayout⟩ := closeAndEmit_layout hcount h
  rw [← hids]
  constructor
  · exact hlayout.typedefsComeFirst
  · intro hfirst node hreached id name hshows
    exact hlayout.reached_of_typedefsComeFirst hfirst hreached hshows

theorem typedefsComeFirst_enumBehindPointer :
    TypedefsComeFirst
      (headerItems [.forwardDecl 1 "struct".toList ['R']] [] enumBehindPointerDefs) := by
  refine (typedefsComeFirst_of_closed (by decide) enumBehindPointer_emits).1 ?_
  intro node hreached id name hshows
  have hnode : node ∈ [Node.record 1, .typedef 3] := mem_of_isNode (by decide) hreached.isNode
  simp only [List.mem_cons, List.not_mem_nil, or_false] at hnode
  rcases hnode with rfl | rfl
  · have hmem : Node.typedef id ∈ [Node.typedef 3] :=
      hshows.follow [2, 3] (by decide) (by decide) (by decide)
    rw [List.mem_singleton.mp hmem]
    have hpointer : WalkReaches (emitCtx enumBehindPointer none) (.hard, 2) (.soft, 2) :=
      .single (by decide)
    exact ⟨(.hard, 2), by decide, (.soft, 3), hpointer.tail (by decide), by decide⟩
  · have hnone : Node.typedef id ∈ ([] : List Node) :=
      hshows.follow [4] (by decide) (by decide) (by decide)
    cases hnone

/-- `struct R { struct { T x; } *p; }` with `typedef int T`. -/
def typedefBehindPointer : Btf where
  types := [
    { nameOff := 1, kind := .struct, size := 8, members := [{ nameOff := 3, type := 2 }] },
    { kind := .ptr, type := 3 },
    { kind := .struct, size := 4, members := [{ nameOff := 5, type := 4 }] },
    { nameOff := 7, kind := .typedef, type := 5 },
    { nameOff := 9, kind := .int, size := 4, intInfo := 0x01000020 }]
  strs := "\x00R\x00p\x00x\x00T\x00int\x00".toList

def typedefBehindPointerDefs : List Item := [
  .recordDef 1 "struct".toList ['R'] [.text " \x7b\n".toList, .member 1 0,
    .text "struct".toList, .text " \x7b\n".toList, .member 3 0, .typedefName 4 ['T'],
    .text " x".toList, .text ";\n".toList, .text "\x7d".toList, .text " *p".toList,
    .text ";\n".toList, .text "\x7d".toList]]

/-- The printer expands the record behind the pointer, the walk does not, and
nothing declares `T`. -/
theorem typedefBehindPointer_undeclared :
    closeAndEmit 10 typedefBehindPointer (seedsOf typedefBehindPointer [1]) {} =
        .ok (headerItems [.forwardDecl 1 "struct".toList ['R']] [] typedefBehindPointerDefs, 1) ∧
      ¬TypedefsComeFirst
        (headerItems [.forwardDecl 1 "struct".toList ['R']] [] typedefBehindPointerDefs) := by
  constructor
  · decide +kernel
  · intro hfirst
    obtain ⟨id, decl, hmem⟩ := hfirst (headerFront [.forwardDecl 1 "struct".toList ['R']] []) _ _
      rfl 4 ['T'] (by decide)
    simp [headerFront, headerOpening] at hmem

end MinCorehdr
