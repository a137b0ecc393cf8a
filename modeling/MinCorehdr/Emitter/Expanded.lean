import MinCorehdr.Emitter.Forwards

/-!
# Headers with pointers followed

With `--expand-pointers` the closure takes every reference that the walks and the
printer take.  A header of such a closure names nothing that was not introduced
before, with one exception: typedefs inside a record without a name that lies behind
a pointer, where the walks stop.
-/

namespace MinCorehdr

open Relation Support.Result

/-! ## Names in use -/

/-- The items introduce a tag: they declare it forward, or define it. -/
def IntroducesTag (items : List Item) (keyword name : CString) : Prop :=
  ∃ id, .forwardDecl id keyword name ∈ items ∨ (∃ body, .recordDef id keyword name body ∈ items) ∨
    keyword = "enum".toList ∧ ∃ values, .enumDef id name values ∈ items

/-- Every tag that a definition of the header uses was introduced earlier. -/
def TagsComeFirst (items : List Item) : Prop :=
  ∀ before item after, items = before ++ item :: after → ∀ id keyword name,
    .tagName id keyword name ∈ item.pieces → name ≠ [] → IntroducesTag before keyword name

/-- What a definition shows comes from a type that it expands. -/
theorem NodeShows.exists_ownPieces {ctx : EmitCtx} {node : Node} {piece : Piece}
    (h : NodeShows ctx node piece) (hmember : ∀ id i, piece ≠ .member id i) :
    ∃ start ∈ nodeTypes ctx node, ∃ id, Expands ctx start id ∧ piece ∈ ownPieces ctx id := by
  unfold NodeShows at h
  unfold nodeTypes
  cases htype : btfTypeById ctx.btf node.id with
  | none =>
      rw [htype] at h
      exact h.elim
  | some type =>
      rw [htype] at h
      cases node with
      | typedef id => exact ⟨type.type, List.mem_singleton.mpr rfl, h⟩
      | record id =>
          rcases h with hown | ⟨start, hstart, hshows⟩
          · obtain ⟨member, _, heq⟩ := List.mem_map.mp hown
            exact absurd heq.symm (hmember id member.2)
          · exact ⟨start, hstart, hshows⟩

/-- A tag in a declaration is that of a record, FWD or enum. -/
theorem tagName_of_ownPieces {ctx : EmitCtx} {id id' : Nat} {keyword name : CString}
    (h : .tagName id' keyword name ∈ ownPieces ctx id) :
    id' = id ∧ ∃ type, btfTypeById ctx.btf id = some type ∧ name = mchBtfTypeName ctx.btf type ∧
      ((type.kind.isRecord = true ∨ type.kind = .fwd) ∧ keyword = recordKeyword type ∨
        isEnumKind type = true ∧ keyword = "enum".toList) := by
  unfold ownPieces at h
  cases htype : btfTypeById ctx.btf id with
  | none => simp [htype] at h
  | some type =>
      by_cases hname : mchBtfTypeName ctx.btf type = [] <;> cases hkind : type.kind <;>
        simp [htype, hkind, hname] at h
      all_goals
        obtain ⟨rfl, rfl, hname'⟩ := h
        refine ⟨rfl, type, rfl, by simpa [hname] using hname', ?_⟩
        simp [hkind, Kind.isRecord, isEnumKind]

theorem exists_node_of_piece {item : Item} {piece : Piece} (h : piece ∈ item.pieces) :
    ∃ node, item.node? = some node := by
  cases item with
  | typedefDef id name decl => exact ⟨.typedef id, rfl⟩
  | recordDef id keyword name body => exact ⟨.record id, rfl⟩
  | _ => cases h

/-- The tags come first where every tag in use is required. -/
theorem Layout.tagsComeFirst {ctx : EmitCtx} {required : TypeSet} {fwds enums defs : List Item}
    (h : Layout ctx required fwds enums defs)
    (hrequired : ∀ node, Reached ctx required.ids node → ∀ id keyword name,
      NodeShows ctx node (.tagName id keyword name) → id ∈ required.ids) :
    TagsComeFirst (headerItems fwds enums defs) := by
  intro before item after hsplit id keyword name hpiece hname
  obtain ⟨node, hnode⟩ := exists_node_of_piece hpiece
  obtain ⟨pre, post, hdefs, hbefore⟩ := h.split hsplit hnode
  have hitem : item ∈ headerItems fwds enums defs := by
    rw [hsplit]
    simp
  obtain ⟨hreached, hfrom⟩ := h.reached_of_mem hitem hnode
  have htagged : ¬(Piece.tagName id keyword name).IsText := fun htext => htext
  have hshows := (nodeShows_of_item hfrom hnode _ htagged).mp hpiece
  have hid := hrequired node hreached id keyword name hshows
  obtain ⟨start, _, to_, _, hown⟩ := hshows.exists_ownPieces (by simp)
  obtain ⟨rfl, type, htype, hname', htag⟩ := tagName_of_ownPieces hown
  have hfront : ∀ other ∈ headerFront fwds enums, other ∈ before := by
    intro other hother
    rw [hbefore]
    exact List.mem_append_left _ hother
  refine ⟨id, ?_⟩
  rcases htag with ⟨hkind, hkeyword⟩ | ⟨henum, hkeyword⟩
  · left
    apply hfront
    have hforward : isForwardable ctx.btf type = true := by
      rw [hname'] at hname
      simpa [isForwardable, hname] using hkind
    have hmem : forwardItem ctx id ∈ fwds := by
      rw [h.fwds_eq]
      apply List.mem_map_of_mem
      exact List.mem_filter.mpr
        ⟨mem_requiredIds.mpr hid, hasType_eq_true.mpr ⟨type, htype, hforward⟩⟩
    have hitem : forwardItem ctx id = .forwardDecl id keyword name := by
      simp [forwardItem, htype, hkeyword, hname']
    rw [hitem] at hmem
    exact List.mem_append_left _ (List.mem_append_right _ hmem)
  · refine Or.inr (Or.inr ⟨hkeyword, enumerators ctx.btf type, ?_⟩)
    apply hfront
    have hmem := (h.enumItem_mem_front htype henum).mpr hid
    have hitem : enumItem ctx id = .enumDef id name (enumerators ctx.btf type) := by
      simp [enumItem, htype, hname']
    rw [hitem] at hmem
    exact hmem

/-! ## The closure takes every reference -/

section

variable {base : Btf} {options : ClosureOptions}

/-- The context in which a closure under `options` is emitted. -/
def optionsCtx (base : Btf) (options : ClosureOptions) : EmitCtx :=
  emitCtx base options.requirements

theorem mem_typeDeps_of_declTargets (hexpand : options.expandPointers = true) {id to_ : Nat}
    {type : BtfType} (htype : btfTypeById base id = some type)
    (h : to_ ∈ declTargets (optionsCtx base options) id) : to_ ∈ typeDeps options id type := by
  unfold declTargets at h
  rw [show btfTypeById (optionsCtx base options).btf id = some type from htype] at h
  unfold typeDeps
  rw [hexpand]
  cases hkind : type.kind with
  | struct | union =>
      simp only [hkind] at h ⊢
      split at h
      · exact h
      · cases h
  | typedef =>
      simp only [hkind] at h ⊢
      split at h
      · exact h
      · cases h
  | _ => simp_all

theorem mem_typeDeps_of_hardTargets {id to_ : Nat} {type : BtfType}
    (htype : btfTypeById base id = some type)
    (h : to_ ∈ hardTargets (optionsCtx base options) id) : to_ ∈ typeDeps options id type := by
  unfold hardTargets at h
  rw [show btfTypeById (optionsCtx base options).btf id = some type from htype] at h
  unfold typeDeps
  cases hkind : type.kind with
  | struct | union =>
      simp only [hkind] at h ⊢
      split at h
      · cases h
      · exact h
  | _ => simp_all

/-- Void, or a type of the closure. -/
def VoidOrClosed (base : Btf) (options : ClosureOptions) (seeds : TypeSet) (id : Nat) : Prop :=
  id = 0 ∨ id ∈ closureSet base options seeds

variable {seeds : TypeSet}

theorem VoidOrClosed.next {id to_ : Nat} (h : VoidOrClosed base options seeds id) {type : BtfType}
    (htype : btfTypeById base id = some type) (hto : to_ ∈ typeDeps options id type) :
    VoidOrClosed base options seeds to_ := by
  rcases h with rfl | ⟨seed, hseed, hreach⟩
  · cases htype
    cases hto
  · by_cases hzero : to_ = 0
    · exact Or.inl hzero
    · exact Or.inr ⟨seed, hseed, hreach.tail ((closureNext_iff htype).mpr ⟨hto, hzero⟩)⟩

theorem exists_type_of_mem_declTargets {ctx : EmitCtx} {id to_ : Nat}
    (h : to_ ∈ declTargets ctx id) : ∃ type, btfTypeById ctx.btf id = some type := by
  unfold declTargets at h
  cases htype : btfTypeById ctx.btf id with
  | none => simp [htype] at h
  | some type => exact ⟨type, rfl⟩

theorem VoidOrClosed.expands (hexpand : options.expandPointers = true) {start to_ : Nat}
    (hstart : VoidOrClosed base options seeds start)
    (h : Expands (optionsCtx base options) start to_) : VoidOrClosed base options seeds to_ := by
  induction h with
  | refl => exact hstart
  | tail _ hstep ih =>
      obtain ⟨type, htype⟩ := exists_type_of_mem_declTargets hstep
      exact ih.next htype (mem_typeDeps_of_declTargets hexpand htype hstep)

theorem VoidOrClosed.byValue {start to_ : Nat} (hstart : VoidOrClosed base options seeds start)
    (h : ByValue (optionsCtx base options) start to_) : VoidOrClosed base options seeds to_ := by
  induction h with
  | refl => exact hstart
  | @tail mid last _ hstep ih =>
      cases htype : btfTypeById base mid with
      | none =>
          unfold hardTargets at hstep
          rw [show btfTypeById (optionsCtx base options).btf mid = none from htype] at hstep
          cases hstep
      | some type => exact ih.next htype (mem_typeDeps_of_hardTargets htype hstep)

theorem VoidOrClosed.nodeTypes {node : Node} {start : Nat}
    (h : node.id ∈ closureSet base options seeds) (hisNode : isNode (optionsCtx base options) node)
    (hstart : start ∈ nodeTypes (optionsCtx base options) node) :
    VoidOrClosed base options seeds start := by
  obtain ⟨type, htype, hfits⟩ := isNode_eq_true.mp hisNode
  refine VoidOrClosed.next (Or.inr h) htype ?_
  unfold MinCorehdr.nodeTypes at hstart
  rw [htype] at hstart
  unfold typeDeps
  cases node with
  | record id =>
      change start ∈ keptTypes (keepsMember options.requirements) id type at hstart
      rcases kind_of_isNamedRecord hfits with hkind | hkind <;> rw [hkind] <;> exact hstart
  | typedef id =>
      have hkind : type.kind = .typedef := by
        simpa using (Bool.and_eq_true_iff.mp hfits).1
      simpa [hkind] using hstart

theorem VoidOrClosed.walkReaches (hexpand : options.expandPointers = true) {start to_ : Mode × Nat}
    (hstart : VoidOrClosed base options seeds start.2)
    (h : WalkReaches (optionsCtx base options) start to_) :
    VoidOrClosed base options seeds to_.2 := by
  induction h with
  | refl => exact hstart
  | @tail mid last _ hstep ih =>
      obtain ⟨mode, id⟩ := mid
      cases mode with
      | soft =>
          obtain ⟨target, htarget, rfl⟩ := List.mem_map.mp hstep
          exact ih.expands hexpand (.single (mem_declTargets_of_softTargets htarget))
      | hard =>
          simp only [walkTargets] at hstep
          split at hstep
          next =>
            rw [List.mem_singleton.mp hstep]
            exact ih
          next =>
            obtain ⟨target, htarget, rfl⟩ := List.mem_map.mp hstep
            exact ih.byValue (.single htarget)

theorem ne_zero_of_isNode {ctx : EmitCtx} {node : Node} (h : isNode ctx node = true) :
    node.id ≠ 0 := by
  intro hzero
  obtain ⟨type, htype, hfits⟩ := isNode_eq_true.mp h
  rw [hzero] at htype
  cases htype
  cases node <;> cases hfits

theorem id_of_mem_walkNodes {ctx : EmitCtx} {at_ : Mode × Nat} {node : Node}
    (h : node ∈ walkNodes ctx at_) : node.id = at_.2 := by
  unfold walkNodes at h
  cases htype : btfTypeById ctx.btf at_.2 with
  | none => simp [htype] at h
  | some type =>
      simp only [htype] at h
      split at h
      · rw [List.mem_singleton.mp h]
        rfl
      · split at h
        · rw [List.mem_singleton.mp h]
          rfl
        · cases h

/-- Every definition in reach is one of a type of the closure. -/
theorem mem_closureSet_of_reached (hexpand : options.expandPointers = true) {node : Node}
    (h : Reached (optionsCtx base options) (closureSet base options seeds) node) :
    node.id ∈ closureSet base options seeds := by
  obtain ⟨first, hfirst, hisNode, hreach⟩ := h
  induction hreach with
  | refl => exact hfirst
  | @tail mid last hmid hneeds ih =>
      have hreached : Reached (optionsCtx base options) (closureSet base options seeds) mid :=
        ⟨first, hfirst, hisNode, hmid⟩
      have hlast := ne_zero_of_isNode hneeds.isNode
      obtain ⟨start, hstart, to_, hwalk, hnode⟩ := hneeds
      have hclosed := (VoidOrClosed.nodeTypes ih hreached.isNode
        (nodeTypes_of_nodeStarts hstart)).walkReaches hexpand hwalk
      rw [id_of_mem_walkNodes hnode] at hlast ⊢
      exact hclosed.resolve_left hlast

/-- Every type that a definition in reach expands is one of the closure. -/
theorem mem_closureSet_of_shown (hexpand : options.expandPointers = true) {node : Node}
    (h : Reached (optionsCtx base options) (closureSet base options seeds) node) {start id : Nat}
    (hstart : start ∈ nodeTypes (optionsCtx base options) node)
    (hexpands : Expands (optionsCtx base options) start id) (hzero : id ≠ 0) :
    id ∈ closureSet base options seeds := by
  have hnode := mem_closureSet_of_reached hexpand h
  exact ((VoidOrClosed.nodeTypes hnode h.isNode hstart).expands hexpand hexpands).resolve_left hzero

end

/-! ## Typedefs -/

/-- The soft walks of the definitions in reach meet no record and no typedef without
a name, where they stop and the printer goes on. -/
def NamedBehindPointers (ctx : EmitCtx) (required : Set Nat) : Prop :=
  ∀ node, Reached ctx required node → ∀ start ∈ nodeStarts ctx node, ∀ id type,
    WalkReaches ctx start (.soft, id) → btfTypeById ctx.btf id = some type →
      type.kind.isRecord = true ∨ type.kind = .typedef → mchBtfTypeName ctx.btf type ≠ []

theorem exists_nodeStart {ctx : EmitCtx} {node : Node} {id : Nat} (h : id ∈ nodeTypes ctx node) :
    ∃ mode, (mode, id) ∈ nodeStarts ctx node := by
  unfold nodeTypes at h
  unfold nodeStarts
  cases node with
  | record other =>
      cases htype : btfTypeById ctx.btf other with
      | none => simp [Node.id, htype] at h
      | some type =>
          simp only [Node.id, htype] at h ⊢
          exact ⟨.hard, List.mem_map_of_mem h⟩
  | typedef other =>
      cases htype : btfTypeById ctx.btf other with
      | none => simp [Node.id, htype] at h
      | some type =>
          simp only [Node.id, htype] at h ⊢
          rw [List.mem_singleton.mp h]
          exact ⟨_, List.mem_singleton.mpr rfl⟩

/-- Where everything behind pointers has a name, the walk goes wherever the printer goes. -/
theorem walkReaches_of_expands {ctx : EmitCtx} {required : Set Nat}
    (hnamed : NamedBehindPointers ctx required) {node : Node} (hnode : Reached ctx required node)
    {start : Mode × Nat} (hstart : start ∈ nodeStarts ctx node) {id : Nat}
    (h : Expands ctx start.2 id) : ∃ mode, WalkReaches ctx start (mode, id) := by
  induction h with
  | refl => exact ⟨start.1, .refl⟩
  | @tail mid last _ hstep ih =>
      obtain ⟨mode, hwalk⟩ := ih
      obtain ⟨type, htype⟩ := exists_type_of_mem_declTargets hstep
      have hsoft : WalkReaches ctx start (.soft, mid) → last ∈ softTargets ctx mid := by
        intro hreach
        have hname := hnamed node hnode start hstart mid type hreach htype
        unfold declTargets at hstep
        unfold softTargets
        rw [htype] at hstep ⊢
        cases hkind : type.kind <;> simp_all [Kind.isRecord]
      cases mode with
      | soft => exact ⟨.soft, hwalk.tail (List.mem_map_of_mem (hsoft hwalk))⟩
      | hard =>
          by_cases henters : entersSoft ctx mid = true
          · have henter : WalkReaches ctx start (.soft, mid) := by
              refine hwalk.tail ?_
              change (Mode.soft, mid) ∈ if entersSoft ctx mid then _ else _
              rw [if_pos henters]
              exact List.mem_singleton.mpr rfl
            exact ⟨.soft, henter.tail (List.mem_map_of_mem (hsoft henter))⟩
          · refine ⟨.hard, hwalk.tail ?_⟩
            change (Mode.hard, last) ∈ if entersSoft ctx mid then _ else _
            rw [if_neg henters]
            apply List.mem_map_of_mem
            unfold declTargets at hstep
            unfold hardTargets
            unfold entersSoft at henters
            rw [htype] at hstep henters ⊢
            cases hkind : type.kind <;> simp_all [isNamedRecord]

theorem needs_of_shown {ctx : EmitCtx} {required : Set Nat}
    (hnamed : NamedBehindPointers ctx required) {node : Node} (hnode : Reached ctx required node)
    {id : Nat} {name : CString} (h : NodeShows ctx node (.typedefName id name)) :
    Needs ctx node (.typedef id) := by
  obtain ⟨start, hstart, to_, hexpands, hown⟩ := h.exists_ownPieces (by simp)
  obtain ⟨rfl, type, htype, htypedef, _⟩ := typedefName_of_ownPieces hown
  obtain ⟨mode, hmode⟩ := exists_nodeStart hstart
  obtain ⟨mode', hwalk⟩ := walkReaches_of_expands hnamed hnode hmode hexpands
  refine ⟨(mode, start), hmode, (mode', id), hwalk, ?_⟩
  simp [walkNodes, htype, htypedef]

/-! ## Whole runs -/

/-- With pointers followed, a header defines types of the closure only, and every tag
and every enum it uses was introduced before; so was every typedef, if everything
behind its pointers has a name. -/
theorem closeAndEmit_namesFirst {base : Btf} {seeds : TypeSet} {options : ClosureOptions}
    {fuel : Nat} {items : List Item} {added : Nat} (hexpand : options.expandPointers = true)
    (hcount : seeds.count = btfTypeCnt base)
    (h : closeAndEmit fuel base seeds options = .ok (items, added)) :
    (∀ node ∈ definedNodes items, node.id ∈ closureSet base options seeds) ∧
    TagsComeFirst items ∧ EnumsComeFirst (emitCtx base options.requirements) items ∧
    (NamedBehindPointers (emitCtx base options.requirements) (closureSet base options seeds) →
      TypedefsComeFirst items) := by
  obtain ⟨required, fwds, enums, defs, rfl, hids, hlayout⟩ := closeAndEmit_layout hcount h
  change Layout (optionsCtx base options) required fwds enums defs at hlayout
  refine ⟨?_, ?_, ?_, ?_⟩
  · intro node hnode
    obtain ⟨item, hitem, hitemNode⟩ := List.mem_filterMap.mp hnode
    obtain ⟨hreached, _⟩ := hlayout.reached_of_mem hitem hitemNode
    rw [hids] at hreached
    exact mem_closureSet_of_reached hexpand hreached
  · apply hlayout.tagsComeFirst
    rw [hids]
    intro node hreached id keyword name hshows
    obtain ⟨start, hstart, to_, hexpands, hown⟩ := hshows.exists_ownPieces (by simp)
    obtain ⟨rfl, type, htype, _, htag⟩ := tagName_of_ownPieces hown
    refine mem_closureSet_of_shown hexpand hreached hstart hexpands ?_
    rintro rfl
    cases htype
    rcases htag with ⟨hrecord | hfwd, _⟩ | ⟨henum, _⟩
    · cases hrecord
    · cases hfwd
    · cases henum
  · apply hlayout.enumsComeFirst_iff.mpr
    rw [hids]
    rintro node hreached id ⟨start, hstart, hparts⟩ henum
    have hnode := mem_closureSet_of_reached hexpand hreached
    refine ((VoidOrClosed.nodeTypes hnode hreached.isNode hstart).byValue hparts).resolve_left ?_
    rintro rfl
    cases henum
  · intro hnamed
    apply hlayout.typedefsComeFirst
    rw [hids]
    intro node hreached id name hshows
    exact needs_of_shown hnamed hreached hshows

theorem enumBehindPointer_namedBehindPointers (required : Set Nat) :
    NamedBehindPointers (emitCtx enumBehindPointer none) required := by
  intro node hreached start hstart id type hwalk htype
  have hnode : node ∈ [Node.record 1, .typedef 3] := mem_of_isNode (by decide) hreached.isNode
  have hstarts : ∀ node ∈ [Node.record 1, .typedef 3],
      ∀ start ∈ nodeStarts (emitCtx enumBehindPointer none) node,
        start ∈ [(Mode.hard, 2), (.soft, 2), (.soft, 3), (.soft, 4)] := by
    decide
  have hmem : (Mode.soft, id) ∈ [(Mode.hard, 2), (.soft, 2), (.soft, 3), (.soft, 4)] :=
    mem_of_follow (by decide) (hstarts node hnode start hstart) hwalk
  have hnamed : ∀ at_ ∈ [(Mode.hard, 2), (.soft, 2), (.soft, 3), (.soft, 4)],
      ∀ type ∈ btfTypeById enumBehindPointer at_.2, type.kind.isRecord = true ∨ type.kind = .typedef →
        mchBtfTypeName enumBehindPointer type ≠ [] := by
    decide
  exact hnamed _ hmem type htype

theorem closeAndEmit_namesFirst_enumBehindPointer :
    TagsComeFirst (headerItems [.forwardDecl 1 "struct".toList ['R']]
        [.enumDef 4 ['E'] [{ name := ['A'], value := ['1'] }]] enumBehindPointerDefs) ∧
      TypedefsComeFirst (headerItems [.forwardDecl 1 "struct".toList ['R']]
        [.enumDef 4 ['E'] [{ name := ['A'], value := ['1'] }]] enumBehindPointerDefs) := by
  have hrun : closeAndEmit 10 enumBehindPointer (seedsOf enumBehindPointer [1])
      { expandPointers := true } = .ok (headerItems [.forwardDecl 1 "struct".toList ['R']]
        [.enumDef 4 ['E'] [{ name := ['A'], value := ['1'] }]] enumBehindPointerDefs, 3) := by
    decide +kernel
  have hnames := closeAndEmit_namesFirst rfl (by decide) hrun
  exact ⟨hnames.2.1, hnames.2.2.2 (enumBehindPointer_namedBehindPointers _)⟩

end MinCorehdr
