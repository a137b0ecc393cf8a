import MinCorehdr.Emitter.Layout

/-!
# What the walks pass and the printer expands

The walks and the printer follow the same references, except that the hard walk
goes on behind a typedef.  What a walk passes is therefore printed by the
definition it starts from, or by that of a typedef it passes.
-/

namespace MinCorehdr

open Relation Support.DepthFirst Support.Result

/-- The types a definition starts from: those of the kept members, or the target
of the typedef. -/
def nodeTypes (ctx : EmitCtx) (node : Node) : List Nat :=
  match btfTypeById ctx.btf node.id with
  | none => []
  | some type =>
      match node with
      | .record id => keptTypes ctx.keeps id type
      | .typedef _ => [type.type]

/-- `id` is a part of `from_` in C: an array element, a typedef's target, the
type behind a qualifier or tag, or a kept member of a record without a name. -/
def ByValue (ctx : EmitCtx) : Nat → Nat → Prop :=
  ReflTransGen (fun from_ to_ => to_ ∈ hardTargets ctx from_)

def UsesByValue (ctx : EmitCtx) (node : Node) (id : Nat) : Prop :=
  ∃ start ∈ nodeTypes ctx node, ByValue ctx start id

/-- A definition in reach prints the body of `id`, itself or inside. -/
def IsExpanded (ctx : EmitCtx) (required : Set Nat) (id : Nat) : Prop :=
  ∃ node, Reached ctx required node ∧ ∃ start ∈ nodeTypes ctx node, Expands ctx start id

/-! ## Definitions of a layout -/

theorem Layout.reached_of_mem {ctx : EmitCtx} {required : TypeSet} {fwds enums defs : List Item}
    (h : Layout ctx required fwds enums defs) {item : Item} {node : Node}
    (hitem : item ∈ headerItems fwds enums defs) (hnode : item.node? = some node) :
    Reached ctx required.ids node ∧ item.FromWalk ctx := by
  obtain ⟨before, after, hsplit⟩ := List.append_of_mem hitem
  obtain ⟨pre, post, hdefs, _⟩ := h.split hsplit hnode
  refine ⟨?_, h.defs_from item (by rw [hdefs]; simp)⟩
  rw [← h.mem_definedNodes_iff, hdefs, definedNodes_split hnode]
  simp

theorem Layout.exists_item {ctx : EmitCtx} {required : TypeSet} {fwds enums defs : List Item}
    (h : Layout ctx required fwds enums defs) {node : Node}
    (hreached : Reached ctx required.ids node) :
    ∃ item ∈ headerItems fwds enums defs, item.node? = some node ∧ item.FromWalk ctx := by
  obtain ⟨pre, item, post, hdefs, hnode⟩ :=
    exists_item_of_mem_definedNodes ((h.mem_definedNodes_iff node).mpr hreached)
  have hitem : item ∈ defs := by
    rw [hdefs]
    simp
  exact ⟨item, by simp [headerItems, hitem], hnode, h.defs_from item hitem⟩

/-- An item with pieces of its own is a definition in reach. -/
theorem Layout.exists_node {ctx : EmitCtx} {required : TypeSet} {fwds enums defs : List Item}
    (h : Layout ctx required fwds enums defs) {item : Item} {piece : Piece}
    (hitem : item ∈ headerItems fwds enums defs) (hpiece : piece ∈ item.pieces) :
    ∃ node, item.node? = some node ∧ Reached ctx required.ids node ∧ item.FromWalk ctx := by
  obtain ⟨node, hnode⟩ : ∃ node, item.node? = some node := by
    cases item with
    | text _ => cases hpiece
    | forwardDecl _ _ _ => cases hpiece
    | enumDef _ _ _ => cases hpiece
    | typedefDef id name decl => exact ⟨_, rfl⟩
    | recordDef id keyword name body => exact ⟨_, rfl⟩
  exact ⟨node, hnode, h.reached_of_mem hitem hnode⟩

/-! ## Walks and expansions -/

theorem mem_declTargets_of_softTargets {ctx : EmitCtx} {id to_ : Nat}
    (h : to_ ∈ softTargets ctx id) : to_ ∈ declTargets ctx id := by
  unfold softTargets at h
  unfold declTargets
  cases htype : btfTypeById ctx.btf id with
  | none => simp [htype] at h
  | some type => cases hkind : type.kind <;> simp_all

/-- The hard walk goes where the printer goes, and through named typedefs. -/
theorem mem_declTargets_of_hardTargets {ctx : EmitCtx} {id to_ : Nat}
    (h : to_ ∈ hardTargets ctx id) : to_ ∈ declTargets ctx id ∨
      ∃ type, btfTypeById ctx.btf id = some type ∧ isNamedTypedef ctx.btf type = true ∧
        to_ = type.type := by
  unfold hardTargets at h
  unfold declTargets
  cases htype : btfTypeById ctx.btf id with
  | none => simp [htype] at h
  | some type =>
      by_cases hname : mchBtfTypeName ctx.btf type = [] <;> cases hkind : type.kind <;>
        simp_all [isNamedRecord, isNamedTypedef, Kind.isRecord]

theorem nodeTypes_of_nodeStarts {ctx : EmitCtx} {node : Node} {start : Mode × Nat}
    (h : start ∈ nodeStarts ctx node) : start.2 ∈ nodeTypes ctx node := by
  unfold nodeStarts at h
  unfold nodeTypes
  cases node with
  | record id =>
      cases htype : btfTypeById ctx.btf id with
      | none => simp [htype] at h
      | some type =>
          simp only [htype] at h
          obtain ⟨to_, hto, rfl⟩ := List.mem_map.mp h
          simpa [Node.id, htype] using hto
  | typedef id =>
      cases htype : btfTypeById ctx.btf id with
      | none => simp [htype] at h
      | some type => simp_all [Node.id]

/-- A definition that expands a named typedef shows its name. -/
theorem nodeShows_of_expands {ctx : EmitCtx} {node : Node} {start id : Nat} {type : BtfType}
    (hstart : start ∈ nodeTypes ctx node) (hexpands : Expands ctx start id)
    (htype : btfTypeById ctx.btf id = some type) (hnamed : isNamedTypedef ctx.btf type = true) :
    NodeShows ctx node (.typedefName id (mchBtfTypeName ctx.btf type)) := by
  obtain ⟨hkind, hname⟩ : type.kind = .typedef ∧ mchBtfTypeName ctx.btf type ≠ [] := by
    simpa [isNamedTypedef] using hnamed
  have hshows : Shows ctx start (.typedefName id (mchBtfTypeName ctx.btf type)) :=
    ⟨id, hexpands, by simp [ownPieces, htype, hkind, hname]⟩
  unfold nodeTypes at hstart
  unfold NodeShows
  cases hown : btfTypeById ctx.btf node.id with
  | none => simp [hown] at hstart
  | some own =>
      cases node with
      | record nodeId =>
          right
          exact ⟨start, by simpa [hown] using hstart, hshows⟩
      | typedef nodeId =>
          obtain rfl : start = own.type := by simpa [hown] using hstart
          exact hshows

/-- A definition that mentions a typedef expands it. -/
theorem NodeShows.exists_expands {ctx : EmitCtx} {node : Node} {id : Nat} {name : CString}
    (h : NodeShows ctx node (.typedefName id name)) :
    ∃ start ∈ nodeTypes ctx node, Expands ctx start id := by
  have hexpands : ∀ {start : Nat}, Shows ctx start (.typedefName id name) → Expands ctx start id := by
    rintro start ⟨last, hexpands, hpiece⟩
    obtain ⟨rfl, _⟩ := typedefName_of_ownPieces hpiece
    exact hexpands
  unfold NodeShows at h
  unfold nodeTypes
  cases htype : btfTypeById ctx.btf node.id with
  | none => simp [htype] at h
  | some type =>
      cases node with
      | record own =>
          obtain ⟨start, hstart, hshows⟩ : ∃ to_ ∈ keptTypes ctx.keeps own type,
              Shows ctx to_ (.typedefName id name) := by
            simpa [htype] using h
          exact ⟨start, hstart, hexpands hshows⟩
      | typedef own =>
          have hshows : Shows ctx type.type (.typedefName id name) := by
            simpa [htype] using h
          exact ⟨type.type, List.mem_singleton_self _, hexpands hshows⟩

/-- `node` mentions the typedef that `dep` defines. -/
def MentionsNode (ctx : EmitCtx) (node dep : Node) : Prop :=
  ∃ id name, dep = .typedef id ∧ NodeShows ctx node (.typedefName id name)

/-- What a walk from `node` passes is expanded by `node` or by a typedef it needs,
which is mentioned on the way. -/
theorem exists_printer {ctx : EmitCtx} {node : Node} {start to_ : Mode × Nat}
    (hstart : start ∈ nodeStarts ctx node) (h : WalkReaches ctx start to_) :
    ∃ printer, (printer = node ∨ Needs ctx node printer) ∧
      ReflTransGen (MentionsNode ctx) node printer ∧
      ∃ from_ ∈ nodeTypes ctx printer, Expands ctx from_ to_.2 := by
  induction h with
  | refl => exact ⟨node, Or.inl rfl, .refl, start.2, nodeTypes_of_nodeStarts hstart, .refl⟩
  | @tail mid last hmid hstep ih =>
      obtain ⟨printer, hprinter, hchain, from_, hfrom, hexpands⟩ := ih
      obtain ⟨mode, id⟩ := mid
      cases mode with
      | soft =>
          obtain ⟨to_, hto, rfl⟩ := List.mem_map.mp hstep
          exact ⟨printer, hprinter, hchain, from_, hfrom,
            hexpands.tail (mem_declTargets_of_softTargets hto)⟩
      | hard =>
          simp only [walkTargets] at hstep
          split at hstep
          next =>
            rw [List.mem_singleton.mp hstep]
            exact ⟨printer, hprinter, hchain, from_, hfrom, hexpands⟩
          next =>
            obtain ⟨to_, hto, rfl⟩ := List.mem_map.mp hstep
            rcases mem_declTargets_of_hardTargets hto with hmem | ⟨type, htype, hnamed, rfl⟩
            · exact ⟨printer, hprinter, hchain, from_, hfrom, hexpands.tail hmem⟩
            · have hneeds : Needs ctx node (.typedef id) :=
                ⟨start, hstart, (.hard, id), hmid, by simp [walkNodes, htype, hnamed]⟩
              have hmention : MentionsNode ctx printer (.typedef id) :=
                ⟨id, _, rfl, nodeShows_of_expands hfrom hexpands htype hnamed⟩
              refine ⟨.typedef id, Or.inr hneeds, hchain.tail hmention, type.type, ?_, .refl⟩
              simp [nodeTypes, Node.id, htype]

/-- Every type a walk passes is printed by some definition in reach. -/
theorem isExpanded_of_walkReaches {ctx : EmitCtx} {required : Set Nat} {node : Node}
    (hnode : Reached ctx required node) {start to_ : Mode × Nat} (hstart : start ∈ nodeStarts ctx node)
    (h : WalkReaches ctx start to_) : IsExpanded ctx required to_.2 := by
  obtain ⟨printer, hprinter, _, hexpands⟩ := exists_printer hstart h
  refine ⟨printer, ?_, hexpands⟩
  rcases hprinter with rfl | hneeds
  · exact hnode
  · exact hnode.needs hneeds

/-- A walk that is hard to its end goes through parts by value. -/
theorem byValue_of_walkReaches {ctx : EmitCtx} {start to_ : Mode × Nat}
    (h : WalkReaches ctx start to_) (hmode : to_.1 = .hard) :
    start.1 = .hard ∧ ByValue ctx start.2 to_.2 := by
  induction h with
  | refl => exact ⟨hmode, .refl⟩
  | @tail mid last _ hstep ih =>
      obtain ⟨mode, id⟩ := mid
      cases mode with
      | soft =>
          obtain ⟨to_, _, rfl⟩ := List.mem_map.mp hstep
          cases hmode
      | hard =>
          obtain ⟨hstart, hparts⟩ := ih rfl
          simp only [walkTargets] at hstep
          split at hstep
          next =>
            rw [List.mem_singleton.mp hstep] at hmode
            cases hmode
          next =>
            obtain ⟨to_, hto, rfl⟩ := List.mem_map.mp hstep
            exact ⟨hstart, hparts.tail hto⟩

/-- The hard walk passes the parts of a type. -/
theorem walkReaches_of_byValue {ctx : EmitCtx} {start to_ : Nat} (h : ByValue ctx start to_) :
    WalkReaches ctx (.hard, start) (.hard, to_) := by
  induction h with
  | refl => exact .refl
  | @tail mid last _ hstep ih =>
      refine ih.tail ?_
      have hsoft : entersSoft ctx mid = false := by
        unfold hardTargets at hstep
        unfold entersSoft
        cases htype : btfTypeById ctx.btf mid with
        | none => rfl
        | some type => cases hkind : type.kind <;> simp_all
      simp only [walkTargets, hsoft, Bool.false_eq_true, if_false]
      exact List.mem_map_of_mem hstep

/-! ## Following references within a list -/

/-- Targets that stay in a list are followed within it. -/
theorem mem_of_follow {α : Type} {targets : α → List α} {ids : List α}
    (hclosed : ∀ id ∈ ids, ∀ to_ ∈ targets id, to_ ∈ ids) {start id : α} (hstart : start ∈ ids)
    (h : ReflTransGen (fun from_ to_ => to_ ∈ targets from_) start id) : id ∈ ids := by
  induction h with
  | refl => exact hstart
  | tail _ hstep ih => exact hclosed _ ih _ hstep

theorem NodeShows.follow {ctx : EmitCtx} {node : Node} {id : Nat} {name : CString}
    (h : NodeShows ctx node (.typedefName id name)) (ids : List Nat)
    (hfirst : ∀ start ∈ nodeTypes ctx node, start ∈ ids)
    (hclosed : ∀ mid ∈ ids, ∀ to_ ∈ declTargets ctx mid, to_ ∈ ids) {order : List Node}
    (hids : ∀ other ∈ ids, hasType ctx (isNamedTypedef ctx.btf) other = true →
      .typedef other ∈ order) : .typedef id ∈ order := by
  obtain ⟨start, hstart, hexpands⟩ := h.exists_expands
  obtain ⟨type, htype, hnamed, _⟩ := h.typedefName
  exact hids id (mem_of_follow hclosed (hfirst start hstart) hexpands)
    (hasType_eq_true.mpr ⟨type, htype, hnamed⟩)

theorem Needs.follow {ctx : EmitCtx} {node dep : Node} (h : Needs ctx node dep)
    (ats : List (Mode × Nat)) (hfirst : ∀ start ∈ nodeStarts ctx node, start ∈ ats)
    (hclosed : ∀ at_ ∈ ats, ∀ to_ ∈ walkTargets ctx at_, to_ ∈ ats) {order : List Node}
    (hats : ∀ at_ ∈ ats, ∀ other ∈ walkNodes ctx at_, other ∈ order) : dep ∈ order := by
  obtain ⟨start, hstart, to_, hreach, hmem⟩ := h
  exact hats to_ (mem_of_follow hclosed (hfirst start hstart) hreach) dep hmem

/-- The definitions of a BTF, found by looking at each of its ids. -/
theorem mem_of_isNode {ctx : EmitCtx} {order : List Node}
    (hall : ∀ id < btfTypeCnt ctx.btf, (isNode ctx (.record id) = true → .record id ∈ order) ∧
      (isNode ctx (.typedef id) = true → .typedef id ∈ order)) {node : Node}
    (hnode : isNode ctx node = true) : node ∈ order := by
  obtain ⟨type, htype, _⟩ := isNode_eq_true.mp hnode
  have hlt : node.id < btfTypeCnt ctx.btf := btfTypeById_eq_some_lt htype
  cases node with
  | record id => exact (hall id hlt).1 hnode
  | typedef id => exact (hall id hlt).2 hnode

end MinCorehdr
