import Mathlib.Data.Finset.Basic
import Mathlib.Order.WellFoundedSet
import MinCorehdr.Emitter.Halt
import MinCorehdr.Emitter.Meaning
import MinCorehdr.Emitter.Order

/-!
# When a header is printed

As long as no definitions need one another in a circle, a header is printed exactly where each
definition in reach can be printed by itself.
-/

namespace MinCorehdr

open Relation Support.DepthFirst Support.Fuel Support.Result

/-- The printer has a text for the definition. -/
def Printable (ctx : EmitCtx) (node : Node) : Prop :=
  ∃ type fuel item, btfTypeById ctx.btf node.id = some type ∧ nodeItem ctx fuel type node = .ok item

/-- The walks from the definition end, at types that there are, and it has a text. -/
structure Definable (ctx : EmitCtx) (node : Node) : Prop where
  ends : ∀ start ∈ nodeStarts ctx node, Ends (WalkStep ctx) start
  typed : ∀ start ∈ nodeStarts ctx node, ∀ to_, WalkReaches ctx start to_ →
    ∃ type, btfTypeById ctx.btf to_.2 = some type
  printable : Printable ctx node

theorem nodeItem_succ {ctx : EmitCtx} {fuel : Nat} {type : BtfType} {node : Node} {item : Item}
    (h : nodeItem ctx fuel type node = .ok item) : nodeItem ctx (fuel + 1) type node = .ok item := by
  cases node with
  | record id =>
      exact bind_ok_of_ok (fun _ hbody => (emitDeclEx_succ ctx fuel).emitRecordBody hbody)
        (fun _ _ hitem => hitem) h
  | typedef id =>
      exact bind_ok_of_ok (fun _ hdecl => emitDeclEx_succ ctx fuel _ _ _ hdecl)
        (fun _ _ hitem => hitem) h

theorem Printable.finishes {ctx : EmitCtx} {node : Node} {type : BtfType} (h : Printable ctx node)
    (htype : btfTypeById ctx.btf node.id = some type) :
    Finishes fun fuel => nodeItem ctx fuel type node := by
  obtain ⟨own, fuel, item, hown, hitem⟩ := h
  cases htype.symm.trans hown
  exact .of_succ (fun _ _ => nodeItem_succ) hitem

theorem emitForwardDecl_of_typed {ctx : EmitCtx} {id : Nat} {type : BtfType} (st : EmitState)
    (h : btfTypeById ctx.btf id = some type) : ∃ st', emitForwardDecl ctx id st = .ok st' := by
  unfold emitForwardDecl
  rw [typeById_of_some h, ok_bind]
  split
  · exact ⟨st, rfl⟩
  · dsimp only
    split
    · exact ⟨st, rfl⟩
    · exact ⟨_, rfl⟩

/-! ## The walks -/

/-- What is in progress needs the definition. -/
def Above (ctx : EmitCtx) (st : EmitState) (node : Node) : Prop :=
  ∀ other, st.mark other = .active → TransGen (Needs ctx) other node

theorem Visits.above {ctx : EmitCtx} {st st' : EmitState} {nodes : List Node} {node : Node}
    (h : Visits ctx st nodes st') (hst : Above ctx st node) : Above ctx st' node :=
  fun other hother => hst other ((h.run.active_iff other).mp hother)

/-- The definition is printed wherever it is asked for by what needs it. -/
def Defines (ctx : EmitCtx) (node : Node) : Prop :=
  ∀ st, st.ActiveFit ctx → Above ctx st node → Finishes fun fuel => defineNode ctx fuel st node

/-- A state from which what is `needed` may be asked for. -/
def Ready (ctx : EmitCtx) (needed : Node → Prop) (st : EmitState) : Prop :=
  st.ActiveFit ctx ∧ ∀ dep, needed dep → Above ctx st dep

theorem Ready.walkDeps {ctx : EmitCtx} {needed : Node → Prop} {start : Mode × Nat} {fuel : Nat}
    {st st' : EmitState} (h : Ready ctx needed st) (hwalk : walkDeps ctx fuel st start = .ok st') :
    Ready ctx needed st' := by
  obtain ⟨nodes, _, hvisits⟩ := (walk_and_define_visits ctx fuel).1 start st st' hwalk
  exact ⟨hvisits.activeFit h.1, fun dep hdep => hvisits.above (h.2 dep hdep)⟩

theorem Ready.of_imp {ctx : EmitCtx} {needed less : Node → Prop} {st : EmitState}
    (h : Ready ctx needed st) (hless : ∀ dep, less dep → needed dep) : Ready ctx less st :=
  ⟨h.1, fun dep hdep => h.2 dep (hless dep hdep)⟩

/-- While the definition is in progress, what it needs may be asked for. -/
theorem Ready.enter {ctx : EmitCtx} {node : Node} {st : EmitState} (hisNode : isNode ctx node = true)
    (hfit : st.ActiveFit ctx) (habove : Above ctx st node) :
    Ready ctx (Needs ctx node) (st.setMark node .active) := by
  have hactive : ∀ other, (st.setMark node .active).mark other = .active →
      other = node ∨ st.mark other = .active := by
    intro other hother
    rw [mark_setMark] at hother
    by_cases heq : other = node
    · exact Or.inl heq
    · rw [Function.update_of_ne heq] at hother
      exact Or.inr hother
  constructor
  · intro other hother
    rcases hactive other hother with rfl | hbefore
    · exact hisNode
    · exact hfit other hbefore
  · intro dep hdep other hother
    rcases hactive other hother with rfl | hbefore
    · exact .single hdep
    · exact (habove other hbefore).tail hdep

/-- A type that is no definition of this kind is passed over. -/
theorem defineNode_finishes_of_not_node {ctx : EmitCtx} {node : Node} {type : BtfType} {st : EmitState}
    (htype : btfTypeById ctx.btf node.id = some type) (hnot : isNode ctx node = false)
    (hst : st.ActiveFit ctx) : Finishes fun fuel => defineNode ctx fuel st node := by
  have hfits : node.Fits ctx type = false := by
    simpa [isNode, htype] using hnot
  apply Finishes.succ
  rcases defineNode_of_not_fits st htype hfits with heq | ⟨hactive, _⟩
  · simp only [heq]
    exact .ok _
  · rw [hst node hactive] at hnot
    cases hnot

theorem walkDeps_finishes {ctx : EmitCtx} {from_ : Mode × Nat} (hends : Ends (WalkStep ctx) from_)
    (htyped : ∀ to_, WalkReaches ctx from_ to_ → ∃ type, btfTypeById ctx.btf to_.2 = some type)
    (hdefines : ∀ dep, WalkNeeds ctx from_ dep → Defines ctx dep) :
    ∀ st, Ready ctx (WalkNeeds ctx from_) st → Finishes fun fuel => walkDeps ctx fuel st from_ := by
  induction hends with
  | intro from_ _ ih =>
      intro st hst
      obtain ⟨type, htype⟩ := htyped from_ .refl
      have hneeds : ∀ to_ ∈ walkTargets ctx from_, ∀ dep, WalkNeeds ctx to_ dep →
          WalkNeeds ctx from_ dep := fun to_ hto dep hdep => walkNeeds_iff.mpr (Or.inl ⟨to_, hto, hdep⟩)
      apply Finishes.succ
      simp only [walkDeps_succ htype]
      apply Finishes.bind
      · refine Finishes.foldlM (fun to_ _ fuel s t hs hwalk => hs.walkDeps hwalk) ?_ st hst
        intro to_ hto s hs
        exact ih to_ hto (fun last hlast => htyped last (.head hto hlast))
          (fun dep hdep => hdefines dep (hneeds to_ hto dep hdep)) s (hs.of_imp (hneeds to_ hto))
      · rintro mid ⟨fuel, hmid⟩
        have hready := foldlM_keeps (I := Ready ctx (WalkNeeds ctx from_))
          (fun to_ _ s t hs hwalk => hs.walkDeps hwalk) hst hmid
        rcases walkLeaf_cases htype with ⟨node, hid, hnodes, hleaf⟩ | ⟨_, hforward | hnothing⟩
        · simp only [hleaf]
          rw [← hid] at htype
          cases hisNode : isNode ctx node with
          | true =>
              have hneeds : WalkNeeds ctx from_ node := by
                rw [walkNeeds_iff, hnodes]
                exact Or.inr (by simp [ownNode, hisNode])
              exact hdefines node hneeds mid hready.1 (hready.2 node hneeds)
          | false => exact defineNode_finishes_of_not_node htype hisNode hready.1
        · simp only [hforward]
          obtain ⟨st', hst'⟩ := emitForwardDecl_of_typed mid htype
          exact .of_ok hst'
        · simp only [hnothing]
          exact .ok _

/-- A definition is printed where it and all that it needs, at any depth, can be. -/
theorem defines_of_definable {ctx : EmitCtx} {node : Node} (hends : Ends (Needs ctx) node)
    (hdefinable : ∀ dep, ReflTransGen (Needs ctx) node dep → Definable ctx dep)
    (hisNode : isNode ctx node = true) : Defines ctx node := by
  induction hends with
  | intro node hacc ih =>
      intro st hfit habove
      obtain ⟨type, htype, hfits⟩ := isNode_eq_true.mp hisNode
      have hown := hdefinable node .refl
      have hirrefl : ¬TransGen (Needs ctx) node node := Ends.irrefl (.intro hacc)
      apply Finishes.succ
      simp only [defineNode_of_fits htype hfits]
      cases hmark : st.mark node with
      | done => exact .ok _
      | active => exact absurd (habove node hmark) hirrefl
      | unseen =>
          apply Finishes.bind
          · refine Finishes.foldlM (fun start _ fuel s t hs hwalk => hs.walkDeps hwalk) ?_ _
              (Ready.enter hisNode hfit habove)
            intro start hstart s hs
            refine walkDeps_finishes (hown.ends start hstart) (hown.typed start hstart) ?_ s
              (hs.of_imp fun dep hdep => ⟨start, hstart, hdep⟩)
            intro dep hdep
            have hneeds : Needs ctx node dep := ⟨start, hstart, hdep⟩
            exact ih dep hneeds (fun last hlast => hdefinable last (.head hneeds hlast)) hneeds.isNode
          · intro mid _
            apply Finishes.bind (hown.printable.finishes htype)
            intro item _
            exact .ok _

/-! ## The whole header -/

section

variable {ctx : EmitCtx} {required : TypeSet}

theorem collectEmitGroups_finishes (htyped : ∀ id ∈ required.ids, ∃ type, btfTypeById ctx.btf id = some type) :
    Finishes fun _ => collectEmitGroups ctx required := by
  refine Finishes.foldlM (I := fun _ => True) (fun _ _ _ _ _ _ _ => trivial) ?_ _ trivial
  intro id hid groups _
  obtain ⟨type, htype⟩ := htyped id (mem_requiredIds.mp hid)
  unfold addToGroups
  rw [typeById_of_some htype]
  exact .ok _

/-- A loop over required definitions. -/
theorem defineLoop_finishes (htyped : ∀ id ∈ required.ids, ∃ type, btfTypeById ctx.btf id = some type)
    (hdefines : ∀ node, Reached ctx required.ids node → Defines ctx node) {ids : List Nat}
    {toNode : Nat → Node} (hids : ∀ id ∈ ids, (toNode id).id ∈ requiredIds required) {st : EmitState}
    (hst : st.Settled) :
    Finishes fun fuel => ids.foldlM (fun st id => defineNode ctx fuel st (toNode id)) st := by
  refine Finishes.foldlM (I := EmitState.Settled) ?_ ?_ st hst
  · intro id _ fuel s t hs hdefine
    exact (defineNode_visits hdefine).settled hs
  · intro id hid s hs
    have hrequired := mem_requiredIds.mp (hids id hid)
    have hfit : s.ActiveFit ctx := fun other hother => absurd hother (hs other)
    obtain ⟨type, htype⟩ := htyped _ hrequired
    cases hisNode : isNode ctx (toNode id) with
    | true =>
        have habove : Above ctx s (toNode id) := fun other hother => absurd hother (hs other)
        exact hdefines _ ⟨toNode id, hrequired, hisNode, .refl⟩ s hfit habove
    | false => exact defineNode_finishes_of_not_node htype hisNode hfit

theorem emitHeader_finishes (htyped : ∀ id ∈ required.ids, ∃ type, btfTypeById ctx.btf id = some type)
    (hdefines : ∀ node, Reached ctx required.ids node → Defines ctx node) :
    Finishes fun fuel => emitHeader ctx fuel required := by
  have hmem : ∀ {id : Nat} {test : BtfType → Bool},
      id ∈ (requiredIds required).filter (hasType ctx test) →
        id ∈ requiredIds required ∧ ∃ type, btfTypeById ctx.btf id = some type := by
    intro id test hid
    have hrequired := (List.mem_filter.mp hid).1
    exact ⟨hrequired, htyped id (mem_requiredIds.mp hrequired)⟩
  unfold emitHeader
  apply Finishes.bind (collectEmitGroups_finishes htyped)
  rintro groups ⟨_, hgroups⟩
  obtain ⟨_, hfwds, henums, hrecords, htypedefs⟩ := collectEmitGroups_eq hgroups
  simp only [List.nil_append] at hfwds henums hrecords htypedefs
  have hstart : ({ initialEmitState with out := headerOpening } : EmitState).Settled := by
    intro node
    cases node <;> exact Mark.noConfusion
  have hforward : ∀ id (s t : EmitState), s.Settled → emitForwardDecl ctx id s = .ok t →
      t.Settled := fun id s t hs ht => (emitForwardDecl_visits ht).settled hs
  apply Finishes.bind
  · refine Finishes.foldlM (I := fun _ => True) (fun _ _ _ _ _ _ _ => trivial) ?_ _ trivial
    intro id hid s _
    rw [hfwds] at hid
    obtain ⟨type, htype⟩ := (hmem hid).2
    obtain ⟨t, ht⟩ := emitForwardDecl_of_typed s htype
    exact .of_ok ht
  rintro stFwds ⟨_, hfwdLoop⟩
  have hstFwds := foldlM_keeps (fun id _ => hforward id) hstart hfwdLoop
  apply Finishes.bind
  · refine Finishes.foldlM (I := fun _ => True) (fun _ _ _ _ _ _ _ => trivial) ?_ _ trivial
    intro id hid s _
    rw [henums] at hid
    obtain ⟨type, htype⟩ := (hmem hid).2
    unfold emitEnumDefinition
    rw [typeById_of_some htype]
    exact .ok _
  rintro stEnums ⟨_, henumLoop⟩
  obtain ⟨_, hmarkEnums⟩ := enumLoop_eq henumLoop
  have hstEnums : stEnums.Settled := by
    intro node
    rw [hmarkEnums]
    exact hstFwds.print _ node
  apply Finishes.bind
  · refine @defineLoop_finishes _ _ htyped hdefines _ Node.typedef ?_ stEnums hstEnums
    intro id hid
    rw [htypedefs] at hid
    exact (hmem hid).1
  rintro stTypedefs ⟨fuel, htypedefLoop⟩
  have hstTypedefs := foldlM_keeps
    (fun id _ s t hs (ht : defineNode ctx fuel s (.typedef id) = .ok t) =>
      (defineNode_visits ht).settled hs) hstEnums htypedefLoop
  apply Finishes.bind
  · refine @defineLoop_finishes _ _ htyped hdefines _ Node.record ?_ stTypedefs hstTypedefs
    intro id hid
    rw [hrecords] at hid
    exact (hmem hid).1
  intro st _
  exact .ok _

/-- What needs one another in no circle ends. -/
theorem Reached.ends (hacyclic : ∀ node, Reached ctx required.ids node → ¬TransGen (Needs ctx) node node)
    {node : Node} (h : Reached ctx required.ids node) : Ends (Needs ctx) node := by
  refine Ends.of_finite (s := { node | Reached ctx required.ids node }) ?_ ?_ hacyclic h
  · refine (allNodes ctx).finite_toSet.subset fun other hother => ?_
    exact mem_allNodes hother.isNode
  · exact fun first hfirst dep hneeds => hfirst.needs hneeds

end

/-! ## A header does not depend on its budget -/

theorem defineFresh_succ {ctx : EmitCtx} {fuel : Nat} {type : BtfType} {node : Node}
    {st st' : EmitState}
    (ih : ∀ from_ s t, walkDeps ctx fuel s from_ = .ok t → walkDeps ctx (fuel + 1) s from_ = .ok t)
    (h : defineFresh ctx fuel type st node = .ok st') :
    defineFresh ctx (fuel + 1) type st node = .ok st' := by
  refine bind_ok_of_ok (fun mid hmid => ?_) (fun mid last hlast => ?_) h
  · exact foldlM_ok_of_ok (fun start _ => ih start) hmid
  · exact bind_ok_of_ok (fun _ hitem => nodeItem_succ hitem) (fun _ _ hdone => hdone) hlast

theorem walk_and_define_succ (ctx : EmitCtx) (fuel : Nat) :
    (∀ from_ st st', walkDeps ctx fuel st from_ = .ok st' →
      walkDeps ctx (fuel + 1) st from_ = .ok st') ∧
    (∀ node st st', defineNode ctx fuel st node = .ok st' →
      defineNode ctx (fuel + 1) st node = .ok st') := by
  induction fuel with
  | zero =>
      constructor
      · intro from_ st st' h
        rw [walkDeps_zero] at h
        cases h
      · intro node st st' h
        rw [defineNode_zero] at h
        cases h
  | succ fuel ih =>
      obtain ⟨ihWalk, ihDefine⟩ := ih
      constructor
      · intro from_ st st' h
        cases htype : btfTypeById ctx.btf from_.2 with
        | none =>
            rw [walkDeps_none htype] at h
            cases h
        | some type =>
            rw [walkDeps_succ htype] at h ⊢
            refine bind_ok_of_ok (fun mid hmid => ?_) (fun mid last hleaf => ?_) h
            · exact foldlM_ok_of_ok (fun to_ _ => ihWalk to_) hmid
            · rcases walkLeaf_cases htype with ⟨node, _, _, heq⟩ | ⟨_, hforward | hnothing⟩
              · rw [heq] at hleaf ⊢
                exact ihDefine node mid last hleaf
              · rw [hforward] at hleaf ⊢
                exact hleaf
              · rw [hnothing] at hleaf ⊢
                exact hleaf
      · intro node st st' h
        cases htype : btfTypeById ctx.btf node.id with
        | none =>
            rw [defineNode_none htype] at h
            cases h
        | some type =>
            cases hfits : node.Fits ctx type with
            | false =>
                rcases defineNode_of_not_fits st htype hfits with heq | ⟨_, heq⟩
                · rw [heq] at h ⊢
                  exact h
                · rw [heq] at h
                  cases h
            | true =>
                rw [defineNode_of_fits htype hfits] at h ⊢
                cases hmark : st.mark node with
                | unseen =>
                    rw [hmark] at h
                    exact defineFresh_succ ihWalk h
                | active =>
                    rw [hmark] at h
                    exact h
                | done =>
                    rw [hmark] at h
                    exact h

theorem emitHeader_succ {ctx : EmitCtx} {fuel : Nat} {required : TypeSet} {items : List Item}
    (h : emitHeader ctx fuel required = .ok items) :
    emitHeader ctx (fuel + 1) required = .ok items := by
  have hdefine : ∀ {ids : List Nat} {toNode : Nat → Node} {st st' : EmitState},
      ids.foldlM (fun st id => defineNode ctx fuel st (toNode id)) st = .ok st' →
        ids.foldlM (fun st id => defineNode ctx (fuel + 1) st (toNode id)) st = .ok st' :=
    foldlM_ok_of_ok fun id _ => (walk_and_define_succ ctx fuel).2 _
  refine bind_ok_of_ok (fun _ hgroups => hgroups) (fun groups _ h => ?_) h
  refine bind_ok_of_ok (fun _ hfwds => hfwds) (fun stFwds _ h => ?_) h
  refine bind_ok_of_ok (fun _ henums => henums) (fun stEnums _ h => ?_) h
  refine bind_ok_of_ok (fun _ hloop => @hdefine _ Node.typedef _ _ hloop) (fun stTypedefs _ h => ?_) h
  exact bind_ok_of_ok (fun _ hloop => @hdefine _ Node.record _ _ hloop) (fun _ _ hdone => hdone) h

/-- Two budgets that print a header print the same. -/
theorem emitHeader_unique {ctx : EmitCtx} {fuel fuel' : Nat} {required : TypeSet}
    {items items' : List Item} (h : emitHeader ctx fuel required = .ok items)
    (h' : emitHeader ctx fuel' required = .ok items') : items = items' := by
  have hsucc : ∀ fuel items, emitHeader ctx fuel required = .ok items →
      emitHeader ctx (fuel + 1) required = .ok items := fun _ _ => emitHeader_succ
  have hmore := ok_of_le hsucc h (Nat.le_max_left fuel fuel')
  have hmore' := ok_of_le hsucc h' (Nat.le_max_right fuel fuel')
  exact Except.ok.inj (hmore.symm.trans hmore')

/-! ## What a printed header says of its definitions -/

/-- A walk that succeeds has met types only that there are. -/
theorem typed_of_walkDeps (ctx : EmitCtx) (fuel : Nat) :
    ∀ from_ st st', walkDeps ctx fuel st from_ = .ok st' →
      ∀ to_, WalkReaches ctx from_ to_ → ∃ type, btfTypeById ctx.btf to_.2 = some type := by
  induction fuel with
  | zero =>
      intro from_ st st' h
      rw [walkDeps_zero] at h
      cases h
  | succ fuel ih =>
      intro from_ st st' h to_ hreach
      cases htype : btfTypeById ctx.btf from_.2 with
      | none =>
          rw [walkDeps_none htype] at h
          cases h
      | some type =>
          rcases hreach.cases_head with rfl | ⟨mid, hmid, hrest⟩
          · exact ⟨type, htype⟩
          · rw [walkDeps_succ htype] at h
            obtain ⟨_, htargets, _⟩ := bind_eq_ok.mp h
            obtain ⟨s, t, hwalk⟩ := ok_of_foldlM htargets hmid
            exact ih mid s t hwalk to_ hrest

theorem Definable.of_walked {ctx : EmitCtx} {node : Node} (hwalked : node.Walked ctx)
    (hprintable : Printable ctx node) : Definable ctx node := by
  obtain ⟨fuel, st, st', hwalks⟩ := hwalked
  constructor
  · intro start hstart
    obtain ⟨s, t, hwalk⟩ := ok_of_foldlM hwalks hstart
    exact ends_of_walkDeps ctx fuel start s t hwalk
  · intro start hstart
    obtain ⟨s, t, hwalk⟩ := ok_of_foldlM hwalks hstart
    exact typed_of_walkDeps ctx fuel start s t hwalk
  · exact hprintable

theorem definable_of_item {ctx : EmitCtx} {item : Item} {node : Node} (h : item.FromWalk ctx)
    (hnode : item.node? = some node) : Definable ctx node := by
  cases item with
  | text _ => cases hnode
  | forwardDecl _ _ _ => cases hnode
  | enumDef _ _ _ => cases hnode
  | typedefDef id name decl =>
      cases hnode
      obtain ⟨type, fuel, htype, _, hwalked, hitem⟩ := h
      exact .of_walked hwalked ⟨type, fuel, _, htype, hitem⟩
  | recordDef id keyword name body =>
      cases hnode
      obtain ⟨type, fuel, htype, _, hwalked, hitem⟩ := h
      exact .of_walked hwalked ⟨type, fuel, _, htype, hitem⟩

/-- The definitions in reach can be printed each by itself, and all required types are there. -/
structure HeaderDefinable (ctx : EmitCtx) (required : Set Nat) : Prop where
  typed : ∀ id ∈ required, ∃ type, btfTypeById ctx.btf id = some type
  definable : ∀ node, Reached ctx required node → Definable ctx node

theorem HeaderDefinable.of_emitHeader {ctx : EmitCtx} {fuel : Nat} {required : TypeSet}
    {items : List Item} (h : emitHeader ctx fuel required = .ok items) :
    HeaderDefinable ctx required.ids := by
  obtain ⟨fwds, enums, defs, _, hlayout⟩ := emitHeader_layout h
  constructor
  · exact fun id hid => hlayout.typed id (mem_requiredIds.mpr hid)
  · intro node hreached
    obtain ⟨item, _, hnode, hfrom⟩ := hlayout.exists_item hreached
    exact definable_of_item hfrom hnode

theorem HeaderDefinable.finishes {ctx : EmitCtx} {required : TypeSet}
    (h : HeaderDefinable ctx required.ids)
    (hacyclic : ∀ node, Reached ctx required.ids node → ¬TransGen (Needs ctx) node node) :
    Finishes fun fuel => emitHeader ctx fuel required := by
  refine emitHeader_finishes h.typed fun node hreached => ?_
  refine defines_of_definable (hreached.ends hacyclic) ?_ hreached.isNode
  intro dep hdep
  exact h.definable dep (hreached.trans hdep)

/-- Where the definitions in reach need one another in no circle, a header is printed exactly
if each of them can be printed by itself. -/
theorem mchEmitHeaderWithOptions_finishes_iff {base : Btf} {required : TypeSet}
    {requirements : Option Requirements}
    (hacyclic : ∀ node, Reached (emitCtx base requirements) required.ids node →
      ¬TransGen (Needs (emitCtx base requirements)) node node) :
    (Finishes fun fuel => mchEmitHeaderWithOptions fuel base required requirements) ↔
      HeaderDefinable (emitCtx base requirements) required.ids := by
  constructor
  · rintro ⟨items, fuel, h⟩
    exact .of_emitHeader (h fuel (Nat.le_refl fuel))
  · exact fun h => h.finishes hacyclic

theorem recordInTypedef_acyclic :
    ∀ node, Reached (emitCtx recordInTypedef none) (seedsOf recordInTypedef [1, 2, 3, 4]).ids node →
      ¬TransGen (Needs (emitCtx recordInTypedef none)) node node := by
  rintro node ⟨start, hid, hisNode, hreach⟩
  have hstart := recordInTypedef_mem_order start hid hisNode
  exact recordInTypedef_validOrder.acyclic recordInTypedef_shortWrappers hisNode hstart node hreach

theorem mchEmitHeaderWithOptions_finishes_iff_recordInTypedef :
    (Finishes fun fuel => mchEmitHeaderWithOptions fuel recordInTypedef
        (seedsOf recordInTypedef [1, 2, 3, 4]) none) ↔
      HeaderDefinable (emitCtx recordInTypedef none) (seedsOf recordInTypedef [1, 2, 3, 4]).ids :=
  mchEmitHeaderWithOptions_finishes_iff recordInTypedef_acyclic

end MinCorehdr
