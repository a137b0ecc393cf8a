import MinCorehdr.Emitter.Graph

/-!
# The walks are a depth-first search

Seen through its marks and the definitions it has printed, the emitter runs the
depth-first search of the graph of definitions, with typedefs strict.
-/

namespace MinCorehdr

open Relation Support.DepthFirst Support.Result

/-- The definition an item holds. -/
def Item.node? : Item → Option Node
  | .typedefDef id _ _ => some (.typedef id)
  | .recordDef id _ _ _ => some (.record id)
  | _ => none

/-- The definitions of a list of items, in order. -/
def definedNodes (items : List Item) : List Node := items.filterMap Item.node?

def EmitState.search (st : EmitState) : Search Node where
  mark := st.mark
  log := definedNodes st.out

/-- The walks from the definition came to an end. -/
def Node.Walked (ctx : EmitCtx) (node : Node) : Prop :=
  ∃ fuel st st', (nodeStarts ctx node).foldlM (walkDeps ctx fuel) st = .ok st'

/-- What the walks print: forward declarations, and definitions of nodes whose own
walks are done, with the text the printer gives them. -/
def Item.FromWalk (ctx : EmitCtx) : Item → Prop
  | .forwardDecl id keyword name =>
      ∃ type, btfTypeById ctx.btf id = some type ∧ (type.kind.isRecord ∨ type.kind = .fwd) ∧
        keyword = recordKeyword type ∧ name = mchBtfTypeName ctx.btf type ∧ name ≠ []
  | .typedefDef id name decl =>
      ∃ type fuel, btfTypeById ctx.btf id = some type ∧ isNamedTypedef ctx.btf type = true ∧
        (Node.typedef id).Walked ctx ∧ nodeItem ctx fuel type (.typedef id) = .ok (.typedefDef id name decl)
  | .recordDef id keyword name body =>
      ∃ type fuel, btfTypeById ctx.btf id = some type ∧ isNamedRecord ctx.btf type = true ∧
        (Node.record id).Walked ctx ∧ nodeItem ctx fuel type (.record id) = .ok (.recordDef id keyword name body)
  | _ => False

/-- A step of the emitter that visits `nodes`. -/
structure Visits (ctx : EmitCtx) (st : EmitState) (nodes : List Node) (st' : EmitState) : Prop where
  run : Run Node.IsTypedef (Needs ctx) st.search nodes st'.search
  printed : ∃ items, st'.out = st.out ++ items ∧ ∀ item ∈ items, item.FromWalk ctx

/-! ## State changes seen through the search -/

@[simp] theorem definedNodes_append (xs ys : List Item) :
    definedNodes (xs ++ ys) = definedNodes xs ++ definedNodes ys :=
  List.filterMap_append

theorem mark_setMark (st : EmitState) (node : Node) (mark : Mark) :
    (st.setMark node mark).mark = Function.update st.mark node mark := by
  funext other
  cases node with
  | record id =>
      cases other with
      | record j => simp [EmitState.setMark, EmitState.setRecord, EmitState.mark, Function.update]
      | typedef j => simp [EmitState.setMark, EmitState.setRecord, EmitState.mark]
  | typedef id =>
      cases other with
      | record j => simp [EmitState.setMark, EmitState.setTypedef, EmitState.mark]
      | typedef j => simp [EmitState.setMark, EmitState.setTypedef, EmitState.mark, Function.update]

@[simp] theorem out_setMark (st : EmitState) (node : Node) (mark : Mark) :
    (st.setMark node mark).out = st.out := by
  cases node <;> rfl

@[simp] theorem out_print (st : EmitState) (item : Item) :
    (st.print item).out = st.out ++ [item] := rfl

@[simp] theorem mark_print (st : EmitState) (item : Item) : (st.print item).mark = st.mark := rfl

@[simp] theorem out_setFwd (st : EmitState) (id : Nat) : (st.setFwd id).out = st.out := rfl

@[simp] theorem mark_setFwd (st : EmitState) (id : Nat) : (st.setFwd id).mark = st.mark := rfl

theorem search_enter (st : EmitState) (node : Node) :
    (st.setMark node .active).search = st.search.enter node := by
  simp [EmitState.search, Search.enter, mark_setMark]

theorem search_leave {st : EmitState} {node : Node} {item : Item} (h : item.node? = some node) :
    ((st.print item).setMark node .done).search = st.search.leave node := by
  simp [EmitState.search, Search.leave, mark_setMark, definedNodes, h]

theorem nodeItem_node? {ctx : EmitCtx} {fuel : Nat} {type : BtfType} {node : Node} {item : Item}
    (h : nodeItem ctx fuel type node = .ok item) : item.node? = some node := by
  cases node with
  | record id =>
      obtain ⟨body, _, hitem⟩ := bind_eq_ok.mp h
      cases hitem
      rfl
  | typedef id =>
      obtain ⟨decl, _, hitem⟩ := bind_eq_ok.mp h
      cases hitem
      rfl

theorem nodeItem_fromWalk {ctx : EmitCtx} {fuel : Nat} {type : BtfType} {node : Node} {item : Item}
    (htype : btfTypeById ctx.btf node.id = some type) (hfits : node.Fits ctx type = true)
    (hwalked : node.Walked ctx) (h : nodeItem ctx fuel type node = .ok item) :
    item.FromWalk ctx := by
  cases node with
  | record id =>
      obtain ⟨body, _, hitem⟩ := bind_eq_ok.mp h
      cases hitem
      exact ⟨type, fuel, htype, hfits, hwalked, h⟩
  | typedef id =>
      obtain ⟨decl, _, hitem⟩ := bind_eq_ok.mp h
      cases hitem
      exact ⟨type, fuel, htype, hfits, hwalked, h⟩

/-! ## Steps -/

theorem Visits.refl (ctx : EmitCtx) (st : EmitState) : Visits ctx st [] st where
  run := .nil _
  printed := ⟨[], by simp, by simp⟩

theorem Visits.append {ctx : EmitCtx} {st mid st' : EmitState} {xs ys : List Node}
    (hxs : Visits ctx st xs mid) (hys : Visits ctx mid ys st') :
    Visits ctx st (xs ++ ys) st' where
  run := hxs.run.append hys.run
  printed := by
    obtain ⟨items, hitems, hfrom⟩ := hxs.printed
    obtain ⟨items', hitems', hfrom'⟩ := hys.printed
    refine ⟨items ++ items', ?_, ?_⟩
    · rw [hitems', hitems, List.append_assoc]
    · intro item hitem
      rcases List.mem_append.mp hitem with hitem | hitem
      · exact hfrom item hitem
      · exact hfrom' item hitem

/-- A forward declaration that succeeds prints one line, or nothing. -/
theorem emitForwardDecl_eq_ok {ctx : EmitCtx} {id : Nat} {st st' : EmitState}
    (h : emitForwardDecl ctx id st = .ok st') :
    st' = st ∨ ∃ type, btfTypeById ctx.btf id = some type ∧
      (type.kind.isRecord ∨ type.kind = .fwd) ∧ mchBtfTypeName ctx.btf type ≠ [] ∧
      st' = (st.print (.forwardDecl id (recordKeyword type)
        (mchBtfTypeName ctx.btf type))).setFwd id := by
  unfold emitForwardDecl at h
  obtain ⟨type, htype, h⟩ := bind_eq_ok.mp h
  rw [typeById_eq_ok] at htype
  split at h
  next => exact Or.inl (Except.ok.inj h).symm
  next hkind =>
    simp only at h
    split at h
    next => exact Or.inl (Except.ok.inj h).symm
    next hname =>
      have hkind' : type.kind.isRecord ∨ type.kind = .fwd := by
        by_contra hnot
        simp only [not_or, Bool.not_eq_true] at hnot
        exact hkind hnot
      have hne : mchBtfTypeName ctx.btf type ≠ [] := fun hnil => hname (Or.inl hnil)
      exact Or.inr ⟨type, htype, hkind', hne, (Except.ok.inj h).symm⟩

theorem emitForwardDecl_visits {ctx : EmitCtx} {id : Nat} {st st' : EmitState}
    (h : emitForwardDecl ctx id st = .ok st') : Visits ctx st [] st' := by
  rcases emitForwardDecl_eq_ok h with rfl | ⟨type, htype, hkind, hname, rfl⟩
  · exact Visits.refl ctx st'
  · constructor
    · have heq : ((st.print (.forwardDecl id (recordKeyword type)
          (mchBtfTypeName ctx.btf type))).setFwd id).search = st.search := by
        simp [EmitState.search, definedNodes, Item.node?]
      rw [heq]
      exact .nil _
    · refine ⟨_, rfl, ?_⟩
      intro item hitem
      rw [List.mem_singleton.mp hitem]
      exact ⟨type, htype, hkind, rfl, rfl, hname⟩

/-- Walks from a list of pairs, each of which visits what its pair needs. -/
theorem foldlM_walkDeps_visits {ctx : EmitCtx} {fuel : Nat}
    (ih : ∀ from_ st st', walkDeps ctx fuel st from_ = .ok st' →
      ∃ nodes, (∀ node, node ∈ nodes ↔ WalkNeeds ctx from_ node) ∧ Visits ctx st nodes st')
    {starts : List (Mode × Nat)} :
    ∀ {st st' : EmitState}, starts.foldlM (walkDeps ctx fuel) st = .ok st' →
      ∃ nodes, (∀ node, node ∈ nodes ↔ ∃ start ∈ starts, WalkNeeds ctx start node) ∧
        Visits ctx st nodes st' := by
  induction starts with
  | nil =>
      intro st st' h
      cases h
      exact ⟨[], by simp, Visits.refl ctx st⟩
  | cons start starts ihStarts =>
      intro st st' h
      obtain ⟨mid, hstart, hrest⟩ := foldlM_cons_eq_ok.mp h
      obtain ⟨nodes, hnodes, hvisits⟩ := ih start st mid hstart
      obtain ⟨nodes', hnodes', hvisits'⟩ := ihStarts hrest
      refine ⟨nodes ++ nodes', ?_, hvisits.append hvisits'⟩
      intro node
      rw [List.mem_append, hnodes, hnodes']
      simp

theorem defineFresh_visits {ctx : EmitCtx} {fuel : Nat} {type : BtfType} {node : Node}
    {st st' : EmitState}
    (ih : ∀ from_ st st', walkDeps ctx fuel st from_ = .ok st' →
      ∃ nodes, (∀ node, node ∈ nodes ↔ WalkNeeds ctx from_ node) ∧ Visits ctx st nodes st')
    (htype : btfTypeById ctx.btf node.id = some type) (hfits : node.Fits ctx type = true)
    (hmark : st.mark node = .unseen) (h : defineFresh ctx fuel type st node = .ok st') :
    Visits ctx st [node] st' := by
  obtain ⟨mid, hdeps, h⟩ := bind_eq_ok.mp h
  obtain ⟨item, hitem, h⟩ := bind_eq_ok.mp h
  cases h
  obtain ⟨nodes, hnodes, hvisits⟩ := foldlM_walkDeps_visits ih hdeps
  obtain ⟨items, hitems, hfrom⟩ := hvisits.printed
  rw [out_setMark] at hitems
  constructor
  · have hrun := hvisits.run
    rw [search_enter] at hrun
    rw [search_leave (nodeItem_node? hitem)]
    exact .fresh hmark hnodes hrun (.nil _)
  · refine ⟨items ++ [item], ?_, ?_⟩
    · rw [out_setMark, out_print, hitems, List.append_assoc]
    · intro other hother
      rcases List.mem_append.mp hother with hother | hother
      · exact hfrom other hother
      · rw [List.mem_singleton.mp hother]
        exact nodeItem_fromWalk htype hfits ⟨fuel, _, mid, hdeps⟩ hitem

/-- The definition is one of a type of its own kind. -/
def isNode (ctx : EmitCtx) (node : Node) : Bool :=
  match btfTypeById ctx.btf node.id with
  | none => false
  | some type => node.Fits ctx type

theorem isNode_eq_true {ctx : EmitCtx} {node : Node} :
    isNode ctx node = true ↔
      ∃ type, btfTypeById ctx.btf node.id = some type ∧ node.Fits ctx type = true := by
  unfold isNode
  cases btfTypeById ctx.btf node.id <;> simp

/-- The definition a call is about, if its type is of the right kind. -/
def ownNode (ctx : EmitCtx) (node : Node) : List Node := if isNode ctx node then [node] else []

theorem ownNode_eq {ctx : EmitCtx} {node : Node} {type : BtfType}
    (h : btfTypeById ctx.btf node.id = some type) :
    ownNode ctx node = if node.Fits ctx type then [node] else [] := by
  unfold ownNode isNode
  rw [h]

theorem defineNode_visits_succ {ctx : EmitCtx} {fuel : Nat}
    (ih : ∀ from_ st st', walkDeps ctx fuel st from_ = .ok st' →
      ∃ nodes, (∀ node, node ∈ nodes ↔ WalkNeeds ctx from_ node) ∧ Visits ctx st nodes st')
    {node : Node} {st st' : EmitState} (h : defineNode ctx (fuel + 1) st node = .ok st') :
    Visits ctx st (ownNode ctx node) st' := by
  cases htype : btfTypeById ctx.btf node.id with
  | none =>
      rw [defineNode_none htype] at h
      cases h
  | some type =>
      rw [ownNode_eq htype]
      cases hfits : node.Fits ctx type with
      | false =>
          rcases defineNode_of_not_fits st htype hfits with heq | ⟨_, heq⟩
          · rw [heq] at h
            cases h
            exact Visits.refl ctx st
          · rw [heq] at h
            cases h
      | true =>
          rw [defineNode_of_fits htype hfits] at h
          cases hmark : st.mark node with
          | unseen =>
              rw [hmark] at h
              exact defineFresh_visits ih htype hfits hmark h
          | active =>
              rw [hmark] at h
              cases node with
              | record id =>
                  cases h
                  exact ⟨.passed hmark (fun h => h) (.nil _), ⟨[], by simp, by simp⟩⟩
              | typedef id => cases h
          | done =>
              rw [hmark] at h
              cases h
              exact ⟨.done hmark (.nil _), ⟨[], by simp, by simp⟩⟩

/-- After its targets a walk asks for the definition at the pair, or for none. -/
theorem walkLeaf_cases {ctx : EmitCtx} {from_ : Mode × Nat} {type : BtfType}
    (htype : btfTypeById ctx.btf from_.2 = some type) :
    (∃ node, node.id = from_.2 ∧ walkNodes ctx from_ = ownNode ctx node ∧
      ∀ fuel st, walkLeaf ctx fuel from_ type st = defineNode ctx fuel st node) ∨
    walkNodes ctx from_ = [] ∧
      ((∀ fuel st, walkLeaf ctx fuel from_ type st = emitForwardDecl ctx from_.2 st) ∨
        ∀ fuel st, walkLeaf ctx fuel from_ type st = .ok st) := by
  have hnodes : walkNodes ctx from_ =
      if isNamedTypedef ctx.btf type then [.typedef from_.2]
      else if isNamedRecord ctx.btf type && decide (from_.1 = .hard) then [.record from_.2]
      else [] := by
    unfold walkNodes
    rw [htype]
  unfold walkLeaf
  by_cases hkind : type.kind = .typedef
  · left
    refine ⟨.typedef from_.2, rfl, ?_, fun fuel st => by rw [if_pos hkind]; rfl⟩
    rw [hnodes, show ownNode ctx (.typedef from_.2) = _ from ownNode_eq htype]
    cases hnamed : isNamedTypedef ctx.btf type <;>
      simp [isNamedRecord, hkind, Kind.isRecord, Node.Fits, hnamed]
  · have htypedef : isNamedTypedef ctx.btf type = false := by simp [isNamedTypedef, hkind]
    rw [htypedef] at hnodes
    by_cases hrecord : from_.1 = .hard ∧ isNamedRecord ctx.btf type = true
    · left
      refine ⟨.record from_.2, rfl, ?_, fun fuel st => by rw [if_neg hkind, if_pos hrecord]; rfl⟩
      rw [hnodes, show ownNode ctx (.record from_.2) = _ from ownNode_eq htype]
      simp [hrecord, Node.Fits]
    · right
      constructor
      · rw [hnodes]
        simp only [Bool.false_eq_true, if_false, Bool.and_eq_true, decide_eq_true_eq,
          ite_eq_right_iff, List.cons_ne_self, imp_false]
        exact fun hboth => absurd ⟨hboth.2, hboth.1⟩ hrecord
      · simp only [hkind, hrecord, if_false]
        split
        · exact Or.inl fun _ _ => rfl
        · exact Or.inr fun _ _ => rfl

theorem walkLeaf_visits {ctx : EmitCtx} {fuel : Nat}
    (ih : ∀ node st st', defineNode ctx fuel st node = .ok st' →
      Visits ctx st (ownNode ctx node) st')
    {from_ : Mode × Nat} {type : BtfType} (htype : btfTypeById ctx.btf from_.2 = some type)
    {st st' : EmitState} (h : walkLeaf ctx fuel from_ type st = .ok st') :
    Visits ctx st (walkNodes ctx from_) st' := by
  rcases walkLeaf_cases htype with ⟨node, _, hnodes, hleaf⟩ | ⟨hnodes, hforward | hnothing⟩
  · rw [hleaf] at h
    rw [hnodes]
    exact ih node st st' h
  · rw [hforward] at h
    rw [hnodes]
    exact emitForwardDecl_visits h
  · rw [hnothing] at h
    rw [hnodes]
    cases h
    exact Visits.refl ctx st

/-! ## Whole walks -/

/-- Whatever the fuel, a walk that ends visits what its pair needs and a call
for a definition visits that definition. -/
theorem walk_and_define_visits (ctx : EmitCtx) (fuel : Nat) :
    (∀ from_ st st', walkDeps ctx fuel st from_ = .ok st' →
      ∃ nodes, (∀ node, node ∈ nodes ↔ WalkNeeds ctx from_ node) ∧ Visits ctx st nodes st') ∧
    (∀ node st st', defineNode ctx fuel st node = .ok st' →
      Visits ctx st (ownNode ctx node) st') := by
  induction fuel with
  | zero =>
      constructor
      · intro from_ st st' h
        rw [walkDeps_zero] at h
        cases h
      · intro node st st' h
        rw [defineNode_zero] at h
        cases h
  | succ fuel ih =>
      obtain ⟨ihWalk, ihDefine⟩ := ih
      constructor
      · intro from_ st st' h
        cases htype : btfTypeById ctx.btf from_.2 with
        | none =>
            rw [walkDeps_none htype] at h
            cases h
        | some type =>
            rw [walkDeps_succ htype] at h
            obtain ⟨mid, htargets, hleaf⟩ := bind_eq_ok.mp h
            obtain ⟨nodes, hnodes, hvisits⟩ := foldlM_walkDeps_visits ihWalk htargets
            refine ⟨nodes ++ walkNodes ctx from_, ?_,
              hvisits.append (walkLeaf_visits ihDefine htype hleaf)⟩
            intro node
            rw [List.mem_append, hnodes, walkNeeds_iff]
      · intro node st st' h
        exact defineNode_visits_succ ihWalk h

theorem defineNode_visits {ctx : EmitCtx} {fuel : Nat} {node : Node} {st st' : EmitState}
    (h : defineNode ctx fuel st node = .ok st') : Visits ctx st (ownNode ctx node) st' :=
  (walk_and_define_visits ctx fuel).2 node st st' h

end MinCorehdr
