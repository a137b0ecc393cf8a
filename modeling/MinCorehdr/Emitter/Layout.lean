import MinCorehdr.Emitter.Header
import MinCorehdr.Emitter.Mentions

/-!
# The layout of a header

A header that was emitted consists of the opening, one forward declaration for
each required record and FWD with a name, the required enums, the definitions
found by the search, and the closing.
-/

namespace MinCorehdr

open Relation Support.DepthFirst Support.Result

/-- The ids the emitter takes from the required set. -/
def requiredIds (required : TypeSet) : List Nat :=
  mchTypeSetIds required (required.count + 1) 1

theorem mem_requiredIds {required : TypeSet} {id : Nat} :
    id ∈ requiredIds required ↔ id ≠ 0 ∧ mchTypeSetContains required id = true := by
  rw [requiredIds, mem_mchTypeSetIds (by omega), Nat.one_le_iff_ne_zero]

theorem requiredIds_nodup (required : TypeSet) : (requiredIds required).Nodup :=
  mchTypeSetIds_sorted.1.imp (fun h => Nat.ne_of_lt h)

/-- The id has a type, and the type passes the test. -/
def hasType (ctx : EmitCtx) (test : BtfType → Bool) (id : Nat) : Bool :=
  (btfTypeById ctx.btf id).any test

theorem hasType_eq_true {ctx : EmitCtx} {test : BtfType → Bool} {id : Nat} :
    hasType ctx test id = true ↔ ∃ type, btfTypeById ctx.btf id = some type ∧ test type = true := by
  unfold hasType
  cases btfTypeById ctx.btf id <;> simp

theorem hasType_of_some {ctx : EmitCtx} {test : BtfType → Bool} {id : Nat} {type : BtfType}
    (h : btfTypeById ctx.btf id = some type) : hasType ctx test id = test type := by
  unfold hasType
  rw [h]
  rfl

/-- Records and FWDs with a name are declared first. -/
def isForwardable (btf : Btf) (type : BtfType) : Bool :=
  (type.kind.isRecord || type.kind == .fwd) && decide (mchBtfTypeName btf type ≠ [])

def isEnumKind (type : BtfType) : Bool := type.kind == .enum || type.kind == .enum64

def forwardItem (ctx : EmitCtx) (id : Nat) : Item :=
  match btfTypeById ctx.btf id with
  | none => .forwardDecl id [] []
  | some type => .forwardDecl id (recordKeyword type) (mchBtfTypeName ctx.btf type)

def enumItem (ctx : EmitCtx) (id : Nat) : Item :=
  match btfTypeById ctx.btf id with
  | none => .enumDef id [] []
  | some type => .enumDef id (mchBtfTypeName ctx.btf type) (enumerators ctx.btf type)

/-- The definitions the emitter asks for: typedefs first, then records. -/
def requiredNodes (ctx : EmitCtx) (required : TypeSet) : List Node :=
  ((requiredIds required).map Node.typedef ++ (requiredIds required).map Node.record).filter
    (isNode ctx)

theorem mem_requiredNodes {ctx : EmitCtx} {required : TypeSet} {node : Node} :
    node ∈ requiredNodes ctx required ↔
      node.id ≠ 0 ∧ mchTypeSetContains required node.id = true ∧ isNode ctx node = true := by
  rw [requiredNodes, List.mem_filter, List.mem_append]
  cases node with
  | record id => simp [mem_requiredIds, Node.id, and_assoc]
  | typedef id => simp [mem_requiredIds, Node.id, and_assoc]

/-! ## Groups -/

theorem collectEmitGroups_eq {ctx : EmitCtx} {ids : List Nat} :
    ∀ {groups result : EmitGroups}, ids.foldlM (addToGroups ctx) groups = .ok result →
      (∀ id ∈ ids, ∃ type, btfTypeById ctx.btf id = some type) ∧
      result.fwds = groups.fwds ++ ids.filter (hasType ctx (isForwardable ctx.btf)) ∧
      result.enums = groups.enums ++ ids.filter (hasType ctx isEnumKind) ∧
      result.records = groups.records ++ ids.filter (hasType ctx (isNamedRecord ctx.btf)) ∧
      result.typedefs = groups.typedefs ++
        ids.filter (hasType ctx (fun type => type.kind == .typedef)) := by
  induction ids with
  | nil =>
      intro groups result h
      cases h
      simp
  | cons id ids ih =>
      intro groups result h
      obtain ⟨mid, hstep, hrest⟩ := foldlM_cons_eq_ok.mp h
      obtain ⟨type, htype, hstep⟩ := bind_eq_ok.mp hstep
      rw [typeById_eq_ok] at htype
      cases hstep
      obtain ⟨htyped, hfwds, henums, hrecords, htypedefs⟩ := ih hrest
      have happend : ∀ (test : BtfType → Bool) (xs : List Nat),
          (if test type = true then xs ++ [id] else xs) ++ ids.filter (hasType ctx test) =
            xs ++ (id :: ids).filter (hasType ctx test) := by
        intro test xs
        rw [List.filter_cons, hasType_of_some htype]
        cases test type <;> simp
      refine ⟨?_, ?_, ?_, ?_, ?_⟩
      · intro other hother
        rcases List.mem_cons.mp hother with rfl | hother
        · exact ⟨type, htype⟩
        · exact htyped other hother
      · rw [hfwds, ← happend]
        rfl
      · rw [henums, ← happend]
        rfl
      · rw [hrecords, ← happend]
      · rw [htypedefs, ← happend]

/-! ## The four loops -/

theorem forwardLoop_eq {ctx : EmitCtx} {ids : List Nat} :
    ∀ {st st' : EmitState}, ids.Nodup →
      (∀ id ∈ ids, hasType ctx (isForwardable ctx.btf) id = true ∧ st.fwdState id = false) →
      ids.foldlM (fun st id => emitForwardDecl ctx id st) st = .ok st' →
      st'.out = st.out ++ ids.map (forwardItem ctx) ∧ st'.mark = st.mark := by
  induction ids with
  | nil =>
      intro st st' _ _ h
      cases h
      simp
  | cons id ids ih =>
      intro st st' hnodup hids h
      obtain ⟨mid, hstep, hrest⟩ := foldlM_cons_eq_ok.mp h
      obtain ⟨hid, hnodup'⟩ := List.nodup_cons.mp hnodup
      obtain ⟨hforward, hstate⟩ := hids id List.mem_cons_self
      obtain ⟨type, htype, htest⟩ := hasType_eq_true.mp hforward
      obtain ⟨hkind, hname⟩ : (type.kind.isRecord = true ∨ type.kind = .fwd) ∧
          mchBtfTypeName ctx.btf type ≠ [] := by
        simpa [isForwardable] using htest
      have hmid : mid = (st.print (forwardItem ctx id)).setFwd id := by
        have hitem : forwardItem ctx id =
            .forwardDecl id (recordKeyword type) (mchBtfTypeName ctx.btf type) := by
          simp [forwardItem, htype]
        rw [hitem]
        unfold emitForwardDecl at hstep
        rw [typeById_of_some htype, ok_bind, if_neg (by
          rintro ⟨hrecord, hfwd⟩
          rcases hkind with hkind | hkind
          · rw [hkind] at hrecord
            cases hrecord
          · exact hfwd hkind)] at hstep
        simp only [hname, hstate, Bool.false_eq_true, or_self, if_false, Except.ok.injEq] at hstep
        exact hstep.symm
      subst hmid
      obtain ⟨hout, hmark⟩ := ih hnodup' (by
        intro other hother
        refine ⟨(hids other (List.mem_cons_of_mem _ hother)).1, ?_⟩
        have hne : other ≠ id := by
          rintro rfl
          exact hid hother
        change Function.update st.fwdState id true other = false
        rw [Function.update_of_ne hne]
        exact (hids other (List.mem_cons_of_mem _ hother)).2) hrest
      constructor
      · rw [hout]
        simp
      · rw [hmark]
        simp

theorem enumLoop_eq {ctx : EmitCtx} {ids : List Nat} :
    ∀ {st st' : EmitState}, ids.foldlM (fun st id => emitEnumDefinition ctx id st) st = .ok st' →
      st'.out = st.out ++ ids.map (enumItem ctx) ∧ st'.mark = st.mark := by
  induction ids with
  | nil =>
      intro st st' h
      cases h
      simp
  | cons id ids ih =>
      intro st st' h
      obtain ⟨mid, hstep, hrest⟩ := foldlM_cons_eq_ok.mp h
      obtain ⟨type, htype, hstep⟩ := bind_eq_ok.mp hstep
      rw [typeById_eq_ok] at htype
      cases hstep
      obtain ⟨hout, hmark⟩ := ih hrest
      have hitem : enumItem ctx id =
          .enumDef id (mchBtfTypeName ctx.btf type) (enumerators ctx.btf type) := by
        simp [enumItem, htype]
      constructor
      · rw [hout]
        simp [hitem]
      · rw [hmark]
        simp

/-- A loop over definitions visits those that fit their types, in order. -/
theorem defineLoop_visits {ctx : EmitCtx} {fuel : Nat} {nodes : List Node} :
    ∀ {st st' : EmitState}, nodes.foldlM (defineNode ctx fuel) st = .ok st' →
      Visits ctx st (nodes.filter (isNode ctx)) st' := by
  induction nodes with
  | nil =>
      intro st st' h
      cases h
      exact Visits.refl ctx st
  | cons node nodes ih =>
      intro st st' h
      obtain ⟨mid, hstep, hrest⟩ := foldlM_cons_eq_ok.mp h
      have hvisits := (defineNode_visits hstep).append (ih hrest)
      have hlist : ownNode ctx node ++ nodes.filter (isNode ctx) =
          (node :: nodes).filter (isNode ctx) := by
        unfold ownNode
        rw [List.filter_cons]
        split <;> rfl
      rw [hlist] at hvisits
      exact hvisits

/-! ## The whole header -/

/-- The parts of a header between its opening and its closing. -/
structure Layout (ctx : EmitCtx) (required : TypeSet) (fwds enums defs : List Item) : Prop where
  typed : ∀ id ∈ requiredIds required, ∃ type, btfTypeById ctx.btf id = some type
  fwds_eq : fwds =
    ((requiredIds required).filter (hasType ctx (isForwardable ctx.btf))).map (forwardItem ctx)
  enums_eq : enums = ((requiredIds required).filter (hasType ctx isEnumKind)).map (enumItem ctx)
  defs_from : ∀ item ∈ defs, item.FromWalk ctx
  run : ∃ last, Run Node.IsTypedef (Needs ctx) Search.empty (requiredNodes ctx required) last ∧
    last.log = definedNodes defs

def headerItems (fwds enums defs : List Item) : List Item :=
  headerOpening ++ fwds ++ .text ['\n'] :: enums ++ defs ++ headerClosing

theorem definedNodes_eq_nil {items : List Item} (h : ∀ item ∈ items, item.node? = none) :
    definedNodes items = [] := by
  rw [definedNodes, List.filterMap_eq_nil_iff]
  exact h

theorem filter_isNode_typedef (ctx : EmitCtx) (ids : List Nat) :
    ((ids.filter (hasType ctx (fun type => type.kind == .typedef))).map Node.typedef).filter
        (isNode ctx) =
      (ids.map Node.typedef).filter (isNode ctx) := by
  rw [List.filter_map, List.filter_map, List.filter_filter]
  congr 1
  apply List.filter_congr
  intro id _
  cases htype : btfTypeById ctx.btf id with
  | none => simp [isNode, Node.id, hasType, htype]
  | some type =>
      simp only [Function.comp_apply, isNode, Node.id, htype, Node.Fits, isNamedTypedef,
        hasType_of_some htype]
      cases type.kind == .typedef <;> simp

theorem filter_isNode_record (ctx : EmitCtx) (ids : List Nat) :
    ((ids.filter (hasType ctx (isNamedRecord ctx.btf))).map Node.record).filter (isNode ctx) =
      (ids.map Node.record).filter (isNode ctx) := by
  rw [List.filter_map, List.filter_map, List.filter_filter]
  congr 1
  apply List.filter_congr
  intro id _
  cases htype : btfTypeById ctx.btf id with
  | none => simp [isNode, Node.id, hasType, htype]
  | some type =>
      simp only [Function.comp_apply, isNode, Node.id, htype, Node.Fits, hasType_of_some htype]
      cases isNamedRecord ctx.btf type <;> rfl

theorem emitHeader_layout {ctx : EmitCtx} {fuel : Nat} {required : TypeSet} {items : List Item}
    (h : emitHeader ctx fuel required = .ok items) :
    ∃ fwds enums defs, items = headerItems fwds enums defs ∧
      Layout ctx required fwds enums defs := by
  unfold emitHeader at h
  obtain ⟨groups, hgroups, h⟩ := bind_eq_ok.mp h
  obtain ⟨stFwds, hfwdLoop, h⟩ := bind_eq_ok.mp h
  obtain ⟨stEnums, henumLoop, h⟩ := bind_eq_ok.mp h
  obtain ⟨stTypedefs, htypedefLoop, h⟩ := bind_eq_ok.mp h
  obtain ⟨stRecords, hrecordLoop, h⟩ := bind_eq_ok.mp h
  cases h
  obtain ⟨htyped, hfwds, henums, hrecords, htypedefs⟩ := collectEmitGroups_eq hgroups
  simp only [List.nil_append] at hfwds henums hrecords htypedefs
  obtain ⟨houtFwds, hmarkFwds⟩ := forwardLoop_eq (by
      rw [hfwds]
      exact (requiredIds_nodup required).filter _) (by
      intro id hid
      rw [hfwds] at hid
      exact ⟨(List.mem_filter.mp hid).2, rfl⟩) hfwdLoop
  obtain ⟨houtEnums, hmarkEnums⟩ := enumLoop_eq henumLoop
  have hdefs : (groups.typedefs.map Node.typedef ++ groups.records.map Node.record).foldlM
      (defineNode ctx fuel) stEnums = .ok stRecords := by
    rw [List.foldlM_append, bind_eq_ok]
    refine ⟨stTypedefs, ?_, ?_⟩
    · rw [List.foldlM_map]
      exact htypedefLoop
    · rw [List.foldlM_map]
      exact hrecordLoop
  have hvisits := defineLoop_visits hdefs
  rw [List.filter_append, htypedefs, hrecords, filter_isNode_typedef, filter_isNode_record,
    ← List.filter_append] at hvisits
  obtain ⟨defs, houtDefs, hfrom⟩ := hvisits.printed
  have hbefore : stEnums.out = headerOpening ++ groups.fwds.map (forwardItem ctx) ++
      .text ['\n'] :: groups.enums.map (enumItem ctx) := by
    rw [houtEnums, out_print, houtFwds]
    simp
  have hnone : definedNodes stEnums.out = [] := by
    rw [hbefore]
    apply definedNodes_eq_nil
    intro item hitem
    simp only [List.mem_append, List.mem_cons, List.mem_map, headerOpening] at hitem
    rcases hitem with (hitem | ⟨id, _, rfl⟩) | rfl | ⟨id, _, rfl⟩
    · rcases hitem with rfl | rfl | rfl | hitem
      · rfl
      · rfl
      · rfl
      · cases hitem
    · unfold forwardItem
      split <;> rfl
    · rfl
    · unfold enumItem
      split <;> rfl
  have hstart : stEnums.search = Search.empty := by
    unfold EmitState.search Search.empty
    rw [hnone, hmarkEnums, mark_print, hmarkFwds]
    congr 1
    funext node
    cases node <;> rfl
  refine ⟨_, _, defs, ?_, htyped, rfl, rfl, hfrom, stRecords.search, ?_, ?_⟩
  · rw [houtDefs, hbefore, hfwds, henums]
    simp only [headerItems, requiredIds, List.append_assoc, List.cons_append]
  · rw [← hstart]
    exact hvisits.run
  · change definedNodes stRecords.out = _
    rw [houtDefs, definedNodes_append, hnone, List.nil_append]

/-! ## What the layout says about the definitions -/

/-- The definition is in reach of the types in `required`. -/
def Reached (ctx : EmitCtx) (required : Set Nat) (node : Node) : Prop :=
  ∃ start, start.id ∈ required ∧ isNode ctx start = true ∧ ReflTransGen (Needs ctx) start node

theorem Needs.isNode {ctx : EmitCtx} {node dep : Node} (h : Needs ctx node dep) :
    isNode ctx dep = true := by
  obtain ⟨_, _, at_, _, hmem⟩ := h
  unfold walkNodes at hmem
  split at hmem
  next => cases hmem
  next type htype =>
    split at hmem
    next htypedef =>
      rw [List.mem_singleton.mp hmem]
      exact isNode_eq_true.mpr ⟨type, htype, htypedef⟩
    next =>
      split at hmem
      next hrecord =>
        rw [List.mem_singleton.mp hmem]
        exact isNode_eq_true.mpr ⟨type, htype, (Bool.and_eq_true_iff.mp hrecord).1⟩
      next => cases hmem

theorem Reached.isNode {ctx : EmitCtx} {required : Set Nat} {node : Node}
    (h : Reached ctx required node) : isNode ctx node = true := by
  obtain ⟨start, _, hstart, hreach⟩ := h
  rcases hreach.cases_tail with rfl | ⟨mid, _, hneeds⟩
  · exact hstart
  · exact hneeds.isNode

theorem Reached.trans {ctx : EmitCtx} {required : Set Nat} {node dep : Node}
    (h : Reached ctx required node) (hreach : ReflTransGen (Needs ctx) node dep) :
    Reached ctx required dep := by
  obtain ⟨start, hid, hisNode, hstart⟩ := h
  exact ⟨start, hid, hisNode, hstart.trans hreach⟩

theorem Reached.needs {ctx : EmitCtx} {required : Set Nat} {node dep : Node}
    (h : Reached ctx required node) (hneeds : Needs ctx node dep) : Reached ctx required dep :=
  h.trans (.single hneeds)

theorem Layout.mem_definedNodes_iff {ctx : EmitCtx} {required : TypeSet} {fwds enums defs : List Item}
    (h : Layout ctx required fwds enums defs) (node : Node) :
    node ∈ definedNodes defs ↔ Reached ctx required.ids node := by
  obtain ⟨last, hrun, hlog⟩ := h.run
  rw [← hlog, hrun.mem_log_iff]
  constructor
  · rintro ⟨start, hstart, hreach⟩
    obtain ⟨hzero, hmem, hnode⟩ := mem_requiredNodes.mp hstart
    exact ⟨start, ⟨hzero, hmem⟩, hnode, hreach⟩
  · rintro ⟨start, ⟨hzero, hmem⟩, hnode, hreach⟩
    exact ⟨start, mem_requiredNodes.mpr ⟨hzero, hmem, hnode⟩, hreach⟩

theorem Layout.nodup {ctx : EmitCtx} {required : TypeSet} {fwds enums defs : List Item}
    (h : Layout ctx required fwds enums defs) : (definedNodes defs).Nodup := by
  obtain ⟨last, hrun, hlog⟩ := h.run
  rw [← hlog]
  exact (hrun.sound Search.empty_sound).nodup

/-- A typedef that a definition needs is printed before it. -/
theorem Layout.typedef_before {ctx : EmitCtx} {required : TypeSet} {fwds enums defs : List Item}
    (h : Layout ctx required fwds enums defs) {before after : List Node} {node : Node} {id : Nat}
    (hsplit : definedNodes defs = before ++ node :: after)
    (hneeds : Needs ctx node (.typedef id)) : .typedef id ∈ before := by
  obtain ⟨last, hrun, hlog⟩ := h.run
  rw [← hlog] at hsplit
  exact (hrun.sound Search.empty_sound).ordered before node after hsplit _ hneeds trivial

theorem definedNodes_split {pre post : List Item} {item : Item} {node : Node}
    (h : item.node? = some node) :
    definedNodes (pre ++ item :: post) = definedNodes pre ++ node :: definedNodes post := by
  simp [definedNodes, h]

theorem exists_item_of_mem_definedNodes {items : List Item} {node : Node}
    (h : node ∈ definedNodes items) :
    ∃ pre item post, items = pre ++ item :: post ∧ item.node? = some node := by
  obtain ⟨item, hitem, hnode⟩ := List.mem_filterMap.mp h
  obtain ⟨pre, post, heq⟩ := List.append_of_mem hitem
  exact ⟨pre, item, post, heq, hnode⟩

theorem split_middle {α : Type} {front mid back before after : List α} {x : α}
    (h : front ++ mid ++ back = before ++ x :: after) (hfront : x ∉ front) (hback : x ∉ back) :
    ∃ pre post, mid = pre ++ x :: post ∧ before = front ++ pre := by
  rw [List.append_assoc, List.append_eq_append_iff] at h
  rcases h with ⟨pre, hbefore, hrest⟩ | ⟨pre, hfront', hrest⟩
  · rw [List.append_eq_append_iff] at hrest
    rcases hrest with ⟨pre', hpre, hback'⟩ | ⟨post, hmid, hcons⟩
    · exact absurd (by rw [hback']; simp) hback
    · cases post with
      | nil =>
          refine absurd ?_ hback
          rw [← show x :: after = back by simpa using hcons]
          exact List.mem_cons_self
      | cons y post =>
          rw [List.cons_append, List.cons.injEq] at hcons
          obtain ⟨rfl, _⟩ := hcons
          exact ⟨pre, post, hmid, hbefore⟩
  · cases pre with
    | nil =>
        rw [List.nil_append] at hrest
        cases mid with
        | nil =>
            refine absurd ?_ hback
            rw [List.nil_append] at hrest
            rw [← hrest]
            exact List.mem_cons_self
        | cons y mid =>
            rw [List.cons_append, List.cons.injEq] at hrest
            obtain ⟨rfl, _⟩ := hrest
            exact ⟨[], mid, rfl, by simpa using hfront'.symm⟩
    | cons y pre =>
        rw [List.cons_append, List.cons.injEq] at hrest
        obtain ⟨rfl, _⟩ := hrest
        refine absurd ?_ hfront
        rw [hfront']
        simp

/-- Everything a header has before its definitions. -/
def headerFront (fwds enums : List Item) : List Item :=
  headerOpening ++ fwds ++ .text ['\n'] :: enums

theorem Layout.node?_front {ctx : EmitCtx} {required : TypeSet} {fwds enums defs : List Item}
    (h : Layout ctx required fwds enums defs) : ∀ item ∈ headerFront fwds enums,
      item.node? = none := by
  intro item hitem
  simp only [headerFront, headerOpening, h.fwds_eq, h.enums_eq, List.mem_append, List.mem_cons,
    List.not_mem_nil, or_false, List.mem_map] at hitem
  rcases hitem with ((rfl | rfl | rfl) | ⟨id, _, rfl⟩) | rfl | ⟨id, _, rfl⟩
  · rfl
  · rfl
  · rfl
  · unfold forwardItem
    split <;> rfl
  · rfl
  · unfold enumItem
    split <;> rfl

/-- A definition of a header is one of its definitions proper. -/
theorem Layout.split {ctx : EmitCtx} {required : TypeSet} {fwds enums defs : List Item}
    (h : Layout ctx required fwds enums defs) {before after : List Item} {item : Item} {node : Node}
    (hsplit : headerItems fwds enums defs = before ++ item :: after)
    (hnode : item.node? = some node) :
    ∃ pre post, defs = pre ++ item :: post ∧ before = headerFront fwds enums ++ pre := by
  apply split_middle hsplit
  · intro hitem
    have hnone := h.node?_front item (by simpa [headerFront] using hitem)
    rw [hnone] at hnode
    cases hnode
  · intro hitem
    simp only [headerClosing, List.mem_cons, List.not_mem_nil, or_false] at hitem
    rcases hitem with rfl | rfl <;> cases hnode

/-- The enum definitions of a header are those of the required enums. -/
theorem Layout.enumDef_mem_iff {ctx : EmitCtx} {required : TypeSet} {fwds enums defs : List Item}
    (h : Layout ctx required fwds enums defs) {id : Nat} {name : CString}
    {values : List Enumerator} :
    .enumDef id name values ∈ headerItems fwds enums defs ↔
      id ∈ required.ids ∧ ∃ type, btfTypeById ctx.btf id = some type ∧ isEnumKind type = true ∧
        name = mchBtfTypeName ctx.btf type ∧ values = enumerators ctx.btf type := by
  have hitem : ∀ other type, btfTypeById ctx.btf other = some type →
      enumItem ctx other = .enumDef other (mchBtfTypeName ctx.btf type) (enumerators ctx.btf type) := by
    intro other type htype
    simp [enumItem, htype]
  have hmem : .enumDef id name values ∈ headerItems fwds enums defs ↔
      .enumDef id name values ∈ enums := by
    constructor
    · intro hmem
      simp only [headerItems, headerOpening, headerClosing, h.fwds_eq, List.mem_append,
        List.mem_cons, List.not_mem_nil, reduceCtorEq, or_false, false_or, List.mem_map] at hmem
      rcases hmem with (⟨other, _, heq⟩ | hmem) | hmem
      · unfold forwardItem at heq
        split at heq <;> cases heq
      · exact hmem
      · exact (h.defs_from _ hmem).elim
    · intro hmem
      simp [headerItems, hmem]
  rw [hmem, h.enums_eq, List.mem_map]
  constructor
  · rintro ⟨other, hother, heq⟩
    obtain ⟨hreq, henum⟩ := List.mem_filter.mp hother
    obtain ⟨type, htype, hkind⟩ := hasType_eq_true.mp henum
    rw [hitem other type htype] at heq
    cases heq
    exact ⟨mem_requiredIds.mp hreq, type, htype, hkind, rfl, rfl⟩
  · rintro ⟨hreq, type, htype, hkind, rfl, rfl⟩
    refine ⟨id, List.mem_filter.mpr ⟨mem_requiredIds.mpr hreq, ?_⟩, hitem id type htype⟩
    exact hasType_eq_true.mpr ⟨type, htype, hkind⟩

end MinCorehdr
