import MinCorehdr.Emitter.Declared

/-!
# Forward declarations

The header opens with a forward declaration for every required record and FWD that
has a name; the soft walks add those they meet.  Each is written once, and before
the definitions whose walks meet it.
-/

namespace MinCorehdr

open Relation Support.DepthFirst Support.Result

/-- The record or FWD a walk declares forward at a pair. -/
def walkTags (ctx : EmitCtx) (at_ : Mode × Nat) : List Nat :=
  match btfTypeById ctx.btf at_.2 with
  | none => []
  | some type =>
      if (at_.1 = .soft ∧ type.kind.isRecord = true ∨ type.kind = .fwd) ∧
          mchBtfTypeName ctx.btf type ≠ [] then [at_.2]
      else []

/-- The walk from a pair declares `id` forward. -/
def WalkDeclares (ctx : EmitCtx) (from_ : Mode × Nat) (id : Nat) : Prop :=
  ∃ to_, WalkReaches ctx from_ to_ ∧ id ∈ walkTags ctx to_

/-- The walks a definition starts with declare `id` forward. -/
def NodeDeclares (ctx : EmitCtx) (node : Node) (id : Nat) : Prop :=
  ∃ start ∈ nodeStarts ctx node, WalkDeclares ctx start id

theorem walkDeclares_iff {ctx : EmitCtx} {from_ : Mode × Nat} {id : Nat} :
    WalkDeclares ctx from_ id ↔
      (∃ to_ ∈ walkTargets ctx from_, WalkDeclares ctx to_ id) ∨ id ∈ walkTags ctx from_ := by
  constructor
  · rintro ⟨to_, hreach, htag⟩
    rcases hreach.cases_head with rfl | ⟨mid, hmid, hreach⟩
    · exact Or.inr htag
    · exact Or.inl ⟨mid, hmid, to_, hreach, htag⟩
  · rintro (⟨mid, hmid, to_, hreach, htag⟩ | htag)
    · exact ⟨to_, .head hmid hreach, htag⟩
    · exact ⟨from_, .refl, htag⟩

/-- The type an item declares forward. -/
def Item.forward? : Item → Option Nat
  | .forwardDecl id _ _ => some id
  | _ => none

def forwardIds (items : List Item) : List Nat := items.filterMap Item.forward?

@[simp] theorem forwardIds_append (xs ys : List Item) :
    forwardIds (xs ++ ys) = forwardIds xs ++ forwardIds ys :=
  List.filterMap_append

/-- Every declaration is written once, by a walk of a definition that was begun or
because it is one of `front`, and every definition comes after those of its walks. -/
structure EmitState.TagsInOrder (ctx : EmitCtx) (front : Set Nat) (st : EmitState) : Prop where
  state_iff : ∀ id, st.fwdState id = true ↔ id ∈ forwardIds st.out
  nodup : (forwardIds st.out).Nodup
  owned : ∀ id ∈ forwardIds st.out,
    id ∈ front ∨ ∃ node, st.mark node ≠ .unseen ∧ NodeDeclares ctx node id
  first : ∀ before item after node, st.out = before ++ item :: after →
    item.node? = some node → ∀ id, NodeDeclares ctx node id → id ∈ forwardIds before

namespace EmitState.TagsInOrder

variable {ctx : EmitCtx} {front : Set Nat} {st : EmitState}

/-- An item that declares nothing may be written when the tags of its definition are
there. -/
theorem print (h : st.TagsInOrder ctx front) {item : Item} (hforward : item.forward? = none)
    (hnode : ∀ node, item.node? = some node → ∀ id, NodeDeclares ctx node id →
      id ∈ forwardIds st.out) : (st.print item).TagsInOrder ctx front := by
  have hids : forwardIds (st.print item).out = forwardIds st.out := by
    rw [out_print, forwardIds_append]
    simp [forwardIds, hforward]
  constructor
  · intro id
    rw [hids]
    exact h.state_iff id
  · rw [hids]
    exact h.nodup
  · intro id hid
    rw [hids] at hid
    exact h.owned id hid
  · intro before other after node hsplit hother id hid
    rw [out_print] at hsplit
    rcases eq_last_or_of_split hsplit with ⟨rfl, rfl⟩ | ⟨after', hout⟩
    · exact hnode node hother id hid
    · exact h.first before other after' node hout hother id hid

/-- Marks only go forward, so what owned a declaration still does. -/
theorem setMark (h : st.TagsInOrder ctx front) {node : Node} {mark : Mark}
    (hmark : mark ≠ .unseen) : (st.setMark node mark).TagsInOrder ctx front := by
  have hids : forwardIds (st.setMark node mark).out = forwardIds st.out := by rw [out_setMark]
  constructor
  · intro id
    rw [hids, ← h.state_iff]
    cases node <;> rfl
  · rw [hids]
    exact h.nodup
  · intro id hid
    rw [hids] at hid
    rcases h.owned id hid with hfront | ⟨owner, howner, hdeclares⟩
    · exact Or.inl hfront
    · refine Or.inr ⟨owner, ?_, hdeclares⟩
      rw [mark_setMark]
      by_cases heq : owner = node
      · rw [heq, Function.update_self]
        exact hmark
      · rw [Function.update_of_ne heq]
        exact howner
  · rw [out_setMark]
    exact h.first

/-- A forward declaration is written unless it is there. -/
theorem declare (h : st.TagsInOrder ctx front) {id : Nat} {keyword name : CString}
    (hnew : st.fwdState id ≠ true)
    (howner : id ∈ front ∨ ∃ node, st.mark node ≠ .unseen ∧ NodeDeclares ctx node id) :
    ((st.print (.forwardDecl id keyword name)).setFwd id).TagsInOrder ctx front := by
  have hids : forwardIds ((st.print (.forwardDecl id keyword name)).setFwd id).out =
      forwardIds st.out ++ [id] := by
    rw [out_setFwd, out_print, forwardIds_append]
    rfl
  constructor
  · intro other
    rw [hids, List.mem_append, List.mem_singleton, ← h.state_iff]
    change Function.update st.fwdState id true other = true ↔ _
    by_cases heq : other = id
    · simp [heq]
    · simp [heq]
  · rw [hids]
    refine List.nodup_append.mpr ⟨h.nodup, List.nodup_singleton id, ?_⟩
    intro other hother other' hother'
    rw [List.mem_singleton.mp hother']
    rintro rfl
    exact hnew ((h.state_iff other).mpr hother)
  · intro other hother
    rw [hids, List.mem_append, List.mem_singleton] at hother
    rcases hother with hother | rfl
    · exact h.owned other hother
    · exact howner
  · intro before item after node hsplit hnode other hother
    rw [out_setFwd, out_print] at hsplit
    rcases eq_last_or_of_split hsplit with ⟨_, rfl⟩ | ⟨after', hout⟩
    · cases hnode
    · exact h.first before item after' node hout hnode other hother

end EmitState.TagsInOrder

/-! ## One declaration -/

/-- The call is for a record or FWD with a name. -/
def IsTag (ctx : EmitCtx) (id : Nat) : Prop :=
  ∃ type, btfTypeById ctx.btf id = some type ∧ isForwardable ctx.btf type = true

theorem emitForwardDecl_tags {ctx : EmitCtx} {front : Set Nat} {id : Nat} {st st' : EmitState}
    (h : emitForwardDecl ctx id st = .ok st') (hst : st.TagsInOrder ctx front)
    (howner : IsTag ctx id →
      id ∈ front ∨ ∃ node, st.mark node ≠ .unseen ∧ NodeDeclares ctx node id) :
    st'.TagsInOrder ctx front ∧ (IsTag ctx id → id ∈ forwardIds st'.out) := by
  unfold emitForwardDecl at h
  obtain ⟨type, htype, h⟩ := bind_eq_ok.mp h
  rw [typeById_eq_ok] at htype
  have htag : IsTag ctx id ↔
      (type.kind.isRecord = true ∨ type.kind = .fwd) ∧ mchBtfTypeName ctx.btf type ≠ [] := by
    unfold IsTag
    rw [htype]
    simp [isForwardable]
  split at h
  next hkind =>
    cases h
    refine ⟨hst, fun hid => ?_⟩
    rcases (htag.mp hid).1 with hrecord | hfwd
    · rw [hkind.1] at hrecord
      cases hrecord
    · exact absurd hfwd hkind.2
  next hkind =>
    simp only at h
    have hkind' : type.kind.isRecord = true ∨ type.kind = .fwd := by
      by_contra hnot
      simp only [not_or, Bool.not_eq_true] at hnot
      exact hkind hnot
    by_cases hdone : mchBtfTypeName ctx.btf type = [] ∨ st.fwdState id = true
    · rw [if_pos hdone] at h
      cases h
      refine ⟨hst, fun hid => (hst.state_iff id).mp ?_⟩
      exact hdone.resolve_left (htag.mp hid).2
    · rw [if_neg hdone] at h
      cases h
      have hname : mchBtfTypeName ctx.btf type ≠ [] := fun hnil => hdone (Or.inl hnil)
      have hnew : st.fwdState id ≠ true := fun hset => hdone (Or.inr hset)
      refine ⟨hst.declare hnew (howner (htag.mpr ⟨hkind', hname⟩)), fun _ => ?_⟩
      rw [out_setFwd, out_print, forwardIds_append]
      simp [forwardIds, Item.forward?]

/-! ## Walks -/

/-- What a step does to the declarations: they stay in order, none is lost, and the
declarations `tags` are there afterwards. -/
structure DeclaresTags (ctx : EmitCtx) (front : Set Nat) (st : EmitState) (tags : Nat → Prop)
    (st' : EmitState) : Prop where
  inOrder : st'.TagsInOrder ctx front
  kept : forwardIds st.out ⊆ forwardIds st'.out
  begun : ∀ node, st.mark node ≠ .unseen → st'.mark node ≠ .unseen
  declared : ∀ id, tags id → id ∈ forwardIds st'.out

section

variable {ctx : EmitCtx} {front : Set Nat} {fuel : Nat}

theorem Visits.kept {st st' : EmitState} {nodes : List Node} (h : Visits ctx st nodes st') :
    forwardIds st.out ⊆ forwardIds st'.out := by
  obtain ⟨items, hitems, _⟩ := h.printed
  rw [hitems, forwardIds_append]
  exact List.subset_append_left _ _

theorem Visits.begun {st st' : EmitState} {nodes : List Node} (h : Visits ctx st nodes st')
    (node : Node) (hnode : st.mark node ≠ .unseen) : st'.mark node ≠ .unseen :=
  h.run.ne_unseen hnode

/-- A walk keeps the declarations in order if it runs for a definition that was begun
and that declares whatever the walk declares. -/
def WalkKeepsTags (ctx : EmitCtx) (front : Set Nat) (fuel : Nat) : Prop :=
  ∀ owner from_ st st', walkDeps ctx fuel st from_ = .ok st' →
    (∀ id, WalkDeclares ctx from_ id → NodeDeclares ctx owner id) → st.mark owner ≠ .unseen →
      st.TagsInOrder ctx front → DeclaresTags ctx front st (WalkDeclares ctx from_) st'

def DefineKeepsTags (ctx : EmitCtx) (front : Set Nat) (fuel : Nat) : Prop :=
  ∀ node st st', defineNode ctx fuel st node = .ok st' →
    st.TagsInOrder ctx front → st'.TagsInOrder ctx front

theorem foldlM_walkDeps_tags (ih : WalkKeepsTags ctx front fuel) {owner : Node}
    {starts : List (Mode × Nat)}
    (howner : ∀ start ∈ starts, ∀ id, WalkDeclares ctx start id → NodeDeclares ctx owner id) :
    ∀ {st st' : EmitState}, starts.foldlM (walkDeps ctx fuel) st = .ok st' →
      st.mark owner ≠ .unseen → st.TagsInOrder ctx front →
        DeclaresTags ctx front st (fun id => ∃ start ∈ starts, WalkDeclares ctx start id) st' := by
  induction starts with
  | nil =>
      intro st st' h _ hst
      cases h
      exact ⟨hst, fun _ h => h, fun _ h => h, by simp⟩
  | cons start starts ihStarts =>
      intro st st' h hbegun hst
      obtain ⟨mid, hstart, hrest⟩ := foldlM_cons_eq_ok.mp h
      have hmid := ih owner start st mid hstart (howner start List.mem_cons_self) hbegun hst
      have hst' := ihStarts (fun other hother => howner other (List.mem_cons_of_mem _ hother)) hrest
        (hmid.begun owner hbegun) hmid.inOrder
      refine ⟨hst'.inOrder, fun id hid => hst'.kept (hmid.kept hid),
        fun node hnode => hst'.begun node (hmid.begun node hnode), ?_⟩
      rintro id ⟨other, hother, hid⟩
      rcases List.mem_cons.mp hother with rfl | hother
      · exact hst'.kept (hmid.declared id hid)
      · exact hst'.declared id ⟨other, hother, hid⟩

theorem mem_walkTags {at_ : Mode × Nat} {id : Nat} :
    id ∈ walkTags ctx at_ ↔ id = at_.2 ∧ IsTag ctx id ∧
      (at_.1 = .soft ∨ hasType ctx (fun type => type.kind == .fwd) id = true) := by
  unfold walkTags IsTag hasType
  cases htype : btfTypeById ctx.btf at_.2 with
  | none =>
      simp only [List.not_mem_nil, false_iff]
      rintro ⟨rfl, ⟨type, hsome, _⟩, _⟩
      rw [htype] at hsome
      cases hsome
  | some type =>
      simp only
      constructor
      · intro hmem
        split at hmem
        next hcond =>
          rw [List.mem_singleton.mp hmem, htype]
          obtain ⟨⟨hmode, hrecord⟩ | hfwd, hname⟩ := hcond
          · exact ⟨rfl, ⟨type, rfl, by simp [isForwardable, hrecord, hname]⟩, Or.inl hmode⟩
          · exact ⟨rfl, ⟨type, rfl, by simp [isForwardable, hfwd, hname]⟩, Or.inr (by simp [hfwd])⟩
        next => cases hmem
      · rintro ⟨rfl, ⟨found, hfound, htag⟩, hmode⟩
        rw [htype] at hfound hmode
        cases hfound
        simp only [isForwardable, Bool.and_eq_true, Bool.or_eq_true, beq_iff_eq,
          decide_eq_true_eq] at htag
        simp only [Option.any_some, beq_iff_eq] at hmode
        have hcond : (at_.1 = .soft ∧ type.kind.isRecord = true ∨ type.kind = .fwd) ∧
            mchBtfTypeName ctx.btf type ≠ [] := by
          refine ⟨?_, htag.2⟩
          rcases hmode with hsoft | hfwd
          · rcases htag.1 with hrecord | hfwd
            · exact Or.inl ⟨hsoft, hrecord⟩
            · exact Or.inr hfwd
          · exact Or.inr hfwd
        rw [if_pos hcond]
        exact List.mem_singleton.mpr rfl

/-- After its targets, a walk declares its own tag or asks for a definition that
declares none. -/
theorem walkLeaf_tags (ihDefine : DefineKeepsTags ctx front fuel) {owner : Node}
    {from_ : Mode × Nat} {type : BtfType} (htype : btfTypeById ctx.btf from_.2 = some type)
    (howner : ∀ id ∈ walkTags ctx from_, NodeDeclares ctx owner id) {st st' : EmitState}
    (h : walkLeaf ctx fuel from_ type st = .ok st') (hbegun : st.mark owner ≠ .unseen)
    (hst : st.TagsInOrder ctx front) :
    DeclaresTags ctx front st (fun id => id ∈ walkTags ctx from_) st' := by
  have hvisits := walkLeaf_visits (walk_and_define_visits ctx fuel).2 htype h
  have hnone : (st'.TagsInOrder ctx front ∧ walkTags ctx from_ = []) →
      DeclaresTags ctx front st (fun id => id ∈ walkTags ctx from_) st' := by
    rintro ⟨hst', hnil⟩
    refine ⟨hst', hvisits.kept, hvisits.begun, ?_⟩
    rw [hnil]
    simp
  unfold walkLeaf at h
  by_cases htypedef : type.kind = .typedef
  · rw [if_pos htypedef] at h
    refine hnone ⟨ihDefine (.typedef from_.2) st st' h hst, ?_⟩
    unfold walkTags
    rw [htype]
    simp [htypedef, Kind.isRecord]
  rw [if_neg htypedef] at h
  by_cases hrecord : from_.1 = .hard ∧ isNamedRecord ctx.btf type = true
  · rw [if_pos hrecord] at h
    refine hnone ⟨ihDefine (.record from_.2) st st' h hst, ?_⟩
    unfold walkTags
    rw [htype]
    rcases kind_of_isNamedRecord hrecord.2 with hkind | hkind <;> simp [hkind, hrecord.1]
  rw [if_neg hrecord] at h
  by_cases hforward : from_.1 = .soft ∧ type.kind.isRecord = true ∨ type.kind = .fwd
  · rw [if_pos hforward] at h
    have htag : IsTag ctx from_.2 → from_.2 ∈ walkTags ctx from_ := by
      rintro ⟨found, hfound, hname⟩
      rw [htype] at hfound
      cases hfound
      unfold walkTags
      rw [htype]
      have hname' : mchBtfTypeName ctx.btf type ≠ [] := by
        simpa using (Bool.and_eq_true_iff.mp hname).2
      simp [hforward, hname']
    obtain ⟨hst', hdeclared⟩ := emitForwardDecl_tags h hst
      fun hid => Or.inr ⟨owner, hbegun, howner _ (htag hid)⟩
    refine ⟨hst', hvisits.kept, hvisits.begun, ?_⟩
    intro id hid
    obtain ⟨rfl, htagged, _⟩ := mem_walkTags.mp hid
    exact hdeclared htagged
  · rw [if_neg hforward] at h
    cases h
    refine hnone ⟨hst, ?_⟩
    unfold walkTags
    rw [htype]
    simp [hforward]

theorem defineFresh_tags (ih : WalkKeepsTags ctx front fuel) {type : BtfType} {node : Node}
    {st st' : EmitState} (h : defineFresh ctx fuel type st node = .ok st')
    (hst : st.TagsInOrder ctx front) : st'.TagsInOrder ctx front := by
  obtain ⟨mid, hdeps, h⟩ := bind_eq_ok.mp h
  obtain ⟨item, hitem, h⟩ := bind_eq_ok.mp h
  cases h
  have hmid := @foldlM_walkDeps_tags ctx front fuel ih node _
    (fun start hstart id hid => ⟨start, hstart, hid⟩) _ _ hdeps
    (by rw [mark_setMark, Function.update_self]; decide) (hst.setMark (by decide))
  have hnode := nodeItem_node? hitem
  refine (hmid.inOrder.print ?_ ?_).setMark (by decide)
  · cases item <;> first | rfl | cases hnode
  · intro other hother id hid
    rw [hnode] at hother
    cases hother
    exact hmid.declared id hid

/-- Whatever the fuel, walks and definitions keep the declarations in order. -/
theorem walk_and_define_tags (ctx : EmitCtx) (front : Set Nat) (fuel : Nat) :
    WalkKeepsTags ctx front fuel ∧ DefineKeepsTags ctx front fuel := by
  induction fuel with
  | zero =>
      constructor
      · intro owner from_ st st' h
        rw [walkDeps_zero] at h
        cases h
      · intro node st st' h
        rw [defineNode_zero] at h
        cases h
  | succ fuel ih =>
      obtain ⟨ihWalk, ihDefine⟩ := ih
      constructor
      · intro owner from_ st st' h howner hbegun hst
        cases htype : btfTypeById ctx.btf from_.2 with
        | none =>
            rw [walkDeps_none htype] at h
            cases h
        | some type =>
            rw [walkDeps_succ htype] at h
            obtain ⟨mid, htargets, hleaf⟩ := bind_eq_ok.mp h
            have hmid := @foldlM_walkDeps_tags ctx front fuel ihWalk owner _
              (fun to_ hto id hid => howner id (walkDeclares_iff.mpr (Or.inl ⟨to_, hto, hid⟩)))
              _ _ htargets hbegun hst
            have hst' := walkLeaf_tags ihDefine htype
              (fun id hid => howner id (walkDeclares_iff.mpr (Or.inr hid))) hleaf
              (hmid.begun owner hbegun) hmid.inOrder
            refine ⟨hst'.inOrder, fun id hid => hst'.kept (hmid.kept hid),
              fun node hnode => hst'.begun node (hmid.begun node hnode), ?_⟩
            intro id hid
            rcases walkDeclares_iff.mp hid with htarget | hown
            · exact hst'.kept (hmid.declared id htarget)
            · exact hst'.declared id hown
      · intro node st st' h hst
        cases htype : btfTypeById ctx.btf node.id with
        | none =>
            rw [defineNode_none htype] at h
            cases h
        | some type =>
            cases hfits : node.Fits ctx type with
            | false =>
                rcases defineNode_of_not_fits st htype hfits with heq | ⟨_, heq⟩
                · rw [heq] at h
                  cases h
                  exact hst
                · rw [heq] at h
                  cases h
            | true =>
                rw [defineNode_of_fits htype hfits] at h
                cases hmark : st.mark node with
                | unseen =>
                    rw [hmark] at h
                    exact defineFresh_tags ihWalk h hst
                | active =>
                    rw [hmark] at h
                    cases node with
                    | record id =>
                        cases h
                        exact hst
                    | typedef id => cases h
                | done =>
                    rw [hmark] at h
                    cases h
                    exact hst

end

/-! ## Whole headers -/

/-- The required records and FWDs that have a name. -/
def frontTags (ctx : EmitCtx) (required : Set Nat) : Set Nat := { id | id ∈ required ∧ IsTag ctx id }

section

variable {ctx : EmitCtx} {front : Set Nat} {ids : List Nat}

theorem forwardLoop_tags (hfront : ∀ id ∈ ids, IsTag ctx id → id ∈ front) :
    ∀ {st st' : EmitState}, ids.foldlM (fun st id => emitForwardDecl ctx id st) st = .ok st' →
      st.TagsInOrder ctx front → st'.TagsInOrder ctx front := by
  intro st st' h hst
  refine foldlM_keeps (I := EmitState.TagsInOrder ctx front) ?_ hst h
  intro id hid st st' hst hstep
  exact (emitForwardDecl_tags hstep hst fun htag => Or.inl (hfront id hid htag)).1

theorem enumLoop_tags {st st' : EmitState}
    (h : ids.foldlM (fun st id => emitEnumDefinition ctx id st) st = .ok st')
    (hst : st.TagsInOrder ctx front) : st'.TagsInOrder ctx front := by
  refine foldlM_keeps (I := EmitState.TagsInOrder ctx front) ?_ hst h
  intro id _ st st' hst hstep
  obtain ⟨type, _, hstep⟩ := bind_eq_ok.mp hstep
  cases hstep
  apply hst.print rfl
  intro node hnode
  cases hnode

theorem defineLoop_tags {fuel : Nat} {nodes : List Node} {st st' : EmitState}
    (h : nodes.foldlM (defineNode ctx fuel) st = .ok st') (hst : st.TagsInOrder ctx front) :
    st'.TagsInOrder ctx front := by
  refine foldlM_keeps (I := EmitState.TagsInOrder ctx front) ?_ hst h
  intro node _ st st' hst hstep
  exact (walk_and_define_tags ctx front fuel).2 node st st' hstep hst

end

/-- The state before the closing of a header, and that every definition begun is in
reach of the required ones. -/
theorem emitHeader_tags {ctx : EmitCtx} {fuel : Nat} {required : TypeSet} {items : List Item}
    (h : emitHeader ctx fuel required = .ok items) :
    ∃ st : EmitState, items = st.out ++ headerClosing ∧
      st.TagsInOrder ctx (frontTags ctx required.ids) ∧
      ∀ node, st.mark node ≠ .unseen → Reached ctx required.ids node := by
  unfold emitHeader at h
  obtain ⟨groups, hgroups, h⟩ := bind_eq_ok.mp h
  obtain ⟨stFwds, hfwdLoop, h⟩ := bind_eq_ok.mp h
  obtain ⟨stEnums, henumLoop, h⟩ := bind_eq_ok.mp h
  obtain ⟨stTypedefs, htypedefLoop, h⟩ := bind_eq_ok.mp h
  obtain ⟨stRecords, hrecordLoop, h⟩ := bind_eq_ok.mp h
  cases h
  obtain ⟨_, hfwds, _, hrecords, htypedefs⟩ := collectEmitGroups_eq hgroups
  simp only [List.nil_append] at hfwds hrecords htypedefs
  have hopening : EmitState.TagsInOrder ctx (frontTags ctx required.ids)
      { initialEmitState with out := headerOpening } := by
    refine ⟨fun id => ?_, List.nodup_nil, fun id hid => ?_, ?_⟩
    · change false = true ↔ id ∈ []
      simp
    · cases hid
    · intro before item after node hsplit hnode
      have hitem : item ∈ headerOpening := by
        rw [show headerOpening = before ++ item :: after from hsplit]
        simp
      simp only [headerOpening, List.mem_cons, List.not_mem_nil, or_false] at hitem
      rcases hitem with rfl | rfl | rfl <;> cases hnode
  have hfront : ∀ id ∈ groups.fwds, IsTag ctx id → id ∈ frontTags ctx required.ids := by
    intro id hid htag
    rw [hfwds] at hid
    exact ⟨mem_requiredIds.mp (List.mem_filter.mp hid).1, htag⟩
  have hstFwds := forwardLoop_tags hfront hfwdLoop hopening
  have hstEnums := enumLoop_tags henumLoop
    (hstFwds.print rfl fun node hnode => by cases hnode)
  have hdefs : (groups.typedefs.map Node.typedef ++ groups.records.map Node.record).foldlM
      (defineNode ctx fuel) stEnums = .ok stRecords := by
    rw [List.foldlM_append, bind_eq_ok]
    refine ⟨stTypedefs, ?_, ?_⟩
    · rw [List.foldlM_map]
      exact htypedefLoop
    · rw [List.foldlM_map]
      exact hrecordLoop
  have hunseen : ∀ node, stEnums.mark node = .unseen := by
    obtain ⟨_, hmarkFwds⟩ := forwardLoop_eq (by
      rw [hfwds]
      exact (requiredIds_nodup required).filter _) (by
      intro id hid
      rw [hfwds] at hid
      exact ⟨(List.mem_filter.mp hid).2, rfl⟩) hfwdLoop
    obtain ⟨_, hmarkEnums⟩ := enumLoop_eq henumLoop
    intro node
    rw [hmarkEnums, mark_print, hmarkFwds]
    cases node <;> rfl
  refine ⟨stRecords, rfl, defineLoop_tags hdefs hstEnums, ?_⟩
  intro node hnode
  have hrun := (defineLoop_visits hdefs).run
  have hdone : stRecords.search.mark node = .done := by
    cases hmark : stRecords.search.mark node with
    | unseen => exact absurd hmark hnode
    | active =>
        have hbefore := (hrun.active_iff node).mp hmark
        rw [show stEnums.search.mark node = .unseen from hunseen node] at hbefore
        cases hbefore
    | done => rfl
  rcases hrun.reached hdone with hbefore | ⟨start, hstart, hreach⟩
  · rw [show stEnums.search.mark node = .unseen from hunseen node] at hbefore
    cases hbefore
  · obtain ⟨hmem, hisNode⟩ := List.mem_filter.mp hstart
    refine ⟨start, ?_, hisNode, hreach⟩
    rw [htypedefs, hrecords, List.mem_append, List.mem_map, List.mem_map] at hmem
    rcases hmem with ⟨id, hid, rfl⟩ | ⟨id, hid, rfl⟩
    · exact mem_requiredIds.mp (List.mem_filter.mp hid).1
    · exact mem_requiredIds.mp (List.mem_filter.mp hid).1

theorem Layout.mem_forwardIds_front {ctx : EmitCtx} {required : TypeSet}
    {fwds enums defs : List Item} (h : Layout ctx required fwds enums defs) {id : Nat}
    (hid : id ∈ frontTags ctx required.ids) : id ∈ forwardIds (headerFront fwds enums) := by
  obtain ⟨hreq, type, htype, htag⟩ := hid
  have hitem : forwardItem ctx id ∈ fwds := by
    rw [h.fwds_eq]
    apply List.mem_map_of_mem
    exact List.mem_filter.mpr ⟨mem_requiredIds.mpr hreq, hasType_eq_true.mpr ⟨type, htype, htag⟩⟩
  refine List.mem_filterMap.mpr ⟨forwardItem ctx id, ?_, ?_⟩
  · unfold headerFront
    exact List.mem_append_left _ (List.mem_append_right _ hitem)
  · unfold forwardItem
    rw [htype]
    rfl

/-- The forward declarations of a header: which there are, each written once, and
each before the definitions that need it. -/
theorem emitHeader_forwards {ctx : EmitCtx} {fuel : Nat} {required : TypeSet} {items : List Item}
    (h : emitHeader ctx fuel required = .ok items) :
    (forwardIds items).Nodup ∧
    (∀ id, id ∈ forwardIds items ↔ id ∈ frontTags ctx required.ids ∨
      ∃ node, Reached ctx required.ids node ∧ NodeDeclares ctx node id) ∧
    ∀ before item after node, items = before ++ item :: after → item.node? = some node →
      ∀ id, id ∈ frontTags ctx required.ids ∨ NodeDeclares ctx node id → id ∈ forwardIds before := by
  obtain ⟨st, rfl, hst, hbegun⟩ := emitHeader_tags h
  obtain ⟨fwds, enums, defs, hitems, hlayout⟩ := emitHeader_layout h
  have hclosing : forwardIds (st.out ++ headerClosing) = forwardIds st.out := by
    rw [forwardIds_append]
    exact List.append_nil _
  have hfirst : ∀ before item after node, st.out ++ headerClosing = before ++ item :: after →
      item.node? = some node →
        ∀ id, id ∈ frontTags ctx required.ids ∨ NodeDeclares ctx node id →
          id ∈ forwardIds before := by
    intro before item after node hsplit hnode id hid
    rcases hid with hfront | hdeclares
    · obtain ⟨pre, post, _, hbefore⟩ := hlayout.split (hitems.symm.trans hsplit) hnode
      rw [hbefore, forwardIds_append]
      exact List.mem_append_left _ (hlayout.mem_forwardIds_front hfront)
    · obtain ⟨pre, post, hout, hbefore⟩ := @split_middle _ [] _ _ _ _ _ hsplit (by simp) (by
        intro hitem
        simp only [headerClosing, List.mem_cons, List.not_mem_nil, or_false] at hitem
        rcases hitem with rfl | rfl <;> cases hnode)
      rw [hbefore, List.nil_append]
      exact hst.first pre item post node hout hnode id hdeclares
  refine ⟨hclosing ▸ hst.nodup, ?_, hfirst⟩
  intro id
  constructor
  · intro hid
    rw [hclosing] at hid
    rcases hst.owned id hid with hfront | ⟨node, hnode, hdeclares⟩
    · exact Or.inl hfront
    · exact Or.inr ⟨node, hbegun node hnode, hdeclares⟩
  · rintro (hfront | ⟨node, hreached, hdeclares⟩)
    · rw [hitems]
      refine List.mem_filterMap.mpr ?_
      obtain ⟨item, hitem, hid⟩ := List.mem_filterMap.mp (hlayout.mem_forwardIds_front hfront)
      exact ⟨item, List.mem_append_left _ (List.mem_append_left _ hitem), hid⟩
    · obtain ⟨pre, item, post, hdefs, hnode⟩ :=
        exists_item_of_mem_definedNodes ((hlayout.mem_definedNodes_iff node).mpr hreached)
      have hsplit : st.out ++ headerClosing =
          (headerFront fwds enums ++ pre) ++ item :: (post ++ headerClosing) := by
        rw [hitems, hdefs]
        simp [headerItems, headerFront]
      have hmem := hfirst _ _ _ node hsplit hnode id (Or.inr hdeclares)
      rw [hsplit, forwardIds_append]
      exact List.mem_append_left _ hmem

/-- What a run declares forward: the required records and FWDs and what the walks of its
definitions meet, each once and before the definitions that need it. -/
theorem closeAndEmit_forwards {base : Btf} {seeds : TypeSet} {options : ClosureOptions}
    {fuel : Nat} {items : List Item} {added : Nat} (hcount : seeds.count = btfTypeCnt base)
    (h : closeAndEmit fuel base seeds options = .ok (items, added)) :
    (forwardIds items).Nodup ∧
    (∀ id, id ∈ forwardIds items ↔
      id ∈ frontTags (emitCtx base options.requirements) (closureSet base options seeds) ∨
        ∃ node, Reached (emitCtx base options.requirements) (closureSet base options seeds) node ∧
          NodeDeclares (emitCtx base options.requirements) node id) ∧
    ∀ before item after node, items = before ++ item :: after → item.node? = some node →
      ∀ id, id ∈ frontTags (emitCtx base options.requirements) (closureSet base options seeds) ∨
        NodeDeclares (emitCtx base options.requirements) node id → id ∈ forwardIds before := by
  obtain ⟨⟨required, added'⟩, hclose, h⟩ := bind_eq_ok.mp h
  obtain ⟨items', hemit, h⟩ := bind_eq_ok.mp h
  cases h
  obtain ⟨_, hids⟩ := contains_closure_iff hcount hclose
  have hset : required.ids = closureSet base options seeds := Set.ext hids
  rw [← hset]
  exact emitHeader_forwards hemit

/-- `struct R { struct S *p; struct S *q; }`, where nothing requires `struct S`. -/
def recordBehindPointer : Btf where
  types := [
    { nameOff := 1, kind := .struct, size := 16,
      members := [{ nameOff := 3, type := 2 }, { nameOff := 5, type := 2, offset := 64 }] },
    { kind := .ptr, type := 3 },
    { nameOff := 7, kind := .struct, size := 4, members := [{ nameOff := 9, type := 4 }] },
    { nameOff := 11, kind := .int, size := 4, intInfo := 0x01000020 }]
  strs := "\x00R\x00p\x00q\x00S\x00x\x00int\x00".toList

def recordBehindPointerItems : List Item :=
  headerItems [.forwardDecl 1 "struct".toList ['R']] [] [
    .forwardDecl 3 "struct".toList ['S'],
    .recordDef 1 "struct".toList ['R'] [.text " \x7b\n".toList,
      .member 1 0, .tagName 3 "struct".toList ['S'], .text " *p".toList, .text ";\n".toList,
      .member 1 1, .tagName 3 "struct".toList ['S'], .text " *q".toList, .text ";\n".toList,
      .text "\x7d".toList]]

theorem closeAndEmit_forwards_recordBehindPointer :
    (forwardIds recordBehindPointerItems).Nodup ∧
    (∀ id, id ∈ forwardIds recordBehindPointerItems ↔
      id ∈ frontTags (emitCtx recordBehindPointer none)
          (closureSet recordBehindPointer {} (seedsOf recordBehindPointer [1])) ∨
        ∃ node, Reached (emitCtx recordBehindPointer none)
            (closureSet recordBehindPointer {} (seedsOf recordBehindPointer [1])) node ∧
          NodeDeclares (emitCtx recordBehindPointer none) node id) := by
  have hrun : closeAndEmit 10 recordBehindPointer (seedsOf recordBehindPointer [1]) {} =
      .ok (recordBehindPointerItems, 1) := by
    decide +kernel
  have hforwards := closeAndEmit_forwards (by decide) hrun
  exact ⟨hforwards.1, hforwards.2.1⟩

end MinCorehdr
