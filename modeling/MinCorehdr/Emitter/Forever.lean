import MinCorehdr.Emitter.Success

/-!
# Where the emission goes on forever

Once every error but a budget that runs out is excluded, the emission ends exactly where no
chain of references from a definition in reach goes on forever.
-/

namespace MinCorehdr

open Relation Support.DepthFirst Support.Fuel Support.Result

/-- Nothing that the emission does has an error of its own: the types it looks up are there,
no typedef in reach needs itself, and no definition in reach has, printed by itself, an error. -/
structure Undiagnosed (ctx : EmitCtx) (required : Set Nat) : Prop where
  typed : ∀ id ∈ required, ∃ type, btfTypeById ctx.btf id = some type
  walked : ∀ node, Reached ctx required node → ∀ start ∈ nodeStarts ctx node, ∀ to_,
    WalkReaches ctx start to_ → ∃ type, btfTypeById ctx.btf to_.2 = some type
  uncycled : ∀ id, Reached ctx required (.typedef id) →
    ¬TransGen (Needs ctx) (.typedef id) (.typedef id)
  printed : ∀ node, Reached ctx required node → ∀ type, btfTypeById ctx.btf node.id = some type →
    ∀ fuel, FailsIn (· = Fault.outOfFuel) (nodeItem ctx fuel type node)

/-- The only error is a budget that runs out. -/
abbrev NeverDiagnosed {α : Type} (x : Except Fault α) : Prop := FailsIn (· = Fault.outOfFuel) x

theorem NeverDiagnosed.of_ok {α : Type} {x : Except Fault α} (h : ∃ a, x = .ok a) :
    NeverDiagnosed x := by
  obtain ⟨a, rfl⟩ := h
  exact FailsIn.ok a

section

variable {ctx : EmitCtx} {required : Set Nat}

/-- What a walk says while it is called from definitions in reach. -/
def WalksUndiagnosed (ctx : EmitCtx) (required : Set Nat) (fuel : Nat) : Prop :=
  ∀ from_ st, (∀ to_, WalkReaches ctx from_ to_ → ∃ type, btfTypeById ctx.btf to_.2 = some type) →
    (∀ dep, WalkNeeds ctx from_ dep → Reached ctx required dep) →
      Ready ctx (WalkNeeds ctx from_) st → NeverDiagnosed (walkDeps ctx fuel st from_)

def DefinesUndiagnosed (ctx : EmitCtx) (required : Set Nat) (fuel : Nat) : Prop :=
  ∀ node st, (∃ type, btfTypeById ctx.btf node.id = some type) → st.ActiveFit ctx →
    (isNode ctx node = true → Reached ctx required node ∧ Above ctx st node) →
      NeverDiagnosed (defineNode ctx fuel st node)

theorem walksUndiagnosed {fuel : Nat} (ihWalk : WalksUndiagnosed ctx required fuel)
    (ihDefine : DefinesUndiagnosed ctx required fuel) : WalksUndiagnosed ctx required (fuel + 1) := by
  intro from_ st htyped hreached hst
  obtain ⟨type, htype⟩ := htyped from_ .refl
  have hneeds : ∀ to_ ∈ walkTargets ctx from_, ∀ dep, WalkNeeds ctx to_ dep →
      WalkNeeds ctx from_ dep := fun to_ hto dep hdep => walkNeeds_iff.mpr (Or.inl ⟨to_, hto, hdep⟩)
  rw [walkDeps_succ htype]
  apply FailsIn.bind
  · refine FailsIn.foldlM (fun to_ _ s t hs hwalk => hs.walkDeps hwalk) ?_ st hst
    intro to_ hto s hs
    exact ihWalk to_ s (fun last hlast => htyped last (.head hto hlast))
      (fun dep hdep => hreached dep (hneeds to_ hto dep hdep)) (hs.of_imp (hneeds to_ hto))
  · intro mid hmid
    have hready := foldlM_keeps (I := Ready ctx (WalkNeeds ctx from_))
      (fun to_ _ s t hs hwalk => hs.walkDeps hwalk) hst hmid
    rcases walkLeaf_cases htype with ⟨node, hid, hnodes, hleaf⟩ | ⟨_, hforward | hnothing⟩
    · rw [hleaf]
      have hneeded : isNode ctx node = true → WalkNeeds ctx from_ node := by
        intro hisNode
        rw [walkNeeds_iff, hnodes]
        exact Or.inr (by simp [ownNode, hisNode])
      refine ihDefine node mid ⟨type, by rw [hid, htype]⟩ hready.1 fun hisNode => ?_
      exact ⟨hreached node (hneeded hisNode), hready.2 node (hneeded hisNode)⟩
    · rw [hforward]
      exact NeverDiagnosed.of_ok (emitForwardDecl_of_typed mid htype)
    · rw [hnothing]
      exact FailsIn.ok _

theorem definesUndiagnosed (h : Undiagnosed ctx required) {fuel : Nat}
    (ihWalk : WalksUndiagnosed ctx required fuel) : DefinesUndiagnosed ctx required (fuel + 1) := by
  rintro node st ⟨type, htype⟩ hfit hnode
  cases hfits : node.Fits ctx type with
  | false =>
      rcases defineNode_of_not_fits st htype hfits with heq | ⟨hactive, _⟩
      · rw [heq]
        exact FailsIn.ok _
      · obtain ⟨own, hown, hfits'⟩ := isNode_eq_true.mp (hfit node hactive)
        cases htype.symm.trans hown
        rw [hfits] at hfits'
        cases hfits'
  | true =>
      have hisNode : isNode ctx node = true := isNode_eq_true.mpr ⟨type, htype, hfits⟩
      obtain ⟨hreached, habove⟩ := hnode hisNode
      rw [defineNode_of_fits htype hfits]
      cases hmark : st.mark node with
      | done => exact FailsIn.ok _
      | active =>
          cases node with
          | record id => exact FailsIn.ok _
          | typedef id => exact absurd (habove _ hmark) (h.uncycled id hreached)
      | unseen =>
          apply FailsIn.bind
          · refine FailsIn.foldlM (fun start _ s t hs hwalk => hs.walkDeps hwalk) ?_ _
              (Ready.enter hisNode hfit habove)
            intro start hstart s hs
            exact ihWalk start s (h.walked node hreached start hstart)
              (fun dep hdep => hreached.needs ⟨start, hstart, hdep⟩)
              (hs.of_imp fun dep hdep => ⟨start, hstart, hdep⟩)
          · intro mid _
            apply FailsIn.bind (h.printed node hreached type htype fuel)
            intro item _
            exact FailsIn.ok _

theorem walks_and_defines_undiagnosed (h : Undiagnosed ctx required) (fuel : Nat) :
    WalksUndiagnosed ctx required fuel ∧ DefinesUndiagnosed ctx required fuel := by
  induction fuel with
  | zero =>
      constructor
      · intro from_ st _ _ _
        rw [walkDeps_zero]
        exact FailsIn.error rfl
      · intro node st _ _ _
        rw [defineNode_zero]
        exact FailsIn.error rfl
  | succ fuel ih => exact ⟨walksUndiagnosed ih.1 ih.2, definesUndiagnosed h ih.1⟩

end

/-! ## The whole header -/

section

variable {ctx : EmitCtx} {required : TypeSet}

/-- A loop over required definitions. -/
theorem defineLoop_undiagnosed (h : Undiagnosed ctx required.ids) {fuel : Nat} {ids : List Nat}
    {toNode : Nat → Node} (hids : ∀ id ∈ ids, (toNode id).id ∈ requiredIds required) {st : EmitState}
    (hst : st.Settled) :
    NeverDiagnosed (ids.foldlM (fun st id => defineNode ctx fuel st (toNode id)) st) := by
  refine FailsIn.foldlM (I := EmitState.Settled) ?_ ?_ st hst
  · intro id _ s t hs hdefine
    exact (defineNode_visits hdefine).settled hs
  · intro id hid s hs
    have hrequired := mem_requiredIds.mp (hids id hid)
    refine (walks_and_defines_undiagnosed h fuel).2 _ s (h.typed _ hrequired)
      (fun other hother => absurd hother (hs other)) fun hisNode => ?_
    exact ⟨⟨toNode id, hrequired, hisNode, .refl⟩, fun other hother => absurd hother (hs other)⟩

theorem emitHeader_undiagnosed (h : Undiagnosed ctx required.ids) (fuel : Nat) :
    NeverDiagnosed (emitHeader ctx fuel required) := by
  have htyped : ∀ {id : Nat} {test : BtfType → Bool},
      id ∈ (requiredIds required).filter (hasType ctx test) →
        ∃ type, btfTypeById ctx.btf id = some type :=
    fun hid => h.typed _ (mem_requiredIds.mp (List.mem_filter.mp hid).1)
  unfold emitHeader
  apply FailsIn.bind
  · obtain ⟨groups, _, hgroups⟩ := collectEmitGroups_finishes h.typed
    exact NeverDiagnosed.of_ok ⟨groups, hgroups _ (Nat.le_refl _)⟩
  intro groups hgroups
  obtain ⟨_, hfwds, henums, hrecords, htypedefs⟩ := collectEmitGroups_eq hgroups
  simp only [List.nil_append] at hfwds henums hrecords htypedefs
  have hstart : ({ initialEmitState with out := headerOpening } : EmitState).Settled := by
    intro node
    cases node <;> exact Mark.noConfusion
  apply FailsIn.bind
  · refine FailsIn.foldlM (I := fun _ => True) (fun _ _ _ _ _ _ => trivial) ?_ _ trivial
    intro id hid s _
    rw [hfwds] at hid
    obtain ⟨type, htype⟩ := htyped hid
    exact NeverDiagnosed.of_ok (emitForwardDecl_of_typed s htype)
  intro stFwds hfwdLoop
  have hstFwds := foldlM_keeps (I := EmitState.Settled)
    (fun id _ s t hs ht => (emitForwardDecl_visits ht).settled hs) hstart hfwdLoop
  apply FailsIn.bind
  · refine FailsIn.foldlM (I := fun _ => True) (fun _ _ _ _ _ _ => trivial) ?_ _ trivial
    intro id hid s _
    rw [henums] at hid
    obtain ⟨type, htype⟩ := htyped hid
    unfold emitEnumDefinition
    rw [typeById_of_some htype]
    exact FailsIn.ok _
  intro stEnums henumLoop
  obtain ⟨_, hmarkEnums⟩ := enumLoop_eq henumLoop
  have hstEnums : stEnums.Settled := by
    intro node
    rw [hmarkEnums]
    exact hstFwds.print _ node
  apply FailsIn.bind
  · refine @defineLoop_undiagnosed _ _ h fuel _ Node.typedef ?_ stEnums hstEnums
    intro id hid
    rw [htypedefs] at hid
    exact (List.mem_filter.mp hid).1
  intro stTypedefs htypedefLoop
  have hstTypedefs := foldlM_keeps
    (fun id _ s t hs (ht : defineNode ctx fuel s (.typedef id) = .ok t) =>
      (defineNode_visits ht).settled hs) hstEnums htypedefLoop
  apply FailsIn.bind
  · refine @defineLoop_undiagnosed _ _ h fuel _ Node.record ?_ stTypedefs hstTypedefs
    intro id hid
    rw [hrecords] at hid
    exact (List.mem_filter.mp hid).1
  intro st _
  exact FailsIn.ok _

end

/-- The emission ends where no chain of references from a definition in reach goes on forever,
along the walks, through one declarator or through new ones.  Where nothing else is wrong it ends
only there, and it never succeeds elsewhere. -/
theorem mchEmitHeaderWithOptions_halts {base : Btf} {required : TypeSet}
    {requirements : Option Requirements} :
    ((∀ node, Reached (emitCtx base requirements) required.ids node →
        NodeEnds (emitCtx base requirements) node) →
      Halts .outOfFuel fun fuel => mchEmitHeaderWithOptions fuel base required requirements) ∧
    (Undiagnosed (emitCtx base requirements) required.ids →
      ((Halts .outOfFuel fun fuel => mchEmitHeaderWithOptions fuel base required requirements) ↔
        ∀ node, Reached (emitCtx base requirements) required.ids node →
          NodeEnds (emitCtx base requirements) node)) ∧
    ((∃ fuel, Succeeds (mchEmitHeaderWithOptions fuel base required requirements)) →
      ∀ node, Reached (emitCtx base requirements) required.ids node →
        NodeEnds (emitCtx base requirements) node) := by
  have hsucceeds : (∃ fuel, Succeeds (mchEmitHeaderWithOptions fuel base required requirements)) →
      ∀ node, Reached (emitCtx base requirements) required.ids node →
        NodeEnds (emitCtx base requirements) node := by
    rintro ⟨fuel, items, h⟩ node hreached
    obtain ⟨fwds, enums, defs, _, hlayout⟩ := emitHeader_layout h
    obtain ⟨item, _, hnode, hfrom⟩ := hlayout.exists_item hreached
    exact nodeEnds_of_item hfrom hnode
  refine ⟨emitHeader_halts, fun hundiagnosed => ⟨?_, emitHeader_halts⟩, hsucceeds⟩
  rintro ⟨result, fuel, hresult, hrun⟩
  -- a result that is no budget running out is a header
  have hlast := hrun fuel (Nat.le_refl fuel)
  cases result with
  | error fault =>
      have hfault := emitHeader_undiagnosed hundiagnosed fuel fault hlast
      exact absurd (congrArg _ hfault) hresult
  | ok items => exact hsucceeds ⟨fuel, items, hlast⟩

/-- `struct R { x; }`, where the type of `x` is a `const` of a `const` of itself. -/
def constCycle : Btf where
  types := [
    { nameOff := 1, kind := .struct, size := 4, members := [{ nameOff := 3, type := 2 }] },
    { kind := .const, type := 3 },
    { kind := .const, type := 2 }]
  strs := "\x00R\x00x\x00".toList

theorem constCycle_required {id : Nat} (h : id ∈ (seedsOf constCycle [1]).ids) : id = 1 := by
  have hall : ∀ id ∈ requiredIds (seedsOf constCycle [1]), id = 1 := by decide
  exact hall id (mem_requiredIds.mpr h)

theorem constCycle_walkReaches {start to_ : Mode × Nat}
    (hstart : start ∈ nodeStarts (emitCtx constCycle none) (.record 1))
    (h : WalkReaches (emitCtx constCycle none) start to_) : to_ ∈ [(Mode.hard, 2), (.hard, 3)] := by
  obtain rfl : start = (.hard, 2) := List.mem_singleton.mp hstart
  exact mem_of_follow (by decide) (by decide) h

/-- Only the record is in reach. -/
theorem constCycle_reached {node : Node}
    (h : Reached (emitCtx constCycle none) (seedsOf constCycle [1]).ids node) : node = .record 1 := by
  obtain ⟨first, hid, hisNode, hreach⟩ := h
  have hfirst : first ∈ [Node.record 1] := mem_of_isNode (by decide) hisNode
  rw [List.mem_singleton.mp hfirst] at hreach
  induction hreach with
  | refl => rfl
  | @tail mid last _ hneeds ih =>
      rw [ih] at hneeds
      have hnone : last ∈ ([] : List Node) :=
        hneeds.follow [(.hard, 2), (.hard, 3)] (by decide) (by decide) (by decide)
      cases hnone

/-- The loop over qualifiers goes around the cycle, whatever the budget. -/
theorem constCycle_peelQualifiers (fuel : Nat) :
    ∀ mask, peelQualifiers (emitCtx constCycle none) fuel 2 mask = .error .outOfFuel ∧
      peelQualifiers (emitCtx constCycle none) fuel 3 mask = .error .outOfFuel := by
  induction fuel with
  | zero => exact fun _ => ⟨rfl, rfl⟩
  | succ fuel ih =>
      intro mask
      exact ⟨(ih _).2, (ih _).1⟩

theorem constCycle_emitDeclEx (fuel : Nat) (declarator : CString) :
    emitDeclEx (emitCtx constCycle none) fuel 2 declarator = .error .outOfFuel := by
  cases fuel with
  | zero => rfl
  | succ fuel =>
      change emitQualifiedDecl (emitCtx constCycle none) (emitDeclEx (emitCtx constCycle none) fuel)
        fuel 2 declarator = _
      rw [emitQualifiedDecl, (constCycle_peelQualifiers fuel 0).1, error_bind]

theorem constCycle_undiagnosed :
    Undiagnosed (emitCtx constCycle none) (seedsOf constCycle [1]).ids where
  typed := by
    intro id hid
    rw [constCycle_required hid]
    exact ⟨_, rfl⟩
  walked := by
    intro node hnode start hstart to_ hto
    rw [constCycle_reached hnode] at hstart
    have hids : ∀ at_ ∈ [(Mode.hard, 2), (.hard, 3)],
        (btfTypeById (emitCtx constCycle none).btf at_.2).isSome := by
      decide
    exact Option.isSome_iff_exists.mp (hids to_ (constCycle_walkReaches hstart hto))
  uncycled := by
    intro id hid
    cases constCycle_reached hid
  printed := by
    intro node hnode type htype fuel
    rw [constCycle_reached hnode] at htype ⊢
    cases htype
    have hkeeps : (emitCtx constCycle none).keeps 1 0 = true := rfl
    simp only [nodeItem, emitRecordBody, List.zipIdx_cons, collect, emitMember, hkeeps,
      Bool.true_eq_false, if_false, constCycle_emitDeclEx, error_bind]
    exact FailsIn.error rfl

/-- A header that is printed ends; nothing is wrong with the cycle but that it does not. -/
theorem mchEmitHeaderWithOptions_halts_constCycle :
    (Halts .outOfFuel fun fuel =>
        mchEmitHeaderWithOptions fuel enumBehindPointer (seedsOf enumBehindPointer [1]) none) ∧
      ¬Halts .outOfFuel fun fuel =>
        mchEmitHeaderWithOptions fuel constCycle (seedsOf constCycle [1]) none := by
  constructor
  · have hprinted : ∃ fuel, Succeeds (mchEmitHeaderWithOptions fuel enumBehindPointer
        (seedsOf enumBehindPointer [1]) none) :=
      ⟨10, exists_ok_of_isSome (by decide +kernel)⟩
    exact mchEmitHeaderWithOptions_halts.1 (mchEmitHeaderWithOptions_halts.2.2 hprinted)
  · intro hhalts
    have hends := (mchEmitHeaderWithOptions_halts.2.1 constCycle_undiagnosed).mp hhalts (.record 1)
      ⟨.record 1, mem_requiredIds.mp (by decide), by decide, .refl⟩
    refine Ends.irrefl (hends.walks (.hard, 2) (List.mem_singleton.mpr rfl)) ?_
    have hfirst : WalkStep (emitCtx constCycle none) (.hard, 2) (.hard, 3) :=
      List.mem_singleton.mpr rfl
    have hback : WalkStep (emitCtx constCycle none) (.hard, 3) (.hard, 2) :=
      List.mem_singleton.mpr rfl
    exact .tail (.single hfirst) hback

/-- The hard walk goes around the cycle, whatever the budget. -/
theorem constCycle_walk (fuel : Nat) :
    ∀ st, walkDeps (emitCtx constCycle none) fuel st (.hard, 2) = .error .outOfFuel ∧
      walkDeps (emitCtx constCycle none) fuel st (.hard, 3) = .error .outOfFuel := by
  have htwo : btfTypeById (emitCtx constCycle none).btf 2 = some { kind := .const, type := 3 } := rfl
  have hthree : btfTypeById (emitCtx constCycle none).btf 3 = some { kind := .const, type := 2 } := rfl
  have hnext : walkTargets (emitCtx constCycle none) (.hard, 2) = [(.hard, 3)] := by decide
  have hback : walkTargets (emitCtx constCycle none) (.hard, 3) = [(.hard, 2)] := by decide
  induction fuel with
  | zero =>
      intro st
      exact ⟨walkDeps_zero _ _ _, walkDeps_zero _ _ _⟩
  | succ fuel ih =>
      intro st
      obtain ⟨ihTwo, ihThree⟩ := ih st
      constructor
      · rw [walkDeps_succ htwo, hnext, List.foldlM_cons, ihThree]
        rfl
      · rw [walkDeps_succ hthree, hback, List.foldlM_cons, ihTwo]
        rfl

theorem constCycle_define (fuel : Nat) {st : EmitState} (hmark : st.recordState 1 = .unseen) :
    emitRecordDefinition (emitCtx constCycle none) fuel 1 st = .error .outOfFuel := by
  change defineNode (emitCtx constCycle none) fuel st (.record 1) = .error .outOfFuel
  cases fuel with
  | zero => exact defineNode_zero _ _ _
  | succ fuel =>
      have hunseen : st.mark (.record 1) = .unseen := hmark
      have hstarts : nodeStarts (emitCtx constCycle none) (.record 1) = [(.hard, 2)] := by decide
      rw [defineNode_of_fits rfl (by decide), hunseen]
      simp only [defineFresh, hstarts, List.foldlM_cons, (constCycle_walk fuel _).1, error_bind]

/-- Every reference is in range, and the emission never ends. -/
theorem constCycle_runsForever :
    (∀ id < btfTypeCnt constCycle, ∀ type, btfTypeById constCycle id = some type →
        type.type < btfTypeCnt constCycle ∧
          ∀ member ∈ type.members, member.type < btfTypeCnt constCycle) ∧
      ∀ fuel, mchEmitHeaderWithOptions fuel constCycle (seedsOf constCycle [1]) none =
        .error .outOfFuel := by
  constructor
  · intro id hid type htype
    rcases id with _ | _ | _ | _ | id
    all_goals first
      | (cases htype; decide)
      | cases htype
  · intro fuel
    have hgroups : collectEmitGroups (emitCtx constCycle none) (seedsOf constCycle [1]) =
        .ok { fwds := [1], records := [1] } := by
      rfl
    obtain ⟨st, hst, hmark⟩ : ∃ st : EmitState,
        [1].foldlM (fun st id => emitForwardDecl (emitCtx constCycle none) id st)
            { initialEmitState with out := headerOpening } = .ok st ∧
          st.recordState 1 = .unseen :=
      ⟨_, rfl, rfl⟩
    unfold mchEmitHeaderWithOptions emitHeader
    rw [hgroups, ok_bind]
    simp only
    rw [hst, ok_bind]
    simp only [List.foldlM_nil, pure_eq_ok, ok_bind, List.foldlM_cons]
    have hstuck : emitRecordDefinition (emitCtx constCycle none) fuel 1 (st.print (.text ['\n'])) =
        .error .outOfFuel :=
      constCycle_define fuel hmark
    rw [hstuck]
    rfl

end MinCorehdr
