import MinCorehdr.Emitter.Declared

/-!
# The order of the definitions

Where the definitions can be put in an order at all, what a definition needs
comes earlier in that order, so the search meets no definition in progress.
-/

namespace MinCorehdr

open Relation Support.DepthFirst Support.Result

/-! ## Orders of definitions -/

/-- The kinds that only wrap another type. -/
def isWrapperKind (kind : Kind) : Bool :=
  match kind with
  | .const | .volatile | .restrict | .typeTag | .declTag => true
  | _ => false

/-- The qualifiers and tags at `id` end after fewer than `n` links. -/
def wrappedBelow (btf : Btf) : Nat → Nat → Bool
  | 0, _ => false
  | n + 1, id =>
      match btfTypeById btf id with
      | none => true
      | some type => if isWrapperKind type.kind then wrappedBelow btf n type.type else true

def Btf.ShortWrappers (btf : Btf) : Prop :=
  ∀ id type, btfTypeById btf id = some type → type.kind = .typedef →
    wrappedBelow btf 32 type.type = true

/-- The member is kept by the requirement store: no member of the record is required, or
this one is. -/
def KeptByStore (requirements : Option Requirements) (id i : Nat) : Prop :=
  ∀ store, requirements = some store → mchRequirementsHasRecordMembers store id = true →
    mchRequirementsContainsRecordMember store id i = true

/-- In C, `id` is a part of an object of the type: the type itself, what an array, a typedef, a
qualifier or a tag is about, or a member that is kept of a record without a name. -/
inductive PartOf (btf : Btf) (kept : Nat → Nat → Prop) (id : Nat) : Nat → Prop
  | self : PartOf btf kept id id
  | element {from_ : Nat} {type : BtfType} : btfTypeById btf from_ = some type →
      type.kind = .array → PartOf btf kept id type.array.type → PartOf btf kept id from_
  | target {from_ : Nat} {type : BtfType} : btfTypeById btf from_ = some type →
      type.kind = .typedef ∨ isWrapperKind type.kind = true → PartOf btf kept id type.type →
        PartOf btf kept id from_
  | member {from_ i : Nat} {type : BtfType} {member : BtfMember} : btfTypeById btf from_ = some type →
      type.kind.isRecord = true → mchBtfTypeName btf type = [] → type.members[i]? = some member →
        kept from_ i → PartOf btf kept id member.type → PartOf btf kept id from_

/-- The definition has a part of type `id`. -/
inductive HasPart (btf : Btf) (kept : Nat → Nat → Prop) (id : Nat) : Node → Prop
  | member {own i : Nat} {type : BtfType} {member : BtfMember} : btfTypeById btf own = some type →
      type.members[i]? = some member → kept own i → PartOf btf kept id member.type →
        HasPart btf kept id (.record own)
  | target {own : Nat} {type : BtfType} : btfTypeById btf own = some type →
      PartOf btf kept id type.type → HasPart btf kept id (.typedef own)

theorem keptByStore_iff {base : Btf} {requirements : Option Requirements} {id i : Nat} :
    KeptByStore requirements id i ↔ (emitCtx base requirements).keeps id i = true := by
  unfold KeptByStore emitCtx keepsMember
  cases requirements with
  | none => simp
  | some store =>
      simp only [Option.some.injEq, forall_eq', Bool.not_eq_true', Bool.and_eq_false_imp,
        Bool.not_eq_false']

/-- The parts are what the hard walk goes through. -/
theorem byValue_iff_partOf {ctx : EmitCtx} {kept : Nat → Nat → Prop}
    (hkept : ∀ id i, kept id i ↔ ctx.keeps id i = true) {from_ id : Nat} :
    ByValue ctx from_ id ↔ PartOf ctx.btf kept id from_ := by
  constructor
  · intro h
    induction h using ReflTransGen.head_induction_on with
    | refl => exact .self
    | @head first mid hstep _ ih =>
        unfold hardTargets at hstep
        cases htype : btfTypeById ctx.btf first with
        | none => simp [htype] at hstep
        | some type =>
            simp only [htype] at hstep
            have hmember : type.kind.isRecord = true →
                mid ∈ (if isNamedRecord ctx.btf type then [] else keptTypes ctx.keeps first type) →
                  PartOf ctx.btf kept id first := by
              intro hrecord hmem
              split at hmem
              next => cases hmem
              next hnamed =>
                obtain ⟨member, i, hmember, hkeeps, rfl⟩ := mem_keptTypes.mp hmem
                have hname : mchBtfTypeName ctx.btf type = [] := by
                  simpa [isNamedRecord, hrecord] using hnamed
                exact .member htype hrecord hname hmember ((hkept first i).mpr hkeeps) ih
            cases hkind : type.kind <;> simp only [hkind] at hstep
            case array => exact .element htype hkind (List.mem_singleton.mp hstep ▸ ih)
            case typedef | volatile | const | restrict | typeTag | declTag =>
              exact .target htype (by simp [hkind, isWrapperKind]) (List.mem_singleton.mp hstep ▸ ih)
            case struct | union => exact hmember (by rw [hkind]; rfl) hstep
            all_goals cases hstep
  · intro h
    induction h with
    | self => exact .refl
    | element htype hkind _ ih => exact .head (by simp [hardTargets, htype, hkind]) ih
    | @target from_ type htype hkind _ ih =>
        refine .head ?_ ih
        unfold hardTargets
        cases hcase : type.kind <;> simp_all [isWrapperKind]
    | @member from_ i type member htype hrecord hname hmember hkeep _ ih =>
        have hmem : member.type ∈ keptTypes ctx.keeps from_ type :=
          mem_keptTypes.mpr ⟨member, i, hmember, (hkept from_ i).mp hkeep, rfl⟩
        have hnamed : isNamedRecord ctx.btf type = false := by simp [isNamedRecord, hname]
        refine .head ?_ ih
        unfold hardTargets
        cases hcase : type.kind <;> simp_all [Kind.isRecord]

theorem usesByValue_iff_hasPart {ctx : EmitCtx} {kept : Nat → Nat → Prop}
    (hkept : ∀ id i, kept id i ↔ ctx.keeps id i = true) {node : Node} {id : Nat} :
    UsesByValue ctx node id ↔ HasPart ctx.btf kept id node := by
  unfold UsesByValue nodeTypes
  constructor
  · rintro ⟨start, hstart, hparts⟩
    have hpart := (byValue_iff_partOf hkept).mp hparts
    cases node with
    | record own =>
        cases htype : btfTypeById ctx.btf own with
        | none => simp [Node.id, htype] at hstart
        | some type =>
            simp only [Node.id, htype] at hstart
            obtain ⟨member, i, hmember, hkeeps, rfl⟩ := mem_keptTypes.mp hstart
            exact .member htype hmember ((hkept own i).mpr hkeeps) hpart
    | typedef own =>
        cases htype : btfTypeById ctx.btf own with
        | none => simp [Node.id, htype] at hstart
        | some type =>
            simp only [Node.id, htype, List.mem_singleton] at hstart
            rw [hstart] at hpart
            exact .target htype hpart
  · intro h
    cases h with
    | @member own i type member htype hmember hkeep hpart =>
        refine ⟨member.type, ?_, (byValue_iff_partOf hkept).mpr hpart⟩
        simp only [Node.id, htype]
        exact mem_keptTypes.mpr ⟨member, i, hmember, (hkept own i).mp hkeep, rfl⟩
    | @target own type htype hpart =>
        refine ⟨type.type, ?_, (byValue_iff_partOf hkept).mpr hpart⟩
        simp [Node.id, htype]

/-- Behind qualifiers and tags, `id` is an array or a record without a name: a
typedef for it needs the records in it to be complete. -/
inductive IsAggregate (ctx : EmitCtx) : Nat → Prop
  | array {id : Nat} {type : BtfType} :
      btfTypeById ctx.btf id = some type → type.kind = .array → IsAggregate ctx id
  | record {id : Nat} {type : BtfType} :
      btfTypeById ctx.btf id = some type → type.kind.isRecord = true →
        mchBtfTypeName ctx.btf type = [] → IsAggregate ctx id
  | wrapper {id : Nat} {type : BtfType} :
      btfTypeById ctx.btf id = some type → isWrapperKind type.kind = true →
        IsAggregate ctx type.type → IsAggregate ctx id

/-- The definition contains the named record `id` by value. -/
def Contains (ctx : EmitCtx) (node : Node) (id : Nat) : Prop :=
  HasPart ctx.btf (fun id i => ctx.keeps id i = true) id node ∧ hasType ctx (isNamedRecord ctx.btf) id = true ∧
    ∀ typedefId, node = .typedef typedefId → ∃ type,
      btfTypeById ctx.btf typedefId = some type ∧ IsAggregate ctx type.type

/-- Records are defined before what contains them by value, typedefs are declared
before what mentions them. -/
structure ValidOrder (ctx : EmitCtx) (order : List Node) : Prop where
  records : ∀ before node after, order = before ++ node :: after →
    ∀ id, Contains ctx node id → .record id ∈ before
  typedefs : ∀ before node after, order = before ++ node :: after →
    ∀ id name, NodeShows ctx node (.typedefName id name) → .typedef id ∈ before

theorem isAggregate_of_needsHardDepsFrom {ctx : EmitCtx} {n : Nat} :
    ∀ {id : Nat}, wrappedBelow ctx.btf n id = true →
      typedefTargetNeedsHardDepsFrom ctx n id = true → IsAggregate ctx id := by
  induction n with
  | zero =>
      intro id hbelow
      cases hbelow
  | succ n ih =>
      intro id hbelow hneeds
      rw [wrappedBelow] at hbelow
      rw [typedefTargetNeedsHardDepsFrom] at hneeds
      cases htype : btfTypeById ctx.btf id with
      | none =>
          rw [htype] at hneeds
          cases hneeds
      | some type =>
          rw [htype] at hbelow hneeds
          simp only at hbelow hneeds
          have hwrapper : isWrapperKind type.kind = true → wrappedBelow ctx.btf n type.type = true →
              typedefTargetNeedsHardDepsFrom ctx n type.type = true → IsAggregate ctx id :=
            fun hkind hbelow hneeds => .wrapper htype hkind (ih hbelow hneeds)
          cases hkind : type.kind <;> simp only [hkind, isWrapperKind, if_true] at hbelow hneeds
          case array => exact .array htype hkind
          case struct | union =>
            exact .record htype (by rw [hkind]; rfl) (of_decide_eq_true hneeds)
          case const | volatile | restrict | typeTag | declTag =>
            exact hwrapper (by rw [hkind]; rfl) hbelow hneeds
          all_goals cases hneeds

/-- What comes before a node at each of its places has a smaller index. -/
theorem idxOf_lt_of_before {order : List Node} {node dep : Node} (hnode : node ∈ order)
    (h : ∀ before after, order = before ++ node :: after → dep ∈ before) :
    dep ∈ order ∧ order.idxOf dep < order.idxOf node := by
  obtain ⟨before, after, hsplit, hfirst⟩ := List.eq_append_cons_of_mem hnode
  have hdep := h before after hsplit
  have hlt := List.idxOf_lt_length_of_mem hdep
  constructor
  · rw [hsplit]
    exact List.mem_append_left _ hdep
  · rw [hsplit, List.idxOf_append_of_mem hdep, List.idxOf_append_of_notMem hfirst]
    omega

/-- The typedefs mentioned from a node on come no later than it. -/
theorem ValidOrder.idxOf_le_of_mentions {ctx : EmitCtx} {order : List Node}
    (horder : ValidOrder ctx order) {node dep : Node} (hnode : node ∈ order)
    (h : ReflTransGen (MentionsNode ctx) node dep) :
    dep ∈ order ∧ order.idxOf dep ≤ order.idxOf node := by
  induction h with
  | refl => exact ⟨hnode, Nat.le_refl _⟩
  | tail _ hstep ih =>
      obtain ⟨hmid, hle⟩ := ih
      obtain ⟨id, name, rfl, hshows⟩ := hstep
      obtain ⟨hmem, hlt⟩ := idxOf_lt_of_before hmid
        fun before after hsplit => horder.typedefs before _ after hsplit id name hshows
      exact ⟨hmem, by omega⟩

/-- A definition that needs a record contains it by value. -/
theorem contains_of_walk {ctx : EmitCtx} (hshort : ctx.btf.ShortWrappers) {node : Node}
    (hnode : isNode ctx node = true) {start to_ : Mode × Nat} (hstart : start ∈ nodeStarts ctx node)
    (hwalk : WalkReaches ctx start to_) (hmode : to_.1 = .hard)
    (hrecord : hasType ctx (isNamedRecord ctx.btf) to_.2 = true) : Contains ctx node to_.2 := by
  obtain ⟨hhard, hparts⟩ := byValue_of_walkReaches hwalk hmode
  have huses : UsesByValue ctx node to_.2 := ⟨start.2, nodeTypes_of_nodeStarts hstart, hparts⟩
  refine ⟨(usesByValue_iff_hasPart fun _ _ => Iff.rfl).mp huses, hrecord, ?_⟩
  rintro typedefId rfl
  unfold nodeStarts at hstart
  cases htype : btfTypeById ctx.btf typedefId with
  | none => simp [htype] at hstart
  | some type =>
      simp only [htype, List.mem_singleton] at hstart
      subst hstart
      have hneeds : typedefTargetNeedsHardDeps ctx type.type = true := by
        by_contra hnot
        simp [hnot] at hhard
      obtain ⟨own, hown, hfits⟩ := isNode_eq_true.mp hnode
      obtain rfl : type = own := Option.some.inj (htype.symm.trans hown)
      have hkind : type.kind = .typedef := by
        have hnamed : isNamedTypedef ctx.btf type = true := hfits
        simp only [isNamedTypedef, Bool.and_eq_true, beq_iff_eq] at hnamed
        exact hnamed.1
      exact ⟨type, rfl,
        isAggregate_of_needsHardDepsFrom (hshort typedefId type htype hkind) hneeds⟩

/-- What a definition needs comes before it. -/
theorem ValidOrder.idxOf_lt {ctx : EmitCtx} {order : List Node} (horder : ValidOrder ctx order)
    (hshort : ctx.btf.ShortWrappers) {node dep : Node} (hisNode : isNode ctx node = true)
    (hnode : node ∈ order) (hneeds : Needs ctx node dep) : dep ∈ order ∧ order.idxOf dep < order.idxOf node := by
  obtain ⟨start, hstart, to_, hwalk, hmem⟩ := hneeds
  obtain ⟨printer, _, hchain, from_, hfrom, hexpands⟩ := exists_printer hstart hwalk
  obtain ⟨hprinter, hle⟩ := horder.idxOf_le_of_mentions hnode hchain
  unfold walkNodes at hmem
  cases htype : btfTypeById ctx.btf to_.2 with
  | none => simp [htype] at hmem
  | some type =>
      simp only [htype] at hmem
      split at hmem
      next hnamed =>
        rw [List.mem_singleton.mp hmem]
        have hshows := nodeShows_of_expands hfrom hexpands htype hnamed
        obtain ⟨hin, hlt⟩ := idxOf_lt_of_before hprinter
          fun before after hsplit => horder.typedefs before _ after hsplit _ _ hshows
        exact ⟨hin, by omega⟩
      next =>
        split at hmem
        next hboth =>
          rw [List.mem_singleton.mp hmem]
          obtain ⟨hrecord, hmode⟩ := Bool.and_eq_true_iff.mp hboth
          have hcontains := contains_of_walk hshort hisNode hstart hwalk (of_decide_eq_true hmode)
            (hasType_eq_true.mpr ⟨type, htype, hrecord⟩)
          exact idxOf_lt_of_before hnode
            fun before after hsplit => horder.records before _ after hsplit _ hcontains
        next => cases hmem

/-- Needs do not run in circles from a node of a valid order. -/
theorem ValidOrder.acyclic {ctx : EmitCtx} {order : List Node} (horder : ValidOrder ctx order)
    (hshort : ctx.btf.ShortWrappers) {node : Node} (hisNode : isNode ctx node = true)
    (hnode : node ∈ order) :
    ∀ other, ReflTransGen (Needs ctx) node other → ¬TransGen (Needs ctx) other other := by
  have hstay : ∀ {last : Node}, ReflTransGen (Needs ctx) node last →
      isNode ctx last = true ∧ last ∈ order := by
    intro last h
    induction h with
    | refl => exact ⟨hisNode, hnode⟩
    | tail _ hstep ih => exact ⟨hstep.isNode, (horder.idxOf_lt hshort ih.1 ih.2 hstep).1⟩
  have hless : ∀ {first last : Node}, ReflTransGen (Needs ctx) node first →
      TransGen (Needs ctx) first last → order.idxOf last < order.idxOf first := by
    intro first last hfirst h
    induction h with
    | single hstep =>
        obtain ⟨hisNode', hmem⟩ := hstay hfirst
        exact (horder.idxOf_lt hshort hisNode' hmem hstep).2
    | tail hpath hstep ih =>
        obtain ⟨hisNode', hmem⟩ := hstay (hfirst.trans hpath.to_reflTransGen)
        exact (horder.idxOf_lt hshort hisNode' hmem hstep).2.trans ih
  intro other hreach hcycle
  exact Nat.lt_irrefl _ (hless hreach hcycle)

/-! ## The errors of the printer -/

/-- Any fault but the report of a typedef cycle. -/
def NotCycle (fault : Fault) : Prop :=
  ∀ id, fault ≠ .error (mchErrorSet ("typedef dependency cycle at type id ".toList ++ decimal id))

theorem fail_notCycle {α : Type} {text : CString} (h : text.take 7 ≠ "typedef".toList) :
    FailsIn NotCycle (fail text : Except Fault α) := by
  apply FailsIn.error
  intro id heq
  have hclip : clip 256 text =
      clip 256 ("typedef dependency cycle at type id ".toList ++ decimal id) := by
    injection heq with herr
    injection herr
  apply h
  have htake := congrArg (List.take 7) hclip
  simp only [clip, List.take_take] at htake
  rw [show min 7 (256 - 1) = 7 from rfl] at htake
  rw [htake, List.take_append_of_le_length (by decide)]
  decide

/-- A text with a fixed beginning of seven characters or more. -/
theorem fail_append_notCycle {α : Type} {front : CString} {rest : CString}
    (hlength : 7 ≤ front.length) (h : front.take 7 ≠ "typedef".toList) :
    FailsIn NotCycle (fail (front ++ rest) : Except Fault α) := by
  apply fail_notCycle
  rw [List.take_append_of_le_length hlength]
  exact h

theorem outOfFuel_notCycle {α : Type} :
    FailsIn NotCycle (.error .outOfFuel : Except Fault α) := by
  apply FailsIn.error
  intro id heq
  cases heq

theorem typeById_notCycle (ctx : EmitCtx) (id : Nat) : FailsIn NotCycle (typeById ctx id) := by
  unfold typeById
  split
  · exact fail_append_notCycle (by decide) (by decide)
  · exact FailsIn.ok _

theorem makeDeclarator_notCycle {text problem : CString} (h : problem.take 7 ≠ "typedef".toList) :
    FailsIn NotCycle (makeDeclarator text problem) := by
  unfold makeDeclarator
  split
  · exact fail_notCycle h
  · exact FailsIn.ok _

theorem peelQualifiers_notCycle (ctx : EmitCtx) (fuel : Nat) :
    ∀ id mask, FailsIn NotCycle (peelQualifiers ctx fuel id mask) := by
  induction fuel with
  | zero =>
      intro id mask
      exact outOfFuel_notCycle
  | succ fuel ih =>
      intro id mask
      rw [peelQualifiers]
      apply (typeById_notCycle ctx id).bind
      intro type _
      simp only
      split
      · exact FailsIn.ok _
      · exact ih _ _

section

variable {ctx : EmitCtx} {decl : Nat → CString → Except Fault (List Piece)}
  (hdecl : ∀ id declarator, FailsIn NotCycle (decl id declarator))

include hdecl

theorem emitQualifiedDecl_notCycle (fuel id : Nat) (declarator : CString) :
    FailsIn NotCycle (emitQualifiedDecl ctx decl fuel id declarator) := by
  unfold emitQualifiedDecl
  apply (peelQualifiers_notCycle ctx fuel id 0).bind
  rintro ⟨current, type, mask⟩ _
  simp only
  split
  next => exact fail_notCycle (by decide)
  next =>
    split
    next =>
      apply (makeDeclarator_notCycle (by decide)).bind
      intro next _
      exact hdecl _ _
    next =>
      apply (hdecl _ _).bind
      intro rest _
      exact FailsIn.ok _

theorem emitParams_notCycle (proto : BtfType) : FailsIn NotCycle (emitParams ctx decl proto) := by
  unfold emitParams
  split
  · exact FailsIn.ok _
  · apply FailsIn.collect
    intro param _
    unfold emitParam
    simp only
    split
    · exact FailsIn.ok _
    · apply (hdecl _ _).bind
      intro pieces _
      exact FailsIn.ok _

theorem emitFuncDecl_notCycle (id : Nat) (declarator : CString) :
    FailsIn NotCycle (emitFuncDecl ctx decl id declarator) := by
  unfold emitFuncDecl
  apply (typeById_notCycle ctx id).bind
  intro proto _
  apply (hdecl _ _).bind
  intro result _
  apply (emitParams_notCycle hdecl proto).bind
  intro params _
  exact FailsIn.ok _

theorem emitRecordBody_notCycle (id : Nat) (record : BtfType) :
    FailsIn NotCycle (emitRecordBody ctx decl id record) := by
  unfold emitRecordBody
  apply FailsIn.bind
  · apply FailsIn.collect
    intro member _
    unfold emitMember
    simp only
    split
    · exact FailsIn.ok _
    · apply (hdecl _ _).bind
      intro pieces _
      exact FailsIn.ok _
  · intro members _
    exact FailsIn.ok _

end

theorem emitDeclEx_notCycle (ctx : EmitCtx) (fuel : Nat) :
    ∀ id declarator, FailsIn NotCycle (emitDeclEx ctx fuel id declarator) := by
  induction fuel with
  | zero =>
      intro id declarator
      exact outOfFuel_notCycle
  | succ fuel ih =>
      intro id declarator
      rw [emitDeclEx]
      split
      next => exact FailsIn.ok _
      next =>
        apply (typeById_notCycle ctx id).bind
        intro type _
        cases type.kind <;> simp only
        case ptr | array =>
          apply (makeDeclarator_notCycle (by decide)).bind
          intro next _
          exact ih _ _
        case const | volatile | restrict => exact emitQualifiedDecl_notCycle ih _ _ _
        case typeTag | declTag => exact ih _ _
        case typedef =>
          split
          · exact ih _ _
          · exact FailsIn.ok _
        case struct | union =>
          split
          · apply (emitRecordBody_notCycle ih _ _).bind
            intro body _
            exact FailsIn.ok _
          · exact FailsIn.ok _
        case enum | enum64 =>
          split
          · exact FailsIn.ok _
          · exact FailsIn.ok _
        case funcProto => exact emitFuncDecl_notCycle ih _ _
        case int | float | fwd => exact FailsIn.ok _
        all_goals exact fail_append_notCycle (by decide) (by decide)

theorem nodeItem_notCycle (ctx : EmitCtx) (fuel : Nat) (type : BtfType) (node : Node) :
    FailsIn NotCycle (nodeItem ctx fuel type node) := by
  cases node with
  | record id =>
      apply (emitRecordBody_notCycle (emitDeclEx_notCycle ctx fuel) id type).bind
      intro body _
      exact FailsIn.ok _
  | typedef id =>
      apply (emitDeclEx_notCycle ctx fuel _ _).bind
      intro decl _
      exact FailsIn.ok _

theorem emitForwardDecl_notCycle (ctx : EmitCtx) (id : Nat) (st : EmitState) :
    FailsIn NotCycle (emitForwardDecl ctx id st) := by
  unfold emitForwardDecl
  apply (typeById_notCycle ctx id).bind
  intro type _
  split
  · exact FailsIn.ok _
  · simp only
    split
    · exact FailsIn.ok _
    · exact FailsIn.ok _

/-! ## A cycle error is a stuck search -/

/-- Only definitions of their own kind are ever in progress. -/
def EmitState.ActiveFit (ctx : EmitCtx) (st : EmitState) : Prop :=
  ∀ node, st.mark node = .active → isNode ctx node = true

theorem Visits.activeFit {ctx : EmitCtx} {st st' : EmitState} {nodes : List Node}
    (h : Visits ctx st nodes st') (hst : st.ActiveFit ctx) : st'.ActiveFit ctx :=
  fun node hnode => hst node ((h.run.active_iff node).mp hnode)

/-- The computation fails with a cycle error only where the search is stuck. -/
def CycleOnlyIfStuck {α : Type} (ctx : EmitCtx) (st : EmitState) (needed : Node → Prop)
    (x : Except Fault α) : Prop :=
  FailsIn (fun fault => NotCycle fault ∨ ∃ nodes, (∀ node ∈ nodes, needed node) ∧
    Stuck Node.IsTypedef (Needs ctx) st.search nodes) x

theorem FailsIn.cycleOnlyIfStuck {α : Type} {ctx : EmitCtx} {st : EmitState} {needed : Node → Prop}
    {x : Except Fault α} (h : FailsIn NotCycle x) : CycleOnlyIfStuck ctx st needed x :=
  fun fault hfault => Or.inl (h fault hfault)

/-- A loop of steps each of which visits nodes and gets stuck only among them. -/
theorem foldlM_cycleOnlyIfStuck {α : Type} {ctx : EmitCtx} {step : EmitState → α → Except Fault EmitState}
    {needed : Node → Prop} {as : List α}
    (hvisits : ∀ a ∈ as, ∀ st st', step st a = .ok st' →
      ∃ nodes, (∀ node ∈ nodes, needed node) ∧ Visits ctx st nodes st')
    (hstuck : ∀ a ∈ as, ∀ st, st.ActiveFit ctx → CycleOnlyIfStuck ctx st needed (step st a)) :
    ∀ st, st.ActiveFit ctx → CycleOnlyIfStuck ctx st needed (as.foldlM step st) := by
  induction as with
  | nil =>
      intro st _
      exact FailsIn.ok _
  | cons a as ih =>
      intro st hst fault hfault
      rcases foldlM_cons_eq_error.mp hfault with hfirst | ⟨mid, hmid, hrest⟩
      · exact hstuck a List.mem_cons_self st hst fault hfirst
      · obtain ⟨nodes, hnodes, hvisit⟩ := hvisits a List.mem_cons_self st mid hmid
        rcases ih (fun b hb => hvisits b (List.mem_cons_of_mem a hb))
          (fun b hb => hstuck b (List.mem_cons_of_mem a hb)) mid (hvisit.activeFit hst) fault hrest
          with hnot | ⟨later, hlater, hstuck'⟩
        · exact Or.inl hnot
        · refine Or.inr ⟨nodes ++ later, ?_, .later hvisit.run hstuck'⟩
          intro node hnode
          rcases List.mem_append.mp hnode with hnode | hnode
          · exact hnodes node hnode
          · exact hlater node hnode

/-- A definition not met before gets stuck only among what it needs. -/
theorem defineFresh_cycleOnlyIfStuck {ctx : EmitCtx} {fuel : Nat} {type : BtfType} {node : Node}
    {st : EmitState}
    (ih : ∀ from_ st, st.ActiveFit ctx →
      CycleOnlyIfStuck ctx st (WalkNeeds ctx from_) (walkDeps ctx fuel st from_))
    (hisNode : isNode ctx node = true) (hmark : st.mark node = .unseen) (hst : st.ActiveFit ctx) :
    CycleOnlyIfStuck ctx st (· = node) (defineFresh ctx fuel type st node) := by
  have hactive : (st.setMark node .active).ActiveFit ctx := by
    intro other hother
    rw [mark_setMark] at hother
    by_cases heq : other = node
    · rw [heq]
      exact hisNode
    · rw [Function.update_of_ne heq] at hother
      exact hst other hother
  have hstarts : CycleOnlyIfStuck ctx (st.setMark node .active) (Needs ctx node)
      ((nodeStarts ctx node).foldlM (walkDeps ctx fuel) (st.setMark node .active)) := by
    apply foldlM_cycleOnlyIfStuck ?_ ?_ _ hactive
    · intro start hstart from_ to_ hwalk
      obtain ⟨nodes, hnodes, hvisits⟩ := (walk_and_define_visits ctx fuel).1 start from_ to_ hwalk
      exact ⟨nodes, fun dep hdep => ⟨start, hstart, (hnodes dep).mp hdep⟩, hvisits⟩
    · intro start hstart from_ hfrom fault hfault
      rcases ih start from_ hfrom fault hfault with hnot | ⟨nodes, hnodes, hstuck⟩
      · exact Or.inl hnot
      · exact Or.inr ⟨nodes, fun dep hdep => ⟨start, hstart, hnodes dep hdep⟩, hstuck⟩
  intro fault hfault
  rcases bind_eq_error.mp hfault with hdeps | ⟨mid, _, hrest⟩
  · rcases hstarts fault hdeps with hnot | ⟨nodes, hnodes, hstuck⟩
    · exact Or.inl hnot
    · rw [search_enter] at hstuck
      exact Or.inr ⟨[node], by simp, .inside hmark hnodes hstuck⟩
  · rcases bind_eq_error.mp hrest with hitem | ⟨item, _, hdone⟩
    · exact Or.inl (nodeItem_notCycle ctx fuel type node fault hitem)
    · cases hdone

/-- Walking the targets of a type gets stuck only among what the walk needs. -/
theorem walkTargets_cycleOnlyIfStuck {ctx : EmitCtx} {fuel : Nat}
    (ih : ∀ from_ st, st.ActiveFit ctx →
      CycleOnlyIfStuck ctx st (WalkNeeds ctx from_) (walkDeps ctx fuel st from_))
    (from_ : Mode × Nat) {st : EmitState} (hst : st.ActiveFit ctx) :
    CycleOnlyIfStuck ctx st (WalkNeeds ctx from_)
      ((walkTargets ctx from_).foldlM (walkDeps ctx fuel) st) := by
  apply foldlM_cycleOnlyIfStuck ?_ ?_ st hst
  · intro to_ hto s s' hwalk
    obtain ⟨nodes, hnodes, hvisits⟩ := (walk_and_define_visits ctx fuel).1 to_ s s' hwalk
    exact ⟨nodes, fun dep hdep => walkNeeds_iff.mpr (Or.inl ⟨to_, hto, (hnodes dep).mp hdep⟩),
      hvisits⟩
  · intro to_ hto s hs fault hfault
    rcases ih to_ s hs fault hfault with hnot | ⟨nodes, hnodes, hstuck⟩
    · exact Or.inl hnot
    · exact Or.inr ⟨nodes, fun dep hdep => walkNeeds_iff.mpr (Or.inl ⟨to_, hto, hnodes dep hdep⟩),
        hstuck⟩

theorem walk_and_define_stuck (ctx : EmitCtx) (fuel : Nat) :
    (∀ from_ st, st.ActiveFit ctx →
      CycleOnlyIfStuck ctx st (WalkNeeds ctx from_) (walkDeps ctx fuel st from_)) ∧
    (∀ node st, st.ActiveFit ctx →
      CycleOnlyIfStuck ctx st (· ∈ ownNode ctx node) (defineNode ctx fuel st node)) := by
  induction fuel with
  | zero =>
      constructor
      · intro from_ st _
        rw [walkDeps_zero]
        apply FailsIn.cycleOnlyIfStuck
        exact outOfFuel_notCycle
      · intro node st _
        rw [defineNode_zero]
        apply FailsIn.cycleOnlyIfStuck
        exact outOfFuel_notCycle
  | succ fuel ih =>
      obtain ⟨ihWalk, ihDefine⟩ := ih
      constructor
      · intro from_ st hst
        cases htype : btfTypeById ctx.btf from_.2 with
        | none =>
            rw [walkDeps_none htype]
            apply FailsIn.cycleOnlyIfStuck
            exact fail_append_notCycle (by decide) (by decide)
        | some type =>
            rw [walkDeps_succ htype]
            intro fault hfault
            rcases bind_eq_error.mp hfault with htargets | ⟨mid, hmid, hleaf⟩
            · exact walkTargets_cycleOnlyIfStuck ihWalk from_ hst fault htargets
            · obtain ⟨nodes, hnodes, hvisits⟩ := foldlM_walkDeps_visits
                (walk_and_define_visits ctx fuel).1 hmid
              rcases walkLeaf_cases htype with ⟨node, _, hwalkNodes, heq⟩ | ⟨_, hforward | hnothing⟩
              · rw [heq] at hleaf
                rcases ihDefine node mid (hvisits.activeFit hst) fault hleaf with
                  hnot | ⟨later, hlater, hstuck⟩
                · exact Or.inl hnot
                · refine Or.inr ⟨nodes ++ later, ?_, .later hvisits.run hstuck⟩
                  intro dep hdep
                  rw [walkNeeds_iff]
                  rcases List.mem_append.mp hdep with hdep | hdep
                  · exact Or.inl ((hnodes dep).mp hdep)
                  · right
                    rw [hwalkNodes]
                    exact hlater dep hdep
              · rw [hforward] at hleaf
                exact Or.inl (emitForwardDecl_notCycle ctx _ mid fault hleaf)
              · rw [hnothing] at hleaf
                cases hleaf
      · intro node st hst
        cases htype : btfTypeById ctx.btf node.id with
        | none =>
            rw [defineNode_none htype]
            apply FailsIn.cycleOnlyIfStuck
            exact fail_append_notCycle (by decide) (by decide)
        | some type =>
            cases hfits : node.Fits ctx type with
            | false =>
                rcases defineNode_of_not_fits st htype hfits with heq | ⟨hactive, _⟩
                · rw [heq]
                  exact FailsIn.ok _
                · have hisNode := hst node hactive
                  obtain ⟨own, hown, hown'⟩ := isNode_eq_true.mp hisNode
                  rw [htype] at hown
                  cases hown
                  rw [hfits] at hown'
                  cases hown'
            | true =>
                have hisNode : isNode ctx node = true := isNode_eq_true.mpr ⟨type, htype, hfits⟩
                have hown : ownNode ctx node = [node] := by simp [ownNode, hisNode]
                simp only [hown, List.mem_singleton]
                rw [defineNode_of_fits htype hfits]
                cases hmark : st.mark node with
                | unseen => exact defineFresh_cycleOnlyIfStuck ihWalk hisNode hmark hst
                | done => exact FailsIn.ok _
                | active =>
                    cases node with
                    | record id => exact FailsIn.ok _
                    | typedef id =>
                        intro fault _
                        exact Or.inr ⟨[.typedef id], by simp, .here hmark trivial⟩

/-! ## The whole header -/

/-- No definition is in progress. -/
def EmitState.Settled (st : EmitState) : Prop := ∀ node, st.mark node ≠ .active

theorem Visits.settled {ctx : EmitCtx} {st st' : EmitState} {nodes : List Node}
    (h : Visits ctx st nodes st') (hst : st.Settled) : st'.Settled :=
  fun node hnode => hst node ((h.run.active_iff node).mp hnode)

theorem EmitState.Settled.print {st : EmitState} (h : st.Settled) (item : Item) :
    (st.print item).Settled := h

/-- A definition asked for while none is in progress meets no cycle, unless one is
in reach. -/
theorem defineNode_notCycle {ctx : EmitCtx} {fuel : Nat} {node : Node} {st : EmitState}
    (hst : st.Settled) (hacyclic : isNode ctx node = true →
      ∀ other, ReflTransGen (Needs ctx) node other → ¬TransGen (Needs ctx) other other) :
    FailsIn NotCycle (defineNode ctx fuel st node) := by
  intro fault hfault
  have hfit : st.ActiveFit ctx := fun other hother => absurd hother (hst other)
  rcases (walk_and_define_stuck ctx fuel).2 node st hfit fault hfault with
    hnot | ⟨nodes, hnodes, hstuck⟩
  · exact hnot
  · obtain ⟨start, hstart, other, hreach, hcycle⟩ :=
      hstuck.exists_cycle fun other hother => absurd hother (hst other)
    have hown := hnodes start hstart
    unfold ownNode at hown
    split at hown
    next hisNode =>
      rw [List.mem_singleton.mp hown] at hreach
      exact absurd hcycle (hacyclic hisNode other hreach)
    next => cases hown

theorem emitEnumDefinition_notCycle (ctx : EmitCtx) (id : Nat) (st : EmitState) :
    FailsIn NotCycle (emitEnumDefinition ctx id st) := by
  unfold emitEnumDefinition
  apply (typeById_notCycle ctx id).bind
  intro type _
  exact FailsIn.ok _

theorem collectEmitGroups_notCycle (ctx : EmitCtx) (required : TypeSet) :
    FailsIn NotCycle (collectEmitGroups ctx required) := by
  unfold collectEmitGroups
  refine FailsIn.foldlM (I := fun _ => True) ?_ ?_ _ trivial
  · intros
    trivial
  · intro id _ groups _
    unfold addToGroups
    apply (typeById_notCycle ctx id).bind
    intro type _
    exact FailsIn.ok _

/-- Where what the required definitions need is acyclic, no cycle is reported. -/
theorem emitHeader_notCycle {ctx : EmitCtx} {fuel : Nat} {required : TypeSet}
    (hacyclic : ∀ node ∈ requiredNodes ctx required, ∀ other,
      ReflTransGen (Needs ctx) node other → ¬TransGen (Needs ctx) other other) :
    FailsIn NotCycle (emitHeader ctx fuel required) := by
  have hforward : ∀ id (s t : EmitState), s.Settled → emitForwardDecl ctx id s = .ok t →
      t.Settled :=
    fun id s t hs ht => (emitForwardDecl_visits ht).settled hs
  have henum : ∀ id (s t : EmitState), s.Settled → emitEnumDefinition ctx id s = .ok t →
      t.Settled := by
    intro id s t hs ht
    obtain ⟨type, _, heq⟩ := bind_eq_ok.mp ht
    cases heq
    exact hs.print _
  have hdefine : ∀ node (s t : EmitState), s.Settled → defineNode ctx fuel s node = .ok t →
      t.Settled :=
    fun node s t hs ht => (defineNode_visits ht).settled hs
  have hrequired : ∀ node : Node, node.id ∈ requiredIds required → isNode ctx node = true →
      ∀ other, ReflTransGen (Needs ctx) node other → ¬TransGen (Needs ctx) other other := by
    intro node hid hisNode
    obtain ⟨hzero, hmem⟩ := mem_requiredIds.mp hid
    exact hacyclic node (mem_requiredNodes.mpr ⟨hzero, hmem, hisNode⟩)
  unfold emitHeader
  apply (collectEmitGroups_notCycle ctx required).bind
  intro groups hgroups
  obtain ⟨_, _, _, hrecords, htypedefs⟩ := collectEmitGroups_eq hgroups
  simp only [List.nil_append] at hrecords htypedefs
  have hstart : ({ initialEmitState with out := headerOpening } : EmitState).Settled := by
    intro node
    cases node <;> exact Mark.noConfusion
  apply FailsIn.bind
  · refine FailsIn.foldlM (I := fun _ => True) (fun _ _ _ _ _ _ => trivial) ?_ _ trivial
    intro id _ st _
    exact emitForwardDecl_notCycle ctx id st
  intro stFwds hfwds
  have hstFwds := foldlM_keeps (fun id _ => hforward id) hstart hfwds
  apply FailsIn.bind
  · refine FailsIn.foldlM (I := fun _ => True) (fun _ _ _ _ _ _ => trivial) ?_ _ trivial
    intro id _ st _
    exact emitEnumDefinition_notCycle ctx id st
  intro stEnums henums
  have hstEnums := foldlM_keeps (fun id _ => henum id) (hstFwds.print _) henums
  apply FailsIn.bind
  · refine FailsIn.foldlM (I := EmitState.Settled) (fun id _ => hdefine (.typedef id)) ?_ _ hstEnums
    intro id hid st hst
    rw [htypedefs] at hid
    exact defineNode_notCycle hst (hrequired (.typedef id) (List.mem_filter.mp hid).1)
  intro stTypedefs hloop
  have hstTypedefs := foldlM_keeps (fun id _ => hdefine (.typedef id)) hstEnums hloop
  apply FailsIn.bind
  · refine FailsIn.foldlM (I := EmitState.Settled) (fun id _ => hdefine (.record id)) ?_ _ hstTypedefs
    intro id hid st hst
    rw [hrecords] at hid
    exact defineNode_notCycle hst (hrequired (.record id) (List.mem_filter.mp hid).1)
  intro st _
  exact FailsIn.ok _

/-- A record that a definition contains by value is one the definition needs. -/
theorem needs_of_usesByValue {ctx : EmitCtx} {own id : Nat} (h : UsesByValue ctx (.record own) id)
    (hrecord : hasType ctx (isNamedRecord ctx.btf) id = true) :
    Needs ctx (.record own) (.record id) := by
  obtain ⟨start, hstart, hparts⟩ := h
  obtain ⟨type, htype, hnamed⟩ := hasType_eq_true.mp hrecord
  refine ⟨(.hard, start), ?_, (.hard, id), walkReaches_of_byValue hparts, ?_⟩
  · unfold nodeTypes at hstart
    unfold nodeStarts
    cases hown : btfTypeById ctx.btf own with
    | none => simp [Node.id, hown] at hstart
    | some ownType =>
        simp only [Node.id, hown] at hstart
        simp only [hown]
        exact List.mem_map_of_mem hstart
  · have hkind : isNamedTypedef ctx.btf type = false := by
      simp only [isNamedRecord, Bool.and_eq_true] at hnamed
      cases hkind : type.kind <;> simp_all [isNamedTypedef, Kind.isRecord]
    simp [walkNodes, htype, hnamed, hkind]

/-- What a definition needs is defined before it, unless the two lie on a cycle. -/
theorem Layout.mem_before {ctx : EmitCtx} {required : TypeSet} {fwds enums defs : List Item}
    (h : Layout ctx required fwds enums defs) {before after : List Node} {node dep : Node}
    (hsplit : definedNodes defs = before ++ node :: after) (hneeds : Needs ctx node dep)
    (hback : ¬ReflTransGen (Needs ctx) dep node) : dep ∈ before := by
  obtain ⟨last, hrun, hlog⟩ := h.run
  rw [← hlog] at hsplit
  exact hrun.mem_before hsplit hneeds hback

/-- In a valid order nothing in progress is met again, so everything needed comes
first. -/
theorem Layout.needs_before {ctx : EmitCtx} {required : TypeSet} {fwds enums defs : List Item}
    (h : Layout ctx required fwds enums defs) (hacyclic : ∀ node ∈ requiredNodes ctx required,
      ∀ other, ReflTransGen (Needs ctx) node other → ¬TransGen (Needs ctx) other other)
    {before after : List Node} {node dep : Node}
    (hsplit : definedNodes defs = before ++ node :: after) (hneeds : Needs ctx node dep) :
    dep ∈ before := by
  apply h.mem_before hsplit hneeds
  intro hback
  have hnode : node ∈ definedNodes defs := by
    rw [hsplit]
    simp
  obtain ⟨start, hid, hisNode, hreach⟩ := (h.mem_definedNodes_iff node).mp hnode
  exact hacyclic start (mem_requiredNodes.mpr ⟨hid.1, hid.2, hisNode⟩) node hreach
    (TransGen.head' hneeds hback)

theorem Layout.definedNodes_headerItems {ctx : EmitCtx} {required : TypeSet}
    {fwds enums defs : List Item} (h : Layout ctx required fwds enums defs) :
    definedNodes (headerItems fwds enums defs) = definedNodes defs := by
  have hfront : definedNodes (headerFront fwds enums) = [] := definedNodes_eq_nil h.node?_front
  have hitems : headerItems fwds enums defs = headerFront fwds enums ++ defs ++ headerClosing := rfl
  rw [hitems, definedNodes_append, definedNodes_append, hfront, List.nil_append]
  exact List.append_nil _

/-- Where some order of the definitions is valid, the emitter reports no typedef
cycle, defines each required record with a name once, and defines what a record
contains by value before the record. -/
theorem mchEmitHeaderWithOptions_of_validOrder {base : Btf} {required : TypeSet}
    {requirements : Option Requirements} {order : List Node} (hshort : base.ShortWrappers)
    (horder : ValidOrder (emitCtx base requirements) order)
    (hall : ∀ node : Node, node.id ∈ required.ids → isNode (emitCtx base requirements) node = true →
      node ∈ order) :
    (∀ fuel id, mchEmitHeaderWithOptions fuel base required requirements ≠
        fail ("typedef dependency cycle at type id ".toList ++ decimal id)) ∧
      ∀ fuel items, mchEmitHeaderWithOptions fuel base required requirements = .ok items →
        (∀ id ∈ required.ids,
          hasType (emitCtx base requirements) (isNamedRecord base) id = true →
            (definedNodes items).count (.record id) = 1) ∧
        ∀ before item after, items = before ++ item :: after → ∀ own, item.node? = some (.record own) →
          ∀ dep, HasPart base (KeptByStore requirements) dep (.record own) →
            hasType (emitCtx base requirements) (isNamedRecord base) dep = true →
              .record dep ∈ definedNodes before := by
  have hacyclic : ∀ node ∈ requiredNodes (emitCtx base requirements) required, ∀ other,
      ReflTransGen (Needs (emitCtx base requirements)) node other →
        ¬TransGen (Needs (emitCtx base requirements)) other other := by
    intro node hnode
    obtain ⟨hzero, hmem, hisNode⟩ := mem_requiredNodes.mp hnode
    exact horder.acyclic hshort hisNode (hall node ⟨hzero, hmem⟩ hisNode)
  constructor
  · intro fuel id h
    exact emitHeader_notCycle hacyclic _ h id rfl
  · intro fuel items h
    obtain ⟨fwds, enums, defs, rfl, hlayout⟩ := emitHeader_layout h
    constructor
    · intro id hid hrecord
      rw [hlayout.definedNodes_headerItems]
      apply List.count_eq_one_of_mem hlayout.nodup
      rw [hlayout.mem_definedNodes_iff]
      exact ⟨.record id, hid, isNode_eq_true.mpr (hasType_eq_true.mp hrecord), .refl⟩
    · intro before item after hsplit own hnode dep hpart hrecord
      have huses : UsesByValue (emitCtx base requirements) (.record own) dep :=
        (usesByValue_iff_hasPart fun _ _ => keptByStore_iff).mpr hpart
      obtain ⟨pre, post, hdefs, hbefore⟩ := hlayout.split hsplit hnode
      have hnodes : definedNodes defs = definedNodes pre ++ .record own :: definedNodes post := by
        rw [hdefs, definedNodes_split hnode]
      have hmem := hlayout.needs_before hacyclic hnodes (needs_of_usesByValue huses hrecord)
      rw [hbefore, definedNodes_append]
      exact List.mem_append_right _ hmem

/-- `struct R { S_t s; }` with `typedef struct S { int a; } S_t`. -/
def recordInTypedef : Btf where
  types := [
    { nameOff := 1, kind := .struct, size := 4, members := [{ nameOff := 3, type := 4 }] },
    { nameOff := 5, kind := .typedef, type := 1 },
    { nameOff := 9, kind := .struct, size := 4, members := [{ nameOff := 11, type := 2 }] },
    { nameOff := 13, kind := .int, size := 4, intInfo := 0x01000020 }]
  strs := "\x00S\x00a\x00S_t\x00R\x00s\x00int\x00".toList

theorem recordInTypedef_shortWrappers : recordInTypedef.ShortWrappers := by
  intro id type htype hkind
  rcases id with _ | _ | _ | _ | _ | id
  all_goals first
    | (cases htype; revert hkind; decide)
    | cases htype

theorem Contains.follow {ctx : EmitCtx} {node : Node} {id : Nat} (h : Contains ctx node id)
    (ids : List Nat) (hfirst : ∀ start ∈ nodeTypes ctx node, start ∈ ids)
    (hclosed : ∀ mid ∈ ids, ∀ to_ ∈ hardTargets ctx mid, to_ ∈ ids) {order : List Node}
    (hids : ∀ other ∈ ids, hasType ctx (isNamedRecord ctx.btf) other = true → .record other ∈ order) :
    .record id ∈ order := by
  obtain ⟨hpart, hrecord, _⟩ := h
  obtain ⟨start, hstart, hparts⟩ := (usesByValue_iff_hasPart fun _ _ => Iff.rfl).mpr hpart
  exact hids id (mem_of_follow hclosed (hfirst start hstart) hparts) hrecord

theorem recordInTypedef_validOrder :
    ValidOrder (emitCtx recordInTypedef none) [.record 1, .typedef 2, .record 3] := by
  have hsplits : ∀ {before after : List Node} {node : Node},
      [.record 1, .typedef 2, .record 3] = before ++ node :: after →
        before = [] ∧ node = .record 1 ∨ before = [.record 1] ∧ node = .typedef 2 ∨
          before = [.record 1, .typedef 2] ∧ node = .record 3 := by
    intro before after node h
    rcases before with _ | ⟨_, _ | ⟨_, _ | ⟨_, before⟩⟩⟩ <;> simp_all
  constructor
  · intro before node after hsplit id hcontains
    rcases hsplits hsplit with ⟨rfl, rfl⟩ | ⟨rfl, rfl⟩ | ⟨rfl, rfl⟩
    · exact hcontains.follow [4] (by decide) (by decide) (by decide)
    · exact hcontains.follow [1] (by decide) (by decide) (by decide)
    · exact hcontains.follow [2, 1] (by decide) (by decide) (by decide)
  · intro before node after hsplit id name hshows
    rcases hsplits hsplit with ⟨rfl, rfl⟩ | ⟨rfl, rfl⟩ | ⟨rfl, rfl⟩
    · exact hshows.follow [4] (by decide) (by decide) (by decide)
    · exact hshows.follow [1] (by decide) (by decide) (by decide)
    · exact hshows.follow [2] (by decide) (by decide) (by decide)

theorem recordInTypedef_mem_order (node : Node)
    (hid : node.id ∈ (seedsOf recordInTypedef [1, 2, 3, 4]).ids)
    (hnode : isNode (emitCtx recordInTypedef none) node = true) :
    node ∈ [Node.record 1, .typedef 2, .record 3] :=
  mem_of_isNode (by decide) hnode

theorem mchEmitHeaderWithOptions_of_validOrder_recordInTypedef :
    (∀ fuel id, mchEmitHeaderWithOptions fuel recordInTypedef
        (seedsOf recordInTypedef [1, 2, 3, 4]) none ≠
          fail ("typedef dependency cycle at type id ".toList ++ decimal id)) ∧
      ∀ fuel items, mchEmitHeaderWithOptions fuel recordInTypedef
          (seedsOf recordInTypedef [1, 2, 3, 4]) none = .ok items →
        (∀ id ∈ (seedsOf recordInTypedef [1, 2, 3, 4]).ids,
          hasType (emitCtx recordInTypedef none) (isNamedRecord recordInTypedef) id = true →
            (definedNodes items).count (.record id) = 1) ∧
        ∀ before item after, items = before ++ item :: after → ∀ own, item.node? = some (.record own) →
          ∀ dep, HasPart recordInTypedef (KeptByStore none) dep (.record own) →
            hasType (emitCtx recordInTypedef none) (isNamedRecord recordInTypedef) dep = true →
              .record dep ∈ definedNodes before :=
  mchEmitHeaderWithOptions_of_validOrder recordInTypedef_shortWrappers recordInTypedef_validOrder
    recordInTypedef_mem_order

end MinCorehdr
