import MinCorehdr.Emitter.Declared
import MinCorehdr.Support.Fuel
import Mathlib.Data.Finset.Card
import Mathlib.Data.Finset.Image
import Mathlib.Data.Finset.Range

/-!
# When the emitter ends

The printer is bounded by the declarator it grows, the search by its marks, and
neither where a chain of references does not grow the declarator or set a mark.
-/

namespace MinCorehdr

open Relation Support.DepthFirst Support.Fuel Support.Result

/-! ## What the printer does with a reference -/

/-- Behind these the printer goes on with the same declarator. -/
def sameTargets (ctx : EmitCtx) (id : Nat) : List Nat :=
  match btfTypeById ctx.btf id with
  | none => []
  | some type =>
      match type.kind with
      | .volatile | .const | .restrict | .typeTag | .declTag => [type.type]
      | .typedef => if mchBtfTypeName ctx.btf type = [] then [type.type] else []
      | _ => []

/-- Behind these it starts a declarator of its own. -/
def freshTargets (ctx : EmitCtx) (id : Nat) : List Nat :=
  match btfTypeById ctx.btf id with
  | none => []
  | some type =>
      match type.kind with
      | .struct | .union =>
          if mchBtfTypeName ctx.btf type = [] then keptTypes ctx.keeps id type else []
      | .funcProto => type.type :: type.params.map BtfParam.type
      | _ => []

def SameStep (ctx : EmitCtx) (from_ to_ : Nat) : Prop := to_ ∈ sameTargets ctx from_

def DeclStep (ctx : EmitCtx) (from_ to_ : Nat) : Prop := to_ ∈ declTargets ctx from_

/-- From one declarator to a new one inside it. -/
def FreshStep (ctx : EmitCtx) (from_ to_ : Nat) : Prop :=
  ∃ mid, Expands ctx from_ mid ∧ to_ ∈ freshTargets ctx mid

theorem SameStep.declStep {ctx : EmitCtx} {from_ to_ : Nat} (h : SameStep ctx from_ to_) :
    DeclStep ctx from_ to_ := by
  unfold SameStep sameTargets at h
  unfold DeclStep declTargets
  cases htype : btfTypeById ctx.btf from_ with
  | none => simp [htype] at h
  | some type => cases hkind : type.kind <;> simp_all

theorem declStep_of_mem_freshTargets {ctx : EmitCtx} {from_ to_ : Nat}
    (h : to_ ∈ freshTargets ctx from_) : DeclStep ctx from_ to_ := by
  unfold freshTargets at h
  unfold DeclStep declTargets
  cases htype : btfTypeById ctx.btf from_ with
  | none => simp [htype] at h
  | some type => cases hkind : type.kind <;> simp_all

/-! ## The printer -/

/-- The printer ends on a type, whatever the declarator. -/
def Prints (ctx : EmitCtx) (id : Nat) (declarator : CString) : Prop :=
  Halts .outOfFuel fun fuel => emitDeclEx ctx fuel id declarator

theorem typeById_ne_outOfFuel (ctx : EmitCtx) (id : Nat) : typeById ctx id ≠ .error .outOfFuel := by
  unfold typeById
  split
  · simp [fail]
  · simp

theorem makeDeclarator_ne_outOfFuel (text problem : CString) :
    makeDeclarator text problem ≠ .error .outOfFuel := by
  unfold makeDeclarator
  split
  · simp [fail]
  · simp

/-- The loop over qualifiers ends where they do, at a type they lead to. -/
theorem peelQualifiers_halts {ctx : EmitCtx} {id : Nat} (h : Ends (SameStep ctx) id) :
    ∀ mask, Halts .outOfFuel fun fuel => peelQualifiers ctx fuel id mask := by
  induction h with
  | intro id _ ih =>
      intro mask
      apply Halts.succ
      simp only [peelQualifiers]
      apply Halts.bind (.of_ne (typeById_ne_outOfFuel ctx id))
      rintro type ⟨_, htype⟩
      rw [typeById_eq_ok] at htype
      split
      next => exact .ok _
      next hbit =>
        apply ih
        change type.type ∈ sameTargets ctx id
        unfold sameTargets
        rw [htype]
        cases hkind : type.kind <;> simp_all [typeQualifierBit]

theorem peelQualifiers_reaches {ctx : EmitCtx} {fuel : Nat} :
    ∀ {id current : Nat} {mask mask' : BitVec 32} {type : BtfType},
      peelQualifiers ctx fuel id mask = .ok (current, type, mask') →
        btfTypeById ctx.btf current = some type ∧ typeQualifierBit type.kind = 0 ∧
          ReflTransGen (SameStep ctx) id current := by
  induction fuel with
  | zero =>
      intro id current mask mask' type h
      cases h
  | succ fuel ih =>
      intro id current mask mask' type h
      rw [peelQualifiers] at h
      obtain ⟨found, hfound, h⟩ := bind_eq_ok.mp h
      rw [typeById_eq_ok] at hfound
      simp only at h
      split at h
      next hbit =>
        cases h
        exact ⟨hfound, hbit, .refl⟩
      next hbit =>
        obtain ⟨htype, hlast, hreach⟩ := ih h
        refine ⟨htype, hlast, .head ?_ hreach⟩
        change found.type ∈ sameTargets ctx id
        unfold sameTargets
        rw [hfound]
        cases hkind : found.kind <;> simp_all [typeQualifierBit]

section

variable {ctx : EmitCtx} {decl : Nat → Nat → CString → Except Fault (List Piece)}

theorem emitParams_halts {proto : BtfType}
    (hdecl : ∀ param ∈ proto.params, ∀ declarator,
      Halts .outOfFuel fun fuel => decl fuel param.type declarator) :
    Halts .outOfFuel fun fuel => emitParams ctx (decl fuel) proto := by
  unfold emitParams
  split
  next => exact .ok _
  next =>
    apply Halts.collect
    rintro ⟨param, i⟩ hmem
    unfold emitParam
    simp only
    split
    next => exact .ok _
    next =>
      apply Halts.bind (hdecl param (List.fst_mem_of_mem_zipIdx hmem) _)
      intro pieces _
      exact .ok _

theorem emitRecordBody_halts {id : Nat} {record : BtfType}
    (hdecl : ∀ to_ ∈ keptTypes ctx.keeps id record, ∀ declarator,
      Halts .outOfFuel fun fuel => decl fuel to_ declarator) :
    Halts .outOfFuel fun fuel => emitRecordBody ctx (decl fuel) id record := by
  unfold emitRecordBody
  apply Halts.bind
  · apply Halts.collect
    rintro ⟨member, i⟩ hmem
    unfold emitMember
    simp only
    split
    next => exact .ok _
    next hkeeps =>
      apply Halts.bind
      · apply hdecl
        exact mem_keptTypes.mpr ⟨member, i, List.mk_mem_zipIdx_iff_getElem?.mp hmem,
          by simpa using hkeeps, rfl⟩
      · intro pieces _
        exact .ok _
  · intro members _
    exact .ok _

end

/-- What each call of the printer asks of the calls it makes. -/
theorem prints_step {ctx : EmitCtx} {id : Nat} {declarator : CString}
    (hends : Ends (SameStep ctx) id)
    (hsame : ∀ to_, TransGen (SameStep ctx) id to_ → Prints ctx to_ declarator)
    (hgrow : ∀ last, ReflTransGen (SameStep ctx) id last → ∀ to_ ∈ declTargets ctx last,
      ∀ next : CString, declarator.length < next.length → next.length < 512 → Prints ctx to_ next)
    (hfresh : ∀ to_ ∈ freshTargets ctx id, ∀ next, Prints ctx to_ next) :
    Prints ctx id declarator := by
  apply Halts.succ
  simp only [emitDeclEx]
  split
  next => exact .ok _
  next =>
    apply Halts.bind (.of_ne (typeById_ne_outOfFuel ctx id))
    rintro type ⟨_, htype⟩
    rw [typeById_eq_ok] at htype
    have hpass : ∀ to_, to_ ∈ sameTargets ctx id → Prints ctx to_ declarator :=
      fun to_ hto => hsame to_ (.single hto)
    cases hkind : type.kind <;> simp only
    case ptr =>
      apply Halts.bind (.of_ne (makeDeclarator_ne_outOfFuel _ _))
      rintro next ⟨_, hnext⟩
      obtain ⟨rfl, hroom⟩ := makeDeclarator_eq_ok hnext
      exact hgrow id .refl _ (by simp [declTargets, htype, hkind]) _ (by simp) hroom
    case array =>
      apply Halts.bind (.of_ne (makeDeclarator_ne_outOfFuel _ _))
      rintro next ⟨_, hnext⟩
      obtain ⟨rfl, hroom⟩ := makeDeclarator_eq_ok hnext
      refine hgrow id .refl _ (by simp [declTargets, htype, hkind]) _ ?_ hroom
      split
      · simp only [List.length_append, List.length_cons, List.length_nil]
        omega
      · simp only [List.length_append, List.length_cons, List.length_nil]
        omega
    case const | volatile | restrict =>
      unfold emitQualifiedDecl
      apply Halts.bind (peelQualifiers_halts hends 0)
      rintro ⟨current, last, mask⟩ ⟨_, hpeel⟩
      obtain ⟨hlast, hbit, hreach⟩ := peelQualifiers_reaches hpeel
      simp only
      split
      next => exact .of_ne (by simp [fail])
      next =>
        split
        next hptr =>
          apply Halts.bind (.of_ne (makeDeclarator_ne_outOfFuel _ _))
          rintro next ⟨_, hnext⟩
          obtain ⟨rfl, hroom⟩ := makeDeclarator_eq_ok hnext
          refine hgrow current hreach _ (by simp [declTargets, hlast, hptr]) _ ?_ hroom
          have hspaced : declarator.length ≤ (spaced declarator).length := by
            unfold spaced
            split <;> simp_all
          have hstar : "* ".toList.length = 2 := rfl
          rw [List.length_append, List.length_append, hstar]
          omega
        next =>
          apply Halts.bind
          · apply hsame
            rcases hreach.cases_head with rfl | ⟨mid, hfirst, hrest⟩
            · rw [htype] at hlast
              cases hlast
              simp [typeQualifierBit, hkind] at hbit
            · exact .head' hfirst hrest
          · intro rest _
            exact .ok _
    case typeTag | declTag => exact hpass _ (by simp [sameTargets, htype, hkind])
    case typedef =>
      split
      next hname => exact hpass _ (by simp [sameTargets, htype, hkind, hname])
      next => exact .ok _
    case struct | union =>
      split
      next hname =>
        unfold emitInlineRecord
        apply Halts.bind
        · apply emitRecordBody_halts
          intro to_ hto next
          exact hfresh to_ (by simp [freshTargets, htype, hkind, hname, hto]) next
        · intro body _
          exact .ok _
      next => exact .ok _
    case enum | enum64 => split <;> exact .ok _
    case funcProto =>
      unfold emitFuncDecl
      apply Halts.bind (.of_ne (typeById_ne_outOfFuel ctx id))
      rintro proto ⟨_, hproto⟩
      rw [typeById_eq_ok, htype] at hproto
      cases hproto
      apply Halts.bind (hfresh _ (by simp [freshTargets, htype, hkind]) _)
      intro result _
      apply Halts.bind
      · apply emitParams_halts
        intro param hparam next
        refine hfresh _ ?_ next
        simp only [freshTargets, htype, hkind, List.mem_cons, List.mem_map]
        exact Or.inr ⟨param, hparam, rfl⟩
      · intro params _
        exact .ok _
    case int | float | fwd => exact .ok _
    all_goals exact .of_ne (by simp [fail])

/-- From a type all of whose fresh declarators end, and with room left in the
declarator, the printer ends where the same declarator is not passed on forever. -/
theorem prints_of_room {ctx : EmitCtx} {start : Nat}
    (hfresh : ∀ to_, FreshStep ctx start to_ → ∀ declarator, Prints ctx to_ declarator)
    (hsame : ∀ mid, Expands ctx start mid → Ends (SameStep ctx) mid) (room : Nat) :
    ∀ mid, Expands ctx start mid → ∀ declarator : CString, 512 - declarator.length ≤ room →
      Prints ctx mid declarator := by
  induction room using Nat.strong_induction_on with
  | _ room ihRoom =>
      intro mid hmid
      -- within one declarator, along the references that do not grow it
      have hends : Acc (TransGen fun to_ from_ => SameStep ctx from_ to_) mid :=
        Acc.transGen (hsame mid hmid)
      induction hends with
      | intro mid _ ihSame =>
          intro declarator hroom
          have hexpands : ∀ last, ReflTransGen (SameStep ctx) mid last → Expands ctx start last :=
            fun last hlast => hmid.trans (ReflTransGen.mono (fun _ _ => SameStep.declStep) mid last hlast)
          apply prints_step (hsame mid hmid)
          · intro to_ hto
            exact ihSame to_ (transGen_swap.mp hto) (hexpands to_ hto.to_reflTransGen) declarator hroom
          · intro last hlast to_ hto next hlonger hnext
            exact ihRoom (512 - next.length) (by omega) to_ ((hexpands last hlast).tail hto) next
              (Nat.le_refl _)
          · intro to_ hto next
            exact hfresh to_ ⟨mid, hmid, hto⟩ next

theorem prints_of_ends {ctx : EmitCtx} {start : Nat} (hfresh : Ends (FreshStep ctx) start)
    (hsame : ∀ mid, Expands ctx start mid → Ends (SameStep ctx) mid) :
    ∀ declarator, Prints ctx start declarator := by
  induction hfresh with
  | intro start _ ih =>
      intro declarator
      refine prints_of_room ?_ hsame _ start .refl declarator (Nat.le_refl _)
      rintro to_ ⟨mid, hmid, hto⟩
      have hexpands : Expands ctx start to_ := hmid.tail (declStep_of_mem_freshTargets hto)
      exact ih to_ ⟨mid, hmid, hto⟩ fun last hlast => hsame last (hexpands.trans hlast)

/-! ## What a finished printer says -/

theorem ends_of_peelQualifiers {ctx : EmitCtx} {fuel : Nat} :
    ∀ {id current : Nat} {mask mask' : BitVec 32} {type : BtfType},
      peelQualifiers ctx fuel id mask = .ok (current, type, mask') →
        Ends (DeclStep ctx) current → Ends (DeclStep ctx) id := by
  induction fuel with
  | zero =>
      intro id current mask mask' type h
      cases h
  | succ fuel ih =>
      intro id current mask mask' type h hends
      rw [peelQualifiers] at h
      obtain ⟨found, hfound, h⟩ := bind_eq_ok.mp h
      rw [typeById_eq_ok] at hfound
      simp only at h
      split at h
      next =>
        cases h
        exact hends
      next hbit =>
        have hnext := ih h hends
        apply Ends.intro
        intro to_ hto
        have htarget : to_ = found.type := by
          unfold DeclStep declTargets at hto
          rw [hfound] at hto
          cases hkind : found.kind <;> simp_all [typeQualifierBit]
        rw [htarget]
        exact hnext

section

variable {ctx : EmitCtx} {decl : Nat → CString → Except Fault (List Piece)}
  (hdecl : ∀ id declarator pieces, decl id declarator = .ok pieces → Ends (DeclStep ctx) id)

include hdecl

theorem ends_of_emitRecordBody {id : Nat} {record : BtfType} {pieces : List Piece}
    (h : emitRecordBody ctx decl id record = .ok pieces) :
    ∀ to_ ∈ keptTypes ctx.keeps id record, Ends (DeclStep ctx) to_ := by
  intro to_ hto
  obtain ⟨member, i, hget, hkeeps, rfl⟩ := mem_keptTypes.mp hto
  obtain ⟨members, hmembers, _⟩ := bind_eq_ok.mp h
  obtain ⟨xs, hxs⟩ := ok_of_collect hmembers (List.mk_mem_zipIdx_iff_getElem?.mpr hget)
  unfold emitMember at hxs
  simp only [hkeeps, Bool.true_eq_false, if_false] at hxs
  obtain ⟨ys, hys, _⟩ := bind_eq_ok.mp hxs
  exact hdecl _ _ _ hys

theorem ends_of_emitParams {proto : BtfType} {pieces : List Piece}
    (h : emitParams ctx decl proto = .ok pieces) :
    ∀ param ∈ proto.params, Ends (DeclStep ctx) param.type := by
  intro param hparam
  unfold emitParams at h
  split at h
  next hnil =>
    rw [hnil] at hparam
    cases hparam
  next =>
    obtain ⟨i, hi⟩ := List.mem_iff_getElem?.mp hparam
    obtain ⟨xs, hxs⟩ := ok_of_collect h (List.mk_mem_zipIdx_iff_getElem?.mpr hi)
    unfold emitParam at hxs
    simp only at hxs
    split at hxs
    next hzero =>
      apply Ends.intro
      intro to_ hto
      rw [hzero] at hto
      cases hto
    next =>
      obtain ⟨ys, hys, _⟩ := bind_eq_ok.mp hxs
      exact hdecl _ _ _ hys

theorem ends_of_emitQualifiedDecl {fuel id : Nat} {declarator : CString} {pieces : List Piece}
    (h : emitQualifiedDecl ctx decl fuel id declarator = .ok pieces) : Ends (DeclStep ctx) id := by
  unfold emitQualifiedDecl at h
  obtain ⟨⟨current, type, mask⟩, hpeel, h⟩ := bind_eq_ok.mp h
  obtain ⟨htype, _, _⟩ := peelQualifiers_reaches hpeel
  apply ends_of_peelQualifiers hpeel
  simp only at h
  split at h
  next => cases h
  next =>
    split at h
    next hptr =>
      obtain ⟨next, _, h⟩ := bind_eq_ok.mp h
      apply Ends.intro
      intro to_ hto
      have htarget : to_ = type.type := by simpa [DeclStep, declTargets, htype, hptr] using hto
      rw [htarget]
      exact hdecl _ _ _ h
    next =>
      obtain ⟨rest, hrest, _⟩ := bind_eq_ok.mp h
      exact hdecl _ _ _ hrest

end

/-- Where the printer succeeds, the references behind the type end. -/
theorem ends_of_emitDeclEx (ctx : EmitCtx) (fuel : Nat) :
    ∀ id declarator pieces, emitDeclEx ctx fuel id declarator = .ok pieces →
      Ends (DeclStep ctx) id := by
  induction fuel with
  | zero =>
      intro id declarator pieces h
      cases h
  | succ fuel ih =>
      intro id declarator pieces h
      rw [emitDeclEx] at h
      split at h
      next hzero =>
        apply Ends.intro
        intro to_ hto
        rw [hzero] at hto
        cases hto
      next =>
        obtain ⟨type, htype, h⟩ := bind_eq_ok.mp h
        rw [typeById_eq_ok] at htype
        have hone : ∀ to_ next, declTargets ctx id = [to_] → emitDeclEx ctx fuel to_ next = .ok pieces →
            Ends (DeclStep ctx) id := by
          intro to_ next htargets hrest
          apply Ends.intro
          intro other hother
          have heq : other = to_ := by simpa [DeclStep, htargets] using hother
          rw [heq]
          exact ih _ _ _ hrest
        have hnone : declTargets ctx id = [] → Ends (DeclStep ctx) id := by
          intro htargets
          apply Ends.intro
          intro other hother
          simp [DeclStep, htargets] at hother
        cases hkind : type.kind <;> simp only [hkind] at h
        case ptr | array =>
          obtain ⟨next, _, h⟩ := bind_eq_ok.mp h
          exact hone _ next (by simp [declTargets, htype, hkind]) h
        case const | volatile | restrict => exact ends_of_emitQualifiedDecl ih h
        case typeTag | declTag => exact hone _ _ (by simp [declTargets, htype, hkind]) h
        case typedef =>
          split at h
          next hname => exact hone _ _ (by simp [declTargets, htype, hkind, hname]) h
          next hname => exact hnone (by simp [declTargets, htype, hkind, hname])
        case struct | union =>
          split at h
          next hname =>
            obtain ⟨body, hbody, _⟩ := bind_eq_ok.mp h
            apply Ends.intro
            intro to_ hto
            apply ends_of_emitRecordBody ih hbody
            simpa [DeclStep, declTargets, htype, hkind, hname] using hto
          next hname => exact hnone (by simp [declTargets, htype, hkind, hname])
        case funcProto =>
          obtain ⟨proto, hproto, h⟩ := bind_eq_ok.mp h
          rw [typeById_eq_ok, htype] at hproto
          cases hproto
          obtain ⟨result, hresult, h⟩ := bind_eq_ok.mp h
          obtain ⟨params, hparams, _⟩ := bind_eq_ok.mp h
          apply Ends.intro
          intro to_ hto
          simp only [DeclStep, declTargets, htype, hkind, List.mem_cons, List.mem_map] at hto
          rcases hto with rfl | ⟨param, hparam, rfl⟩
          · exact ih _ _ _ hresult
          · exact ends_of_emitParams ih hparams param hparam
        all_goals exact hnone (by simp [declTargets, htype, hkind])

/-! ## The search -/

def WalkStep (ctx : EmitCtx) (from_ to_ : Mode × Nat) : Prop := to_ ∈ walkTargets ctx from_

/-- No walk from the definition and no part of its text goes on forever. -/
structure NodeEnds (ctx : EmitCtx) (node : Node) : Prop where
  walks : ∀ start ∈ nodeStarts ctx node, Ends (WalkStep ctx) start
  same : ∀ start ∈ nodeTypes ctx node, ∀ mid, Expands ctx start mid → Ends (SameStep ctx) mid
  fresh : ∀ start ∈ nodeTypes ctx node, Ends (FreshStep ctx) start

/-- The definitions whose ids have a type. -/
def allNodes (ctx : EmitCtx) : Finset Node :=
  (Finset.range (btfTypeCnt ctx.btf)).image Node.record ∪
    (Finset.range (btfTypeCnt ctx.btf)).image Node.typedef

def unseenNodes (ctx : EmitCtx) (st : EmitState) : Finset Node :=
  {node ∈ allNodes ctx | st.mark node = .unseen}

theorem mem_allNodes {ctx : EmitCtx} {node : Node} (h : isNode ctx node = true) :
    node ∈ allNodes ctx := by
  obtain ⟨type, htype, _⟩ := isNode_eq_true.mp h
  have hlt : node.id < btfTypeCnt ctx.btf := btfTypeById_eq_some_lt htype
  unfold allNodes
  cases node with
  | record id => simpa [Node.id] using hlt
  | typedef id => simpa [Node.id] using hlt

/-- Entering a definition leaves fewer to enter. -/
theorem card_unseenNodes_enter {ctx : EmitCtx} {st : EmitState} {node : Node}
    (hnode : isNode ctx node = true) (hmark : st.mark node = .unseen) :
    (unseenNodes ctx (st.setMark node .active)).card < (unseenNodes ctx st).card := by
  apply Finset.card_lt_card
  rw [Finset.ssubset_iff_of_subset]
  · refine ⟨node, Finset.mem_filter.mpr ⟨mem_allNodes hnode, hmark⟩, ?_⟩
    intro hmem
    have hactive := (Finset.mem_filter.mp hmem).2
    rw [mark_setMark, Function.update_self] at hactive
    cases hactive
  · intro other hother
    obtain ⟨hall, hunseen⟩ := Finset.mem_filter.mp hother
    refine Finset.mem_filter.mpr ⟨hall, ?_⟩
    rw [mark_setMark] at hunseen
    by_cases heq : other = node
    · rw [heq]
      exact hmark
    · rwa [Function.update_of_ne heq] at hunseen

theorem Visits.card_unseenNodes {ctx : EmitCtx} {st st' : EmitState} {nodes : List Node}
    (h : Visits ctx st nodes st') : (unseenNodes ctx st').card ≤ (unseenNodes ctx st).card := by
  apply Finset.card_le_card
  intro node hnode
  obtain ⟨hall, hunseen⟩ := Finset.mem_filter.mp hnode
  refine Finset.mem_filter.mpr ⟨hall, ?_⟩
  by_contra hseen
  exact h.run.ne_unseen hseen hunseen

theorem nodeItem_halts {ctx : EmitCtx} {node : Node} (h : NodeEnds ctx node) {type : BtfType}
    (htype : btfTypeById ctx.btf node.id = some type) :
    Halts .outOfFuel fun fuel => nodeItem ctx fuel type node := by
  have hprints : ∀ start ∈ nodeTypes ctx node, ∀ declarator, Prints ctx start declarator :=
    fun start hstart => prints_of_ends (h.fresh start hstart) (h.same start hstart)
  cases node with
  | record id =>
      apply Halts.bind
      · apply emitRecordBody_halts
        intro to_ hto declarator
        exact hprints to_ (by simpa [nodeTypes, htype] using hto) declarator
      · intro body _
        exact .ok _
  | typedef id =>
      apply Halts.bind (hprints type.type (by simp [nodeTypes, htype]) _)
      intro decl _
      exact .ok _

theorem emitForwardDecl_ne_outOfFuel (ctx : EmitCtx) (id : Nat) (st : EmitState) :
    emitForwardDecl ctx id st ≠ .error .outOfFuel := by
  intro h
  unfold emitForwardDecl at h
  rcases bind_eq_error.mp h with h | ⟨type, _, h⟩
  · exact typeById_ne_outOfFuel ctx id h
  · split at h
    · cases h
    · simp only at h
      split at h <;> cases h

section

/-! `good` holds of the definitions the search can come to. -/

variable {ctx : EmitCtx} {good : Node → Prop}
  (hends : ∀ node, isNode ctx node = true → good node → NodeEnds ctx node)
  (hgood : ∀ node dep, good node → Needs ctx node dep → good dep)

/-- Walks from a state with at most `room` definitions to enter. -/
def WalksHalt (ctx : EmitCtx) (good : Node → Prop) (room : Nat) : Prop :=
  ∀ st, (unseenNodes ctx st).card ≤ room → ∀ from_, Ends (WalkStep ctx) from_ →
    (∀ dep, WalkNeeds ctx from_ dep → good dep) →
      Halts .outOfFuel fun fuel => walkDeps ctx fuel st from_

def DefinesHalt (ctx : EmitCtx) (good : Node → Prop) (room : Nat) : Prop :=
  ∀ st, (unseenNodes ctx st).card ≤ room → ∀ node, (isNode ctx node = true → good node) →
    Halts .outOfFuel fun fuel => defineNode ctx fuel st node

include hends hgood in
theorem definesHalt {room : Nat} (ih : ∀ less < room, WalksHalt ctx good less) :
    DefinesHalt ctx good room := by
  intro st hroom node hnode
  apply Halts.succ
  cases htype : btfTypeById ctx.btf node.id with
  | none =>
      simp only [defineNode_none htype]
      exact .of_ne (by simp [fail])
  | some type =>
      cases hfits : node.Fits ctx type with
      | false =>
          rcases defineNode_of_not_fits st htype hfits with heq | ⟨_, heq⟩
          · simp only [heq]
            exact .ok _
          · simp only [heq]
            exact .of_ne (by simp [cycleError, fail])
      | true =>
          have hisNode : isNode ctx node = true := isNode_eq_true.mpr ⟨type, htype, hfits⟩
          simp only [defineNode_of_fits htype hfits]
          cases hmark : st.mark node with
          | done => exact .ok _
          | active =>
              cases node with
              | record id => exact .ok _
              | typedef id => exact .of_ne (by simp)
          | unseen =>
              have hnodeEnds := hends node hisNode (hnode hisNode)
              have hless := card_unseenNodes_enter hisNode hmark
              apply Halts.bind
              · refine Halts.foldlM (I := fun s => (unseenNodes ctx s).card < room) ?_ ?_ _
                  (Nat.lt_of_lt_of_le hless hroom)
                · intro start _ fuel s t hs hwalk
                  obtain ⟨nodes, _, hvisits⟩ := (walk_and_define_visits ctx fuel).1 start s t hwalk
                  exact Nat.lt_of_le_of_lt hvisits.card_unseenNodes hs
                · intro start hstart s hs
                  refine ih _ hs s (Nat.le_refl _) start (hnodeEnds.walks start hstart) ?_
                  intro dep hdep
                  exact hgood node dep (hnode hisNode) ⟨start, hstart, hdep⟩
              · intro mid _
                apply Halts.bind (nodeItem_halts hnodeEnds htype)
                intro item _
                exact .ok _

theorem walksHalt {room : Nat} (hdefines : DefinesHalt ctx good room) : WalksHalt ctx good room := by
  intro st hroom from_ hends hgood
  induction hends generalizing st with
  | intro from_ _ ih =>
      apply Halts.succ
      cases htype : btfTypeById ctx.btf from_.2 with
      | none =>
          simp only [walkDeps_none htype]
          exact .of_ne (by simp [fail])
      | some type =>
          simp only [walkDeps_succ htype]
          have hkeeps : ∀ to_ ∈ walkTargets ctx from_, ∀ fuel s t,
              (unseenNodes ctx s).card ≤ room → walkDeps ctx fuel s to_ = .ok t →
                (unseenNodes ctx t).card ≤ room := by
            intro to_ _ fuel s t hs hwalk
            obtain ⟨nodes, _, hvisits⟩ := (walk_and_define_visits ctx fuel).1 to_ s t hwalk
            exact Nat.le_trans hvisits.card_unseenNodes hs
          apply Halts.bind
          · refine Halts.foldlM hkeeps ?_ st hroom
            intro to_ hto s hs
            refine ih to_ hto s hs ?_
            intro dep hdep
            exact hgood dep (walkNeeds_iff.mpr (Or.inl ⟨to_, hto, hdep⟩))
          · rintro mid ⟨fuel, hmid⟩
            have hmidRoom := foldlM_keeps (fun to_ hto => hkeeps to_ hto fuel) hroom hmid
            rcases walkLeaf_cases htype with ⟨node, _, hnodes, hleaf⟩ | ⟨_, hforward | hnothing⟩
            · simp only [hleaf]
              apply hdefines mid hmidRoom node
              intro hisNode
              apply hgood
              rw [walkNeeds_iff, hnodes]
              exact Or.inr (by simp [ownNode, hisNode])
            · simp only [hforward]
              exact .of_ne (emitForwardDecl_ne_outOfFuel ctx _ mid)
            · simp only [hnothing]
              exact .ok _

include hends hgood in
/-- Where nothing good goes on forever, neither does the search. -/
theorem defines_halt (room : Nat) : DefinesHalt ctx good room := by
  induction room using Nat.strong_induction_on with
  | _ room ih => exact definesHalt hends hgood fun less hless => walksHalt (ih less hless)

end

/-! ## The whole header -/

theorem collectEmitGroups_ne_outOfFuel (ctx : EmitCtx) (required : TypeSet) :
    collectEmitGroups ctx required ≠ .error .outOfFuel := by
  have hfails : FailsIn (· ≠ Fault.outOfFuel) (collectEmitGroups ctx required) := by
    unfold collectEmitGroups
    refine FailsIn.foldlM (I := fun _ => True) (fun _ _ _ _ _ _ => trivial) ?_ _ trivial
    intro id _ groups _ fault hfault
    rcases bind_eq_error.mp hfault with hfault | ⟨type, _, hdone⟩
    · rintro rfl
      exact typeById_ne_outOfFuel ctx id hfault
    · cases hdone
  exact fun h => hfails _ h rfl

theorem emitEnumDefinition_ne_outOfFuel (ctx : EmitCtx) (id : Nat) (st : EmitState) :
    emitEnumDefinition ctx id st ≠ .error .outOfFuel := by
  intro h
  rcases bind_eq_error.mp h with h | ⟨type, _, hdone⟩
  · exact typeById_ne_outOfFuel ctx id h
  · cases hdone

/-- A loop over required definitions, where those in reach do not go on forever. -/
theorem defineLoop_halts {ctx : EmitCtx} {required : TypeSet}
    (hends : ∀ node, Reached ctx required.ids node → NodeEnds ctx node) {ids : List Nat}
    {toNode : Nat → Node} (hnodes : ∀ id ∈ ids, (toNode id).id ∈ requiredIds required)
    (st : EmitState) :
    Halts .outOfFuel fun fuel => ids.foldlM (fun st id => defineNode ctx fuel st (toNode id)) st := by
  refine Halts.foldlM (I := fun _ => True) (fun _ _ _ _ _ _ _ => trivial) ?_ st trivial
  intro id hid s _
  have hgood : ∀ first dep, Reached ctx required.ids first → Needs ctx first dep →
      Reached ctx required.ids dep := fun _ _ hfirst hneeds => hfirst.needs hneeds
  refine defines_halt (fun other _ => hends other) hgood _ s (Nat.le_refl _) (toNode id) ?_
  intro hisNode
  exact ⟨toNode id, mem_requiredIds.mp (hnodes id hid), hisNode, .refl⟩

theorem emitHeader_halts {ctx : EmitCtx} {required : TypeSet}
    (hends : ∀ node, Reached ctx required.ids node → NodeEnds ctx node) :
    Halts .outOfFuel fun fuel => emitHeader ctx fuel required := by
  unfold emitHeader
  apply Halts.bind (.of_ne (collectEmitGroups_ne_outOfFuel ctx required))
  rintro groups ⟨_, hgroups⟩
  obtain ⟨_, _, _, hrecords, htypedefs⟩ := collectEmitGroups_eq hgroups
  simp only [List.nil_append] at hrecords htypedefs
  apply Halts.bind
  · refine Halts.foldlM (I := fun _ => True) (fun _ _ _ _ _ _ _ => trivial) ?_ _ trivial
    intro id _ s _
    exact .of_ne (emitForwardDecl_ne_outOfFuel ctx id s)
  intro stFwds _
  apply Halts.bind
  · refine Halts.foldlM (I := fun _ => True) (fun _ _ _ _ _ _ _ => trivial) ?_ _ trivial
    intro id _ s _
    exact .of_ne (emitEnumDefinition_ne_outOfFuel ctx id s)
  intro stEnums _
  apply Halts.bind
  · refine @defineLoop_halts _ _ hends _ Node.typedef ?_ stEnums
    intro id hid
    rw [htypedefs] at hid
    exact (List.mem_filter.mp hid).1
  intro stTypedefs _
  apply Halts.bind
  · refine @defineLoop_halts _ _ hends _ Node.record ?_ stTypedefs
    intro id hid
    rw [hrecords] at hid
    exact (List.mem_filter.mp hid).1
  intro st _
  exact .ok _

/-! ## What a finished header says -/

/-- A walk that succeeds has met no endless chain. -/
theorem ends_of_walkDeps (ctx : EmitCtx) (fuel : Nat) :
    ∀ from_ st st', walkDeps ctx fuel st from_ = .ok st' → Ends (WalkStep ctx) from_ := by
  induction fuel with
  | zero =>
      intro from_ st st' h
      rw [walkDeps_zero] at h
      cases h
  | succ fuel ih =>
      intro from_ st st' h
      cases htype : btfTypeById ctx.btf from_.2 with
      | none =>
          rw [walkDeps_none htype] at h
          cases h
      | some type =>
          rw [walkDeps_succ htype] at h
          obtain ⟨mid, htargets, _⟩ := bind_eq_ok.mp h
          apply Ends.intro
          intro to_ hto
          obtain ⟨s, t, hwalk⟩ := ok_of_foldlM htargets hto
          exact ih to_ s t hwalk

theorem NodeEnds.of_walked {ctx : EmitCtx} {node : Node} (hwalked : node.Walked ctx)
    (hdecl : ∀ start ∈ nodeTypes ctx node, Ends (DeclStep ctx) start) : NodeEnds ctx node where
  walks := by
    intro start hstart
    obtain ⟨fuel, st, st', hwalks⟩ := hwalked
    obtain ⟨s, t, hwalk⟩ := ok_of_foldlM hwalks hstart
    exact ends_of_walkDeps ctx fuel start s t hwalk
  same := by
    intro start hstart mid hmid
    have hends := (hdecl start hstart).trans hmid
    exact hends.of_transGen fun from_ to_ hstep => .single hstep.declStep
  fresh := by
    intro start hstart
    apply (hdecl start hstart).of_transGen
    rintro from_ to_ ⟨mid, hmid, hto⟩
    exact .tail' hmid (declStep_of_mem_freshTargets hto)

theorem nodeEnds_of_item {ctx : EmitCtx} {item : Item} {node : Node} (h : item.FromWalk ctx)
    (hnode : item.node? = some node) : NodeEnds ctx node := by
  cases item with
  | text _ => cases hnode
  | forwardDecl _ _ _ => cases hnode
  | enumDef _ _ _ => cases hnode
  | typedefDef id name decl =>
      cases hnode
      obtain ⟨type, fuel, htype, _, hwalked, hitem⟩ := h
      obtain ⟨pieces, hpieces, _⟩ := bind_eq_ok.mp hitem
      apply NodeEnds.of_walked hwalked
      intro start hstart
      obtain rfl : start = type.type := by simpa [nodeTypes, Node.id, htype] using hstart
      exact ends_of_emitDeclEx ctx fuel _ _ _ hpieces
  | recordDef id keyword name body =>
      cases hnode
      obtain ⟨type, fuel, htype, _, hwalked, hitem⟩ := h
      obtain ⟨pieces, hpieces, _⟩ := bind_eq_ok.mp hitem
      apply NodeEnds.of_walked hwalked
      intro start hstart
      apply ends_of_emitRecordBody (ends_of_emitDeclEx ctx fuel) hpieces
      simpa [nodeTypes, Node.id, htype] using hstart

end MinCorehdr
