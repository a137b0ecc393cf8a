import MinCorehdr.Emitter.Search

/-!
# What a declaration mentions

The printer expands a type until it meets something that has a name.  The names
and members among the printed pieces are those of the types it expands.
-/

namespace MinCorehdr

open Relation Support.Result

/-- Where the printer goes on from a type. -/
def declTargets (ctx : EmitCtx) (id : Nat) : List Nat :=
  match btfTypeById ctx.btf id with
  | none => []
  | some type =>
      match type.kind with
      | .ptr | .volatile | .const | .restrict | .typeTag | .declTag => [type.type]
      | .array => [type.array.type]
      | .typedef => if mchBtfTypeName ctx.btf type = [] then [type.type] else []
      | .struct | .union =>
          if mchBtfTypeName ctx.btf type = [] then keptTypes ctx.keeps id type else []
      | .funcProto => type.type :: type.params.map BtfParam.type
      | _ => []

/-- The names and members the printer writes for a type itself. -/
def ownPieces (ctx : EmitCtx) (id : Nat) : List Piece :=
  match btfTypeById ctx.btf id with
  | none => []
  | some type =>
      let name := mchBtfTypeName ctx.btf type
      match type.kind with
      | .typedef => if name = [] then [] else [.typedefName id name]
      | .struct | .union =>
          if name = [] then (keptMembers ctx.keeps id type).map (fun m => .member id m.2)
          else [.tagName id (recordKeyword type) name]
      | .fwd => [.tagName id (recordKeyword type) name]
      | .enum | .enum64 => if name = [] then [] else [.tagName id "enum".toList name]
      | _ => []

def Expands (ctx : EmitCtx) : Nat → Nat → Prop :=
  ReflTransGen (fun from_ to_ => to_ ∈ declTargets ctx from_)

/-- The declaration of type `id` contains `piece`. -/
def Shows (ctx : EmitCtx) (id : Nat) (piece : Piece) : Prop :=
  ∃ to_, Expands ctx id to_ ∧ piece ∈ ownPieces ctx to_

def Piece.IsText : Piece → Prop
  | .text _ => True
  | _ => False

theorem shows_iff {ctx : EmitCtx} {id : Nat} {piece : Piece} :
    Shows ctx id piece ↔
      (∃ to_ ∈ declTargets ctx id, Shows ctx to_ piece) ∨ piece ∈ ownPieces ctx id := by
  constructor
  · rintro ⟨to_, hreach, hpiece⟩
    rcases hreach.cases_head with rfl | ⟨mid, hmid, hreach⟩
    · exact Or.inr hpiece
    · exact Or.inl ⟨mid, hmid, to_, hreach, hpiece⟩
  · rintro (⟨mid, hmid, to_, hreach, hpiece⟩ | hpiece)
    · exact ⟨to_, .head hmid hreach, hpiece⟩
    · exact ⟨id, .refl, hpiece⟩

theorem not_shows_zero {ctx : EmitCtx} {piece : Piece} : ¬Shows ctx 0 piece := by
  rw [shows_iff]
  simp [declTargets, ownPieces, btfTypeById, voidType]

/-- A type with one target and no pieces of its own shows what the target shows. -/
theorem shows_of_target {ctx : EmitCtx} {id to_ : Nat} (htargets : declTargets ctx id = [to_])
    (hown : ownPieces ctx id = []) (piece : Piece) :
    Shows ctx id piece ↔ Shows ctx to_ piece := by
  rw [shows_iff, htargets, hown]
  simp

theorem typedefName_of_ownPieces {ctx : EmitCtx} {id id' : Nat} {name : CString}
    (h : .typedefName id' name ∈ ownPieces ctx id) :
    id' = id ∧ ∃ type, btfTypeById ctx.btf id = some type ∧
      isNamedTypedef ctx.btf type = true ∧ name = mchBtfTypeName ctx.btf type := by
  unfold ownPieces at h
  cases htype : btfTypeById ctx.btf id with
  | none => simp [htype] at h
  | some type =>
      by_cases hname : mchBtfTypeName ctx.btf type = [] <;> cases hkind : type.kind <;>
        simp [htype, hkind, hname] at h
      exact ⟨h.1, type, rfl, by simp [isNamedTypedef, hkind, hname], h.2⟩

/-- A typedef name in a declaration is the name of a typedef. -/
theorem Shows.typedefName {ctx : EmitCtx} {from_ id : Nat} {name : CString}
    (h : Shows ctx from_ (.typedefName id name)) :
    ∃ type, btfTypeById ctx.btf id = some type ∧ isNamedTypedef ctx.btf type = true ∧
      name = mchBtfTypeName ctx.btf type := by
  obtain ⟨to_, _, hpiece⟩ := h
  obtain ⟨rfl, htype⟩ := typedefName_of_ownPieces hpiece
  exact htype

/-- The recursive calls of the printer print what their types show. -/
def PrintsShown (ctx : EmitCtx) (decl : Nat → CString → Except Fault (List Piece)) : Prop :=
  ∀ id declarator pieces, decl id declarator = .ok pieces →
    ∀ piece, ¬piece.IsText → (piece ∈ pieces ↔ Shows ctx id piece)

section

variable {ctx : EmitCtx} {decl : Nat → CString → Except Fault (List Piece)}

/-- The qualifiers in front of a type show nothing. -/
theorem peelQualifiers_shows {fuel : Nat} :
    ∀ {id current : Nat} {mask mask' : BitVec 32} {type : BtfType},
      peelQualifiers ctx fuel id mask = .ok (current, type, mask') →
        btfTypeById ctx.btf current = some type ∧
          ∀ piece, Shows ctx id piece ↔ Shows ctx current piece := by
  induction fuel with
  | zero =>
      intro id current mask mask' type h
      cases h
  | succ fuel ih =>
      intro id current mask mask' type h
      rw [peelQualifiers] at h
      obtain ⟨found, hfound, h⟩ := bind_eq_ok.mp h
      rw [typeById_eq_ok] at hfound
      simp only at h
      split at h
      next =>
        cases h
        exact ⟨hfound, fun _ => Iff.rfl⟩
      next hbit =>
        obtain ⟨htype, hshows⟩ := ih h
        refine ⟨htype, fun piece => ?_⟩
        rw [← hshows]
        apply shows_of_target
        · unfold declTargets
          rw [hfound]
          cases hkind : found.kind <;> simp_all [typeQualifierBit]
        · unfold ownPieces
          rw [hfound]
          cases hkind : found.kind <;> simp_all [typeQualifierBit]

theorem emitQualifiedDecl_shows (hdecl : PrintsShown ctx decl) {fuel id : Nat}
    {declarator : CString} {pieces : List Piece}
    (h : emitQualifiedDecl ctx decl fuel id declarator = .ok pieces) (piece : Piece)
    (hpiece : ¬piece.IsText) : piece ∈ pieces ↔ Shows ctx id piece := by
  unfold emitQualifiedDecl at h
  obtain ⟨⟨current, type, mask⟩, hpeel, h⟩ := bind_eq_ok.mp h
  obtain ⟨htype, hshows⟩ := peelQualifiers_shows hpeel
  rw [hshows]
  simp only at h
  split at h
  next => cases h
  next qualifiers _ =>
    split at h
    next hptr =>
      obtain ⟨next, _, h⟩ := bind_eq_ok.mp h
      rw [hdecl _ _ _ h piece hpiece]
      symm
      apply shows_of_target
      · simp [declTargets, htype, hptr]
      · simp [ownPieces, htype, hptr]
    next hptr =>
      obtain ⟨rest, hrest, h⟩ := bind_eq_ok.mp h
      cases h
      rw [← hdecl _ _ _ hrest piece hpiece, List.mem_cons, or_iff_right]
      rintro rfl
      exact hpiece trivial

theorem emitParams_shows (hdecl : PrintsShown ctx decl) {proto : BtfType} {pieces : List Piece}
    (h : emitParams ctx decl proto = .ok pieces) (piece : Piece) (hpiece : ¬piece.IsText) :
    piece ∈ pieces ↔ ∃ param ∈ proto.params, Shows ctx param.type piece := by
  have htext : ∀ t, piece ≠ .text t := by
    rintro t rfl
    exact hpiece trivial
  unfold emitParams at h
  split at h
  next hnil =>
    cases h
    simp [htext, hnil]
  next =>
    rw [mem_collect h]
    have hone : ∀ param i xs, emitParam ctx decl (param, i) = .ok xs →
        (piece ∈ xs ↔ Shows ctx param.type piece) := by
      intro param i xs hxs
      unfold emitParam at hxs
      simp only at hxs
      split at hxs
      next hzero =>
        cases hxs
        rw [hzero]
        simp [htext, not_shows_zero]
      next =>
        obtain ⟨ys, hys, hxs⟩ := bind_eq_ok.mp hxs
        cases hxs
        rw [List.mem_cons, hdecl _ _ _ hys piece hpiece]
        simp [htext]
    constructor
    · rintro ⟨⟨param, i⟩, hmem, xs, hxs, hin⟩
      exact ⟨param, List.fst_mem_of_mem_zipIdx hmem, (hone param i xs hxs).mp hin⟩
    · rintro ⟨param, hmem, hshows⟩
      obtain ⟨i, hi⟩ := List.mem_iff_getElem?.mp hmem
      have hmem' := List.mk_mem_zipIdx_iff_getElem?.mpr hi
      obtain ⟨xs, hxs⟩ := ok_of_collect h hmem'
      exact ⟨(param, i), hmem', xs, hxs, (hone param i xs hxs).mpr hshows⟩

theorem emitFuncDecl_shows (hdecl : PrintsShown ctx decl) {id : Nat} {proto : BtfType}
    (hproto : btfTypeById ctx.btf id = some proto) (hkind : proto.kind = .funcProto)
    {declarator : CString} {pieces : List Piece}
    (h : emitFuncDecl ctx decl id declarator = .ok pieces) (piece : Piece)
    (hpiece : ¬piece.IsText) : piece ∈ pieces ↔ Shows ctx id piece := by
  have htext : ∀ t, piece ≠ .text t := by
    rintro t rfl
    exact hpiece trivial
  unfold emitFuncDecl at h
  rw [typeById_of_some hproto, ok_bind] at h
  obtain ⟨result, hresult, h⟩ := bind_eq_ok.mp h
  obtain ⟨params, hparams, h⟩ := bind_eq_ok.mp h
  cases h
  rw [shows_iff]
  have htargets : declTargets ctx id = proto.type :: proto.params.map BtfParam.type := by
    simp [declTargets, hproto, hkind]
  have hown : ownPieces ctx id = [] := by simp [ownPieces, hproto, hkind]
  rw [htargets, hown]
  simp [htext, hdecl _ _ _ hresult piece hpiece, emitParams_shows hdecl hparams piece hpiece]

/-- A record body prints its kept members and what their types show. -/
theorem emitRecordBody_shows (hdecl : PrintsShown ctx decl) {id : Nat} {record : BtfType}
    {pieces : List Piece} (h : emitRecordBody ctx decl id record = .ok pieces) (piece : Piece)
    (hpiece : ¬piece.IsText) :
    piece ∈ pieces ↔ piece ∈ (keptMembers ctx.keeps id record).map (fun m => .member id m.2) ∨
      ∃ to_ ∈ keptTypes ctx.keeps id record, Shows ctx to_ piece := by
  have htext : ∀ t, piece ≠ .text t := by
    rintro t rfl
    exact hpiece trivial
  unfold emitRecordBody at h
  obtain ⟨members, hmembers, h⟩ := bind_eq_ok.mp h
  cases h
  have hone : ∀ member i xs, emitMember ctx decl id record.kflag (member, i) = .ok xs →
      (piece ∈ xs ↔ ctx.keeps id i = true ∧
        (piece = .member id i ∨ Shows ctx member.type piece)) := by
    intro member i xs hxs
    unfold emitMember at hxs
    simp only at hxs
    split at hxs
    next hkeeps =>
      cases hxs
      simp [hkeeps]
    next hkeeps =>
      obtain ⟨ys, hys, hxs⟩ := bind_eq_ok.mp hxs
      cases hxs
      have hkeeps' : ctx.keeps id i = true := by simpa using hkeeps
      rw [List.cons_append, List.mem_cons, List.mem_append, hdecl _ _ _ hys piece hpiece]
      simp [htext, hkeeps']
  have hbody : piece ∈ members ↔ ∃ member i, record.members[i]? = some member ∧
      ctx.keeps id i = true ∧ (piece = .member id i ∨ Shows ctx member.type piece) := by
    rw [mem_collect hmembers]
    constructor
    · rintro ⟨⟨member, i⟩, hmem, xs, hxs, hin⟩
      exact ⟨member, i, List.mk_mem_zipIdx_iff_getElem?.mp hmem, (hone member i xs hxs).mp hin⟩
    · rintro ⟨member, i, hmem, hshown⟩
      have hmem' := List.mk_mem_zipIdx_iff_getElem?.mpr hmem
      obtain ⟨xs, hxs⟩ := ok_of_collect hmembers hmem'
      exact ⟨(member, i), hmem', xs, hxs, (hone member i xs hxs).mpr hshown⟩
  have hwhole : piece ∈ Piece.text " \x7b\n".toList :: members ++ [.text "\x7d".toList] ↔
      piece ∈ members := by
    simp [htext]
  rw [hwhole, hbody]
  constructor
  · rintro ⟨member, i, hget, hkeeps, heq | hshows⟩
    · exact Or.inl (List.mem_map.mpr ⟨(member, i), mem_keptMembers.mpr ⟨hget, hkeeps⟩, heq.symm⟩)
    · exact Or.inr ⟨member.type, mem_keptTypes.mpr ⟨member, i, hget, hkeeps, rfl⟩, hshows⟩
  · rintro (hmem | ⟨to_, hto, hshows⟩)
    · obtain ⟨⟨member, i⟩, hkept, heq⟩ := List.mem_map.mp hmem
      obtain ⟨hget, hkeeps⟩ := mem_keptMembers.mp hkept
      exact ⟨member, i, hget, hkeeps, Or.inl heq.symm⟩
    · obtain ⟨member, i, hget, hkeeps, rfl⟩ := mem_keptTypes.mp hto
      exact ⟨member, i, hget, hkeeps, Or.inr hshows⟩

theorem emitInlineRecord_shows (hdecl : PrintsShown ctx decl) {id : Nat} {type : BtfType}
    (htype : btfTypeById ctx.btf id = some type) (hkind : type.kind = .struct ∨ type.kind = .union)
    (hname : mchBtfTypeName ctx.btf type = []) {declarator : CString} {pieces : List Piece}
    (h : emitInlineRecord ctx decl type id declarator = .ok pieces) (piece : Piece)
    (hpiece : ¬piece.IsText) : piece ∈ pieces ↔ Shows ctx id piece := by
  have htext : ∀ t, piece ≠ .text t := by
    rintro t rfl
    exact hpiece trivial
  obtain ⟨body, hbody, h⟩ := bind_eq_ok.mp h
  cases h
  rw [shows_iff]
  have htargets : declTargets ctx id = keptTypes ctx.keeps id type := by
    rcases hkind with hkind | hkind <;> simp [declTargets, htype, hkind, hname]
  have hown : ownPieces ctx id = (keptMembers ctx.keeps id type).map (fun m => .member id m.2) := by
    rcases hkind with hkind | hkind <;> simp [ownPieces, htype, hkind, hname]
  rw [htargets, hown, or_comm, ← emitRecordBody_shows hdecl hbody piece hpiece]
  simp [htext]

end

/-- Whatever the fuel, the printer prints what the type shows. -/
theorem emitDeclEx_shows (ctx : EmitCtx) (fuel : Nat) : PrintsShown ctx (emitDeclEx ctx fuel) := by
  induction fuel with
  | zero =>
      intro id declarator pieces h
      cases h
  | succ fuel ih =>
      intro id declarator pieces h piece hpiece
      have htext : ∀ t, piece ≠ .text t := by
        rintro t rfl
        exact hpiece trivial
      rw [emitDeclEx] at h
      split at h
      next hzero =>
        cases h
        rw [hzero]
        simp [htext, not_shows_zero]
      next hzero =>
        obtain ⟨type, htype, h⟩ := bind_eq_ok.mp h
        rw [typeById_eq_ok] at htype
        -- a leaf: nothing behind it, and its own pieces are what was printed
        have hleaf : ∀ own rest, declTargets ctx id = [] → ownPieces ctx id = own →
            (Except.ok (own ++ [Piece.text rest]) : Except Fault (List Piece)) = .ok pieces →
            (piece ∈ pieces ↔ Shows ctx id piece) := by
          intro own rest htargets hown heq
          cases heq
          rw [shows_iff, htargets, hown]
          simp [htext]
        -- a type that only passes on to another
        have hpass : ∀ to_ next, declTargets ctx id = [to_] → ownPieces ctx id = [] →
            emitDeclEx ctx fuel to_ next = .ok pieces → (piece ∈ pieces ↔ Shows ctx id piece) := by
          intro to_ next htargets hown hdecl
          rw [shows_of_target htargets hown]
          exact ih _ _ _ hdecl piece hpiece
        cases hkind : type.kind <;> simp only [hkind] at h
        case int | float =>
          exact hleaf [] _ (by simp [declTargets, htype, hkind]) (by simp [ownPieces, htype, hkind]) h
        case ptr | array =>
          obtain ⟨next, _, h⟩ := bind_eq_ok.mp h
          exact hpass _ next (by simp [declTargets, htype, hkind])
            (by simp [ownPieces, htype, hkind]) h
        case const | volatile | restrict => exact emitQualifiedDecl_shows ih h piece hpiece
        case typeTag | declTag =>
          exact hpass _ _ (by simp [declTargets, htype, hkind]) (by simp [ownPieces, htype, hkind]) h
        case typedef =>
          split at h
          next hname =>
            exact hpass _ _ (by simp [declTargets, htype, hkind, hname])
              (by simp [ownPieces, htype, hkind, hname]) h
          next hname =>
            exact hleaf [_] _ (by simp [declTargets, htype, hkind, hname])
              (by simp [ownPieces, htype, hkind, hname]) h
        case struct | union =>
          split at h
          next hname =>
            exact emitInlineRecord_shows ih htype (by simp [hkind]) hname h piece hpiece
          next hname =>
            exact hleaf [_] _ (by simp [declTargets, htype, hkind, hname])
              (by simp [ownPieces, htype, hkind, hname]) h
        case fwd =>
          exact hleaf [_] _ (by simp [declTargets, htype, hkind]) (by simp [ownPieces, htype, hkind]) h
        case enum | enum64 =>
          split at h
          next hname =>
            exact hleaf [] _ (by simp [declTargets, htype, hkind])
              (by simp [ownPieces, htype, hkind, hname]) h
          next hname =>
            exact hleaf [_] _ (by simp [declTargets, htype, hkind])
              (by simp [ownPieces, htype, hkind, hname]) h
        case funcProto => exact emitFuncDecl_shows ih htype hkind h piece hpiece
        all_goals cases h

/-! ## The pieces of a definition -/

/-- The definition of `node` contains `piece`. -/
def NodeShows (ctx : EmitCtx) (node : Node) (piece : Piece) : Prop :=
  match btfTypeById ctx.btf node.id with
  | none => False
  | some type =>
      match node with
      | .record id =>
          piece ∈ (keptMembers ctx.keeps id type).map (fun m => .member id m.2) ∨
            ∃ to_ ∈ keptTypes ctx.keeps id type, Shows ctx to_ piece
      | .typedef _ => Shows ctx type.type piece

theorem NodeShows.typedefName {ctx : EmitCtx} {node : Node} {id : Nat} {name : CString}
    (h : NodeShows ctx node (.typedefName id name)) :
    ∃ type, btfTypeById ctx.btf id = some type ∧ isNamedTypedef ctx.btf type = true ∧
      name = mchBtfTypeName ctx.btf type := by
  unfold NodeShows at h
  split at h
  next => exact h.elim
  next =>
    split at h
    next =>
      rcases h with h | ⟨to_, _, h⟩
      · simp at h
      · exact h.typedefName
    next => exact h.typedefName

theorem nodeShows_of_item {ctx : EmitCtx} {item : Item} {node : Node} (h : item.FromWalk ctx)
    (hnode : item.node? = some node) (piece : Piece) (hpiece : ¬piece.IsText) :
    piece ∈ item.pieces ↔ NodeShows ctx node piece := by
  cases item with
  | text _ => cases hnode
  | forwardDecl _ _ _ => cases hnode
  | enumDef _ _ _ => cases hnode
  | typedefDef id name decl =>
      cases hnode
      obtain ⟨type, fuel, htype, _, _, hitem⟩ := h
      obtain ⟨pieces, hpieces, heq⟩ := bind_eq_ok.mp hitem
      cases heq
      simp only [NodeShows, Node.id, htype]
      exact emitDeclEx_shows ctx fuel _ _ _ hpieces piece hpiece
  | recordDef id keyword name body =>
      cases hnode
      obtain ⟨type, fuel, htype, _, _, hitem⟩ := h
      obtain ⟨pieces, hpieces, heq⟩ := bind_eq_ok.mp hitem
      cases heq
      simp only [NodeShows, Node.id, htype]
      exact emitRecordBody_shows (emitDeclEx_shows ctx fuel) hpieces piece hpiece

end MinCorehdr
