import MinCorehdr.Emitter.Walk

/-!
# The graph behind the walks

The two walks are one recursion over pairs of a mode and a type id: first the
targets of the pair, then what the pair itself prints.  The definitions they
print are the nodes of a second graph; a definition needs the nodes its walks
meet.
-/

namespace MinCorehdr

open Relation Support.DepthFirst Support.Result

/-- A definition the emitter prints on demand. -/
inductive Node
  | record (id : Nat)
  | typedef (id : Nat)
  deriving DecidableEq, Repr

inductive Mode
  | hard | soft
  deriving DecidableEq, Repr

/-- Where the hard walk goes on from a type, pointers and prototypes apart. -/
def hardTargets (ctx : EmitCtx) (id : Nat) : List Nat :=
  match btfTypeById ctx.btf id with
  | none => []
  | some type =>
      match type.kind with
      | .array => [type.array.type]
      | .typedef | .volatile | .const | .restrict | .typeTag | .declTag => [type.type]
      | .struct | .union =>
          if isNamedRecord ctx.btf type then [] else keptTypes ctx.keeps id type
      | _ => []

def softTargets (ctx : EmitCtx) (id : Nat) : List Nat :=
  match btfTypeById ctx.btf id with
  | none => []
  | some type =>
      match type.kind with
      | .volatile | .const | .restrict | .typeTag | .declTag | .ptr => [type.type]
      | .array => [type.array.type]
      | .funcProto => type.type :: type.params.map BtfParam.type
      | _ => []

/-- The hard walk leaves a pointer or a prototype to the soft walk. -/
def entersSoft (ctx : EmitCtx) (id : Nat) : Bool :=
  match btfTypeById ctx.btf id with
  | none => false
  | some type => type.kind == .ptr || type.kind == .funcProto

def walkTargets (ctx : EmitCtx) : Mode × Nat → List (Mode × Nat)
  | (.hard, id) =>
      if entersSoft ctx id then [(.soft, id)] else (hardTargets ctx id).map (Prod.mk .hard)
  | (.soft, id) => (softTargets ctx id).map (Prod.mk .soft)

def isNamedTypedef (btf : Btf) (type : BtfType) : Bool :=
  type.kind == .typedef && decide (mchBtfTypeName btf type ≠ [])

/-- The definition a walk asks for at a pair. -/
def walkNodes (ctx : EmitCtx) (at_ : Mode × Nat) : List Node :=
  match btfTypeById ctx.btf at_.2 with
  | none => []
  | some type =>
      if isNamedTypedef ctx.btf type then [.typedef at_.2]
      else if isNamedRecord ctx.btf type && decide (at_.1 = .hard) then [.record at_.2]
      else []

def WalkReaches (ctx : EmitCtx) : Mode × Nat → Mode × Nat → Prop :=
  ReflTransGen (fun from_ to_ => to_ ∈ walkTargets ctx from_)

/-- The walk from a pair meets the definition `node`. -/
def WalkNeeds (ctx : EmitCtx) (from_ : Mode × Nat) (node : Node) : Prop :=
  ∃ to_, WalkReaches ctx from_ to_ ∧ node ∈ walkNodes ctx to_

/-- The walks a definition starts with. -/
def nodeStarts (ctx : EmitCtx) : Node → List (Mode × Nat)
  | .record id =>
      match btfTypeById ctx.btf id with
      | none => []
      | some type => (keptTypes ctx.keeps id type).map (Prod.mk .hard)
  | .typedef id =>
      match btfTypeById ctx.btf id with
      | none => []
      | some type =>
          [(if typedefTargetNeedsHardDeps ctx type.type then .hard else .soft, type.type)]

def Needs (ctx : EmitCtx) (node dep : Node) : Prop :=
  ∃ start ∈ nodeStarts ctx node, WalkNeeds ctx start dep

/-- A typedef in progress may not be met again. -/
def Node.IsTypedef : Node → Prop
  | .typedef _ => True
  | .record _ => False

theorem walkNeeds_iff {ctx : EmitCtx} {from_ : Mode × Nat} {node : Node} :
    WalkNeeds ctx from_ node ↔
      (∃ to_ ∈ walkTargets ctx from_, WalkNeeds ctx to_ node) ∨ node ∈ walkNodes ctx from_ := by
  constructor
  · rintro ⟨to_, hreach, hnode⟩
    rcases hreach.cases_head with rfl | ⟨mid, hmid, hreach⟩
    · exact Or.inr hnode
    · exact Or.inl ⟨mid, hmid, to_, hreach, hnode⟩
  · rintro (⟨mid, hmid, to_, hreach, hnode⟩ | hnode)
    · exact ⟨to_, .head hmid hreach, hnode⟩
    · exact ⟨from_, .refl, hnode⟩

/-! ## One recursion for both walks -/

def walkDeps (ctx : EmitCtx) (fuel : Nat) (st : EmitState) (from_ : Mode × Nat) :
    Except Fault EmitState :=
  match from_.1 with
  | .hard => emitHardDeps ctx fuel from_.2 st
  | .soft => emitSoftDeps ctx fuel from_.2 st

/-- What a walk does at a pair after its targets. -/
def walkLeaf (ctx : EmitCtx) (fuel : Nat) (from_ : Mode × Nat) (type : BtfType) :
    EmitState → Except Fault EmitState :=
  if type.kind = .typedef then emitTypedefDefinition ctx fuel from_.2
  else if from_.1 = .hard ∧ isNamedRecord ctx.btf type = true then
    emitRecordDefinition ctx fuel from_.2
  else if from_.1 = .soft ∧ type.kind.isRecord = true ∨ type.kind = .fwd then
    emitForwardDecl ctx from_.2
  else .ok

theorem typeById_of_some {ctx : EmitCtx} {id : Nat} {type : BtfType}
    (h : btfTypeById ctx.btf id = some type) : typeById ctx id = .ok type := by
  unfold typeById
  rw [h]

theorem typeById_of_none {ctx : EmitCtx} {id : Nat} (h : btfTypeById ctx.btf id = none) :
    typeById ctx id = fail ("emitter saw invalid type id ".toList ++ decimal id) := by
  unfold typeById
  rw [h]

theorem typeById_eq_ok {ctx : EmitCtx} {id : Nat} {type : BtfType} :
    typeById ctx id = .ok type ↔ btfTypeById ctx.btf id = some type := by
  unfold typeById
  cases btfTypeById ctx.btf id with
  | none => simp [fail]
  | some found => simp

theorem makeDeclarator_eq_ok {text problem next : CString} (h : makeDeclarator text problem = .ok next) :
    next = text ∧ text.length < 512 := by
  unfold makeDeclarator at h
  split at h
  next => cases h
  next hlength =>
    cases h
    exact ⟨rfl, by omega⟩

theorem kind_of_isNamedRecord {btf : Btf} {type : BtfType} (h : isNamedRecord btf type = true) :
    type.kind = .struct ∨ type.kind = .union := by
  unfold isNamedRecord Kind.isRecord at h
  simp only [Bool.and_eq_true, Bool.or_eq_true, beq_iff_eq] at h
  exact h.1

theorem walkDeps_zero (ctx : EmitCtx) (st : EmitState) (from_ : Mode × Nat) :
    walkDeps ctx 0 st from_ = .error .outOfFuel := by
  obtain ⟨mode, id⟩ := from_
  cases mode with
  | hard => simp [walkDeps, emitHardDeps]
  | soft => simp [walkDeps, emitSoftDeps]

theorem walkDeps_none {ctx : EmitCtx} {fuel : Nat} {st : EmitState} {from_ : Mode × Nat}
    (h : btfTypeById ctx.btf from_.2 = none) :
    walkDeps ctx (fuel + 1) st from_ =
      fail ("emitter saw invalid type id ".toList ++ decimal from_.2) := by
  obtain ⟨mode, id⟩ := from_
  have hid : id ≠ 0 := by
    rintro rfl
    cases h
  cases mode with
  | hard =>
      change emitHardDeps ctx (fuel + 1) id st = _
      rw [emitHardDeps, typeById_of_none h]
      rfl
  | soft =>
      change emitSoftDeps ctx (fuel + 1) id st = _
      rw [emitSoftDeps, if_neg hid, typeById_of_none h]
      rfl

theorem walkDeps_succ {ctx : EmitCtx} {fuel : Nat} {st : EmitState} {from_ : Mode × Nat}
    {type : BtfType} (h : btfTypeById ctx.btf from_.2 = some type) :
    walkDeps ctx (fuel + 1) st from_ =
      ((walkTargets ctx from_).foldlM (walkDeps ctx fuel) st >>=
        walkLeaf ctx fuel from_ type) := by
  obtain ⟨mode, id⟩ := from_
  change btfTypeById ctx.btf id = some type at h
  cases mode with
  | hard =>
      change emitHardDeps ctx (fuel + 1) id st = _
      rw [emitHardDeps, typeById_of_some h, ok_bind]
      simp only [walkTargets, entersSoft, hardTargets, walkLeaf, h]
      cases hnamed : isNamedRecord ctx.btf type with
      | false =>
          cases hkind : type.kind <;> simp [walkDeps, List.foldlM_map]
      | true =>
          rcases kind_of_isNamedRecord hnamed with hkind | hkind <;> simp [hkind]
  | soft =>
      change emitSoftDeps ctx (fuel + 1) id st = _
      rw [emitSoftDeps]
      by_cases hid : id = 0
      · subst hid
        cases h
        rfl
      · rw [if_neg hid, typeById_of_some h, ok_bind]
        simp only [walkTargets, softTargets, walkLeaf, h]
        cases hkind : type.kind <;> simp [walkDeps, List.foldlM_map, Kind.isRecord]

/-! ## One recursion for both definitions -/

def Node.id : Node → Nat
  | .record id => id
  | .typedef id => id

/-- The types `emit_record_definition` and `emit_typedef_definition` work on. -/
def Node.Fits (ctx : EmitCtx) (type : BtfType) : Node → Bool
  | .record _ => isNamedRecord ctx.btf type
  | .typedef _ => isNamedTypedef ctx.btf type

def EmitState.mark (st : EmitState) : Node → Mark
  | .record id => st.recordState id
  | .typedef id => st.typedefState id

def EmitState.setMark (st : EmitState) (node : Node) (mark : Mark) : EmitState :=
  match node with
  | .record id => st.setRecord id mark
  | .typedef id => st.setTypedef id mark

def defineNode (ctx : EmitCtx) (fuel : Nat) (st : EmitState) : Node → Except Fault EmitState
  | .record id => emitRecordDefinition ctx fuel id st
  | .typedef id => emitTypedefDefinition ctx fuel id st

/-- The text of a definition, once what it depends on has been printed. -/
def nodeItem (ctx : EmitCtx) (fuel : Nat) (type : BtfType) : Node → Except Fault Item
  | .record id => do
      let body ← emitRecordBody ctx (emitDeclEx ctx fuel) id type
      let keyword := if type.kind = .struct then "struct".toList else "union".toList
      .ok (.recordDef id keyword (mchBtfTypeName ctx.btf type) body)
  | .typedef id => do
      let decl ← emitDecl ctx fuel type.type (mchBtfTypeName ctx.btf type)
      .ok (.typedefDef id (mchBtfTypeName ctx.btf type) decl)

/-- A definition not met before: its walks, then its own text. -/
def defineFresh (ctx : EmitCtx) (fuel : Nat) (type : BtfType) (st : EmitState) (node : Node) :
    Except Fault EmitState := do
  let st ← (nodeStarts ctx node).foldlM (walkDeps ctx fuel) (st.setMark node .active)
  let item ← nodeItem ctx fuel type node
  .ok ((st.print item).setMark node .done)

theorem defineNode_zero (ctx : EmitCtx) (st : EmitState) (node : Node) :
    defineNode ctx 0 st node = .error .outOfFuel := by
  cases node with
  | record id => simp [defineNode, emitRecordDefinition]
  | typedef id => simp [defineNode, emitTypedefDefinition]

theorem defineNode_none {ctx : EmitCtx} {fuel : Nat} {st : EmitState} {node : Node}
    (h : btfTypeById ctx.btf node.id = none) :
    defineNode ctx (fuel + 1) st node =
      fail ("emitter saw invalid type id ".toList ++ decimal node.id) := by
  cases node with
  | record id =>
      change btfTypeById ctx.btf id = none at h
      change emitRecordDefinition ctx (fuel + 1) id st = _
      rw [emitRecordDefinition, typeById_of_none h]
      rfl
  | typedef id =>
      change btfTypeById ctx.btf id = none at h
      change emitTypedefDefinition ctx (fuel + 1) id st = _
      rw [emitTypedefDefinition, typeById_of_none h]
      rfl

/-- `mch_error_set(err, "typedef dependency cycle at type id %u", id)`. -/
def cycleError (id : Nat) : Except Fault EmitState :=
  fail ("typedef dependency cycle at type id ".toList ++ decimal id)

/-- A type the call is not about is left alone. -/
theorem defineNode_of_not_fits {ctx : EmitCtx} (st : EmitState) {node : Node}
    {type : BtfType} (h : btfTypeById ctx.btf node.id = some type)
    (hfits : node.Fits ctx type = false) :
    (∀ fuel, defineNode ctx (fuel + 1) st node = .ok st) ∨
      st.mark node = .active ∧ ∀ fuel, defineNode ctx (fuel + 1) st node = cycleError node.id := by
  cases node with
  | record id =>
      change btfTypeById ctx.btf id = some type at h
      change isNamedRecord ctx.btf type = false at hfits
      left
      intro fuel
      change emitRecordDefinition ctx (fuel + 1) id st = _
      rw [emitRecordDefinition, typeById_of_some h, ok_bind, if_pos hfits]
  | typedef id =>
      change btfTypeById ctx.btf id = some type at h
      change (∀ fuel, emitTypedefDefinition ctx (fuel + 1) id st = _) ∨ st.typedefState id = .active ∧
        ∀ fuel, emitTypedefDefinition ctx (fuel + 1) id st = _
      simp only [emitTypedefDefinition, typeById_of_some h, ok_bind]
      have hname : type.kind = .typedef → mchBtfTypeName ctx.btf type = [] := by
        intro hkind
        simpa [Node.Fits, isNamedTypedef, hkind] using hfits
      by_cases hkind : type.kind = .typedef
      · cases hstate : st.typedefState id with
        | unseen => simp [hkind, hname hkind]
        | active => simp [hkind, cycleError, Node.id]
        | done => simp [hkind]
      · simp [hkind]

theorem defineNode_of_fits {ctx : EmitCtx} {fuel : Nat} {st : EmitState} {node : Node}
    {type : BtfType} (h : btfTypeById ctx.btf node.id = some type)
    (hfits : node.Fits ctx type = true) :
    defineNode ctx (fuel + 1) st node =
      match st.mark node with
      | .done => .ok st
      | .active =>
          match node with
          | .record _ => .ok st
          | .typedef id => cycleError id
      | .unseen => defineFresh ctx fuel type st node := by
  cases node with
  | record id =>
      change btfTypeById ctx.btf id = some type at h
      change isNamedRecord ctx.btf type = true at hfits
      change emitRecordDefinition ctx (fuel + 1) id st = _
      rw [emitRecordDefinition, typeById_of_some h, ok_bind, hfits]
      simp only [Bool.true_eq_false, if_false, EmitState.mark]
      cases hstate : st.recordState id with
      | unseen =>
          simp [defineFresh, nodeStarts, h, List.foldlM_map, EmitState.setMark, nodeItem,
            walkDeps]
      | active => rfl
      | done => rfl
  | typedef id =>
      change btfTypeById ctx.btf id = some type at h
      change isNamedTypedef ctx.btf type = true at hfits
      obtain ⟨hkind, hname⟩ : type.kind = .typedef ∧ mchBtfTypeName ctx.btf type ≠ [] := by
        simpa [isNamedTypedef] using hfits
      change emitTypedefDefinition ctx (fuel + 1) id st = _
      rw [emitTypedefDefinition, typeById_of_some h, ok_bind]
      simp only [hkind, ne_eq, not_true_eq_false, if_false, EmitState.mark]
      cases hstate : st.typedefState id with
      | unseen =>
          simp only [hname, if_false, defineFresh, nodeStarts, h, EmitState.setMark, nodeItem]
          split <;> simp [walkDeps, *]
      | active => rfl
      | done => rfl

end MinCorehdr
