import MinCorehdr.Emitter.Declarator
import MinCorehdr.Requirements
import MinCorehdr.Support.DepthFirst

/-!
# Definitions in dependency order

Two walks over the types a definition depends on.  The hard walk defines the
records a definition contains by value before it; the soft walk only forward
declares records, and both print the typedefs they meet.  Records and typedefs
carry a three-state mark; a record in progress is passed over, a typedef in
progress is an error.

The walks recur without a bound, so the first argument of each is the number of
nested calls it may make.
-/

namespace MinCorehdr

open Support.DepthFirst Support.Result

/-- The output and the visit states of `struct emit_ctx`; the values 0, 1 and 2
of the state arrays are the three marks. -/
structure EmitState where
  out : List Item
  recordState : Nat → Mark
  typedefState : Nat → Mark
  fwdState : Nat → Bool

def EmitState.print (st : EmitState) (item : Item) : EmitState :=
  { st with out := st.out ++ [item] }

def EmitState.setRecord (st : EmitState) (id : Nat) (state : Mark) : EmitState :=
  { st with recordState := Function.update st.recordState id state }

def EmitState.setTypedef (st : EmitState) (id : Nat) (state : Mark) : EmitState :=
  { st with typedefState := Function.update st.typedefState id state }

def EmitState.setFwd (st : EmitState) (id : Nat) : EmitState :=
  { st with fwdState := Function.update st.fwdState id true }

def typedefTargetNeedsHardDepsFrom (ctx : EmitCtx) : Nat → Nat → Bool
  | 0, _ => true
  | depth + 1, id =>
      match btfTypeById ctx.btf id with
      | none => false
      | some type =>
          match type.kind with
          | .const | .volatile | .restrict | .typeTag | .declTag =>
              typedefTargetNeedsHardDepsFrom ctx depth type.type
          | .array => true
          | .struct | .union => decide (mchBtfTypeName ctx.btf type = [])
          | _ => false

def typedefTargetNeedsHardDeps (ctx : EmitCtx) (id : Nat) : Bool :=
  typedefTargetNeedsHardDepsFrom ctx 32 id

def emitForwardDecl (ctx : EmitCtx) (id : Nat) (st : EmitState) : Except Fault EmitState := do
  let type ← typeById ctx id
  if type.kind.isRecord = false ∧ type.kind ≠ .fwd then .ok st
  else
    let name := mchBtfTypeName ctx.btf type
    if name = [] ∨ st.fwdState id = true then .ok st
    else .ok ((st.print (.forwardDecl id (recordKeyword type) name)).setFwd id)

mutual

def emitSoftDeps (ctx : EmitCtx) : Nat → Nat → EmitState → Except Fault EmitState
  | 0, _, _ => .error .outOfFuel
  | fuel + 1, id, st =>
      if id = 0 then .ok st
      else do
        let type ← typeById ctx id
        match type.kind with
        | .typedef => emitTypedefDefinition ctx fuel id st
        | .volatile | .const | .restrict | .typeTag | .declTag | .ptr =>
            emitSoftDeps ctx fuel type.type st
        | .array => emitSoftDeps ctx fuel type.array.type st
        | .funcProto => do
            let st ← emitSoftDeps ctx fuel type.type st
            type.params.foldlM (fun st param => emitSoftDeps ctx fuel param.type st) st
        | .struct | .union | .fwd => emitForwardDecl ctx id st
        | _ => .ok st

def emitRecordDefinition (ctx : EmitCtx) : Nat → Nat → EmitState → Except Fault EmitState
  | 0, _, _ => .error .outOfFuel
  | fuel + 1, id, st => do
      let type ← typeById ctx id
      if isNamedRecord ctx.btf type = false then .ok st
      else
        match st.recordState id with
        | .done => .ok st
        | .active => .ok st
        | .unseen => do
            let st ← (keptTypes ctx.keeps id type).foldlM
              (fun st dep => emitHardDeps ctx fuel dep st) (st.setRecord id .active)
            let body ← emitRecordBody ctx (emitDeclEx ctx fuel) id type
            let keyword := if type.kind = .struct then "struct".toList else "union".toList
            .ok ((st.print (.recordDef id keyword (mchBtfTypeName ctx.btf type) body)).setRecord
              id .done)

def emitHardDeps (ctx : EmitCtx) : Nat → Nat → EmitState → Except Fault EmitState
  | 0, _, _ => .error .outOfFuel
  | fuel + 1, id, st => do
      let type ← typeById ctx id
      match type.kind with
      | .ptr | .funcProto => emitSoftDeps ctx fuel id st
      | .fwd => emitForwardDecl ctx id st
      | .array => emitHardDeps ctx fuel type.array.type st
      | .typedef => do
          let st ← emitHardDeps ctx fuel type.type st
          emitTypedefDefinition ctx fuel id st
      | .volatile | .const | .restrict | .typeTag | .declTag => emitHardDeps ctx fuel type.type st
      | .struct | .union =>
          if isNamedRecord ctx.btf type then emitRecordDefinition ctx fuel id st
          else (keptTypes ctx.keeps id type).foldlM (fun st dep => emitHardDeps ctx fuel dep st) st
      | _ => .ok st

def emitTypedefDefinition (ctx : EmitCtx) : Nat → Nat → EmitState → Except Fault EmitState
  | 0, _, _ => .error .outOfFuel
  | fuel + 1, id, st => do
      let type ← typeById ctx id
      if type.kind ≠ .typedef then .ok st
      else
        match st.typedefState id with
        | .done => .ok st
        | .active => fail ("typedef dependency cycle at type id ".toList ++ decimal id)
        | .unseen =>
            let name := mchBtfTypeName ctx.btf type
            if name = [] then .ok st
            else do
              let st := st.setTypedef id .active
              let st ←
                if typedefTargetNeedsHardDeps ctx type.type then emitHardDeps ctx fuel type.type st
                else emitSoftDeps ctx fuel type.type st
              let decl ← emitDecl ctx fuel type.type name
              .ok ((st.print (.typedefDef id name decl)).setTypedef id .done)

end

end MinCorehdr
