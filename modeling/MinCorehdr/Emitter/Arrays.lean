import MinCorehdr.Emitter.Order

/-!
# Array elements

C wants the element type of an array to be complete wherever the array is
written.  The hard walk defines the element of the arrays it passes; the soft
walk goes through arrays as it goes through pointers, and leaves their elements
declared forward.
-/

namespace MinCorehdr

open Relation Support.DepthFirst Support.Result

/-- From an array to its elements, through nested arrays, typedefs, qualifiers and
tags. -/
def elementTargets (ctx : EmitCtx) (id : Nat) : List Nat :=
  match btfTypeById ctx.btf id with
  | none => []
  | some type =>
      match type.kind with
      | .array => [type.array.type]
      | .typedef | .volatile | .const | .restrict | .typeTag | .declTag => [type.type]
      | _ => []

/-- The definition writes an array whose element type is `elem`. -/
def HasElement (ctx : EmitCtx) (node : Node) (elem : Nat) : Prop :=
  ∃ start ∈ nodeTypes ctx node, ∃ id type, Expands ctx start id ∧
    btfTypeById ctx.btf id = some type ∧ type.kind = .array ∧
      ReflTransGen (fun from_ to_ => to_ ∈ elementTargets ctx from_) type.array.type elem

/-- The record `id` is a definition of the tag that the record or FWD `elem` names. -/
def DefinesTagOf (ctx : EmitCtx) (elem id : Nat) : Prop :=
  ∃ elemType type, btfTypeById ctx.btf elem = some elemType ∧
    isForwardable ctx.btf elemType = true ∧ btfTypeById ctx.btf id = some type ∧
    isNamedRecord ctx.btf type = true ∧ recordKeyword type = recordKeyword elemType ∧
    mchBtfTypeName ctx.btf type = mchBtfTypeName ctx.btf elemType

/-- At every array the header writes, an element type with a definition in the BTF
has been defined. -/
def ArraysComplete (ctx : EmitCtx) (items : List Item) : Prop :=
  ∀ before item after node, items = before ++ item :: after → item.node? = some node →
    ∀ elem, HasElement ctx node elem → (∃ id, DefinesTagOf ctx elem id) →
      ∃ id, DefinesTagOf ctx elem id ∧ .record id ∈ definedNodes before

/-- `node` needs `dep` and is not needed back, so `dep` is never in progress when
`node` asks for it. -/
def NeedsAhead (ctx : EmitCtx) (node dep : Node) : Prop :=
  Needs ctx node dep ∧ ¬ReflTransGen (Needs ctx) dep node

/-- The BTF defines the element, and nothing that the definition needs leads to a record that
does: only the soft walk, which declares it forward, comes to it. -/
def NeverAsked (ctx : EmitCtx) (node : Node) (elem : Nat) : Prop :=
  (∃ id, DefinesTagOf ctx elem id) ∧
    ∀ id, DefinesTagOf ctx elem id → ¬TransGen (Needs ctx) node (.record id)

/-- Every search for the required definitions meets one while it is in progress: no search
that stops there, as the emitter does at a typedef, comes to an end. -/
def MeetsInProgress (ctx : EmitCtx) (required : Set Nat) : Prop :=
  ∀ nodes final, (∀ node, node ∈ nodes ↔ node.id ∈ required ∧ isNode ctx node = true) →
    ¬Run (fun _ => True) (Needs ctx) Search.empty nodes final

/-- A chain of needs goes ahead at each step, or passes a definition that needs itself. -/
theorem needsAhead_or_cycle {ctx : EmitCtx} {node dep : Node} (h : TransGen (Needs ctx) node dep) :
    TransGen (NeedsAhead ctx) node dep ∨
      ∃ mid, ReflTransGen (Needs ctx) node mid ∧ TransGen (Needs ctx) mid mid := by
  induction h using TransGen.head_induction_on with
  | @single first hstep =>
      by_cases hback : ReflTransGen (Needs ctx) dep first
      · exact Or.inr ⟨first, .refl, .head' hstep hback⟩
      · exact Or.inl (.single ⟨hstep, hback⟩)
  | @head first mid hstep _ ih =>
      by_cases hback : ReflTransGen (Needs ctx) mid first
      · exact Or.inr ⟨first, .refl, .head' hstep hback⟩
      · rcases ih with hahead | ⟨last, hreach, hcycle⟩
        · exact Or.inl (.head ⟨hstep, hback⟩ hahead)
        · exact Or.inr ⟨last, .head hstep hreach, hcycle⟩

theorem Reached.meetsInProgress {ctx : EmitCtx} {required : Set Nat} {node : Node}
    (h : Reached ctx required node) (hcycle : TransGen (Needs ctx) node node) :
    MeetsInProgress ctx required := by
  obtain ⟨start, hid, hisNode, hreach⟩ := h
  intro nodes final hnodes hrun
  have hlogged : node ∈ final.log :=
    (hrun.mem_log_iff node).mpr ⟨start, (hnodes start).mpr ⟨hid, hisNode⟩, hreach⟩
  exact hrun.acyclic hlogged hcycle

/-- An element whose definition is asked for comes first, unless the search meets a definition
in progress. -/
theorem neverAsked_or_meetsInProgress {ctx : EmitCtx} {required : Set Nat} {node : Node} {elem : Nat}
    (hreached : Reached ctx required node) (hdefined : ∃ id, DefinesTagOf ctx elem id)
    (hnot : ¬∃ id, DefinesTagOf ctx elem id ∧ TransGen (NeedsAhead ctx) node (.record id)) :
    NeverAsked ctx node elem ∨ MeetsInProgress ctx required := by
  by_cases hcycle : ∃ mid, ReflTransGen (Needs ctx) node mid ∧ TransGen (Needs ctx) mid mid
  · obtain ⟨mid, hreach, hcycle⟩ := hcycle
    exact Or.inr ((hreached.trans hreach).meetsInProgress hcycle)
  · refine Or.inl ⟨hdefined, fun id hid hneeds => hnot ⟨id, hid, ?_⟩⟩
    exact (needsAhead_or_cycle hneeds).resolve_right hcycle

theorem Layout.mem_before_of_needsAhead {ctx : EmitCtx} {required : TypeSet}
    {fwds enums defs : List Item} (h : Layout ctx required fwds enums defs) {node dep : Node}
    (hneeds : TransGen (NeedsAhead ctx) node dep) {before after : List Node}
    (hsplit : definedNodes defs = before ++ node :: after) : dep ∈ before :=
  mem_before_of_transGen (fun _ _ _ hsplit _ hstep => h.mem_before hsplit hstep.1 hstep.2) hneeds hsplit

theorem Layout.arraysComplete {ctx : EmitCtx} {required : TypeSet} {fwds enums defs : List Item}
    (h : Layout ctx required fwds enums defs)
    (hneeds : ∀ node, Reached ctx required.ids node → ∀ elem, HasElement ctx node elem →
      (∃ id, DefinesTagOf ctx elem id) →
        ∃ id, DefinesTagOf ctx elem id ∧ TransGen (NeedsAhead ctx) node (.record id)) :
    ArraysComplete ctx (headerItems fwds enums defs) := by
  intro before item after node hsplit hnode elem helem hdefined
  obtain ⟨pre, post, hdefs, hbefore⟩ := h.split hsplit hnode
  have hlog : definedNodes defs = definedNodes pre ++ node :: definedNodes post := by
    rw [hdefs, definedNodes_split hnode]
  have hreached : Reached ctx required.ids node := by
    rw [← h.mem_definedNodes_iff, hlog]
    simp
  obtain ⟨id, hid, hahead⟩ := hneeds node hreached elem helem hdefined
  have hmem := h.mem_before_of_needsAhead hahead hlog
  refine ⟨id, hid, ?_⟩
  rw [hbefore, definedNodes_append]
  exact List.mem_append_right _ hmem

/-- Where the elements are complete, each is defined in the header, by a record that
does not need the array. -/
theorem Layout.reached_of_arraysComplete {ctx : EmitCtx} {required : TypeSet}
    {fwds enums defs : List Item} (h : Layout ctx required fwds enums defs)
    (hcomplete : ArraysComplete ctx (headerItems fwds enums defs)) {node : Node}
    (hreached : Reached ctx required.ids node) {elem : Nat} (helem : HasElement ctx node elem)
    (hdefined : ∃ id, DefinesTagOf ctx elem id) :
    ∃ id, DefinesTagOf ctx elem id ∧ Reached ctx required.ids (.record id) ∧
      ¬TransGen (NeedsAhead ctx) (.record id) node := by
  obtain ⟨pre, item, post, hdefs, hnode⟩ :=
    exists_item_of_mem_definedNodes ((h.mem_definedNodes_iff node).mpr hreached)
  obtain ⟨id, hid, hmem⟩ := hcomplete (headerFront fwds enums ++ pre) item (post ++ headerClosing)
    node (by rw [hdefs]; simp [headerItems, headerFront]) hnode elem helem hdefined
  rw [definedNodes_append, definedNodes_eq_nil h.node?_front, List.nil_append] at hmem
  have hlog : definedNodes defs = definedNodes pre ++ node :: definedNodes post := by
    rw [hdefs, definedNodes_split hnode]
  refine ⟨id, hid, ?_, ?_⟩
  · rw [← h.mem_definedNodes_iff, hlog]
    exact List.mem_append_left _ hmem
  · intro hahead
    obtain ⟨front, back, hfront⟩ := List.append_of_mem hmem
    have hrecord : definedNodes defs =
        front ++ .record id :: (back ++ node :: definedNodes post) := by
      rw [hlog, hfront]
      simp
    have hmem' := h.mem_before_of_needsAhead hahead hrecord
    have hnodup := h.nodup
    rw [hlog, hfront] at hnodup
    have hdisjoint := (List.nodup_append.mp hnodup).2.2
    exact hdisjoint node (List.mem_append_left _ hmem') node List.mem_cons_self rfl

/-- Every definition in reach needs the records of its arrays, along a chain on which nothing
is needed back. -/
def ElementsAhead (ctx : EmitCtx) (required : Set Nat) : Prop :=
  ∀ node, Reached ctx required node → ∀ elem, HasElement ctx node elem →
    (∃ id, DefinesTagOf ctx elem id) →
      ∃ id, DefinesTagOf ctx elem id ∧ TransGen (NeedsAhead ctx) node (.record id)

/-- The elements are complete when every definition in reach needs the records of
its arrays, and only when each of them is defined by a record in reach that does
not need the array.  Where the first is not so, a walk misses an element or a definition is
met in progress. -/
theorem arraysComplete_of_closed {base : Btf} {seeds : TypeSet} {options : ClosureOptions}
    {fuel : Nat} {items : List Item} {added : Nat} (hcount : seeds.count = btfTypeCnt base)
    (h : closeAndEmit fuel base seeds options = .ok (items, added)) :
    (ElementsAhead (emitCtx base options.requirements) (closureSet base options seeds) →
      ArraysComplete (emitCtx base options.requirements) items) ∧
    (ArraysComplete (emitCtx base options.requirements) items →
      ∀ node, Reached (emitCtx base options.requirements) (closureSet base options seeds) node →
        ∀ elem, HasElement (emitCtx base options.requirements) node elem →
          (∃ id, DefinesTagOf (emitCtx base options.requirements) elem id) →
            ∃ id, DefinesTagOf (emitCtx base options.requirements) elem id ∧
              Reached (emitCtx base options.requirements) (closureSet base options seeds)
                (.record id) ∧
              ¬TransGen (NeedsAhead (emitCtx base options.requirements)) (.record id) node) ∧
    (¬ElementsAhead (emitCtx base options.requirements) (closureSet base options seeds) →
      (∃ node elem,
        Reached (emitCtx base options.requirements) (closureSet base options seeds) node ∧
          HasElement (emitCtx base options.requirements) node elem ∧
            NeverAsked (emitCtx base options.requirements) node elem) ∨
        MeetsInProgress (emitCtx base options.requirements) (closureSet base options seeds)) := by
  obtain ⟨required, fwds, enums, defs, rfl, hids, hlayout⟩ := closeAndEmit_layout hcount h
  rw [← hids]
  refine ⟨hlayout.arraysComplete, ?_, ?_⟩
  · intro hcomplete node hreached elem helem hdefined
    exact hlayout.reached_of_arraysComplete hcomplete hreached helem hdefined
  · intro hnot
    simp only [ElementsAhead, not_forall] at hnot
    obtain ⟨node, hreached, elem, helem, hdefined, hnone⟩ := hnot
    rcases neverAsked_or_meetsInProgress hreached hdefined hnone with hnever | hmeets
    · exact Or.inl ⟨node, elem, hreached, helem, hnever⟩
    · exact Or.inr hmeets

theorem HasElement.follow {ctx : EmitCtx} {node : Node} {elem : Nat} (h : HasElement ctx node elem)
    (ids : List Nat) (hfirst : ∀ start ∈ nodeTypes ctx node, start ∈ ids)
    (hclosed : ∀ mid ∈ ids, ∀ to_ ∈ declTargets ctx mid, to_ ∈ ids) {elems : List Nat}
    (harrays : ∀ id ∈ ids, ∀ to_ ∈ elementTargets ctx id, to_ ∈ elems)
    (helems : ∀ id ∈ elems, ∀ to_ ∈ elementTargets ctx id, to_ ∈ elems) : elem ∈ elems := by
  obtain ⟨start, hstart, id, type, hexpands, htype, hkind, hreach⟩ := h
  have hid := mem_of_follow hclosed (hfirst start hstart) hexpands
  refine mem_of_follow helems (harrays id hid _ ?_) hreach
  simp [elementTargets, htype, hkind]

/-- `struct R { struct S s[3]; }` and `struct S { int x; }`. -/
def arrayOfRecords : Btf where
  types := [
    { nameOff := 1, kind := .struct, size := 12, members := [{ nameOff := 3, type := 2 }] },
    { kind := .array, array := { type := 3, indexType := 4, nelems := 3 } },
    { nameOff := 5, kind := .struct, size := 4, members := [{ nameOff := 7, type := 4 }] },
    { nameOff := 9, kind := .int, size := 4, intInfo := 0x01000020 }]
  strs := "\x00R\x00s\x00S\x00x\x00int\x00".toList

theorem arrayOfRecords_elementsAhead (required : Set Nat) :
    ElementsAhead (emitCtx arrayOfRecords none) required := by
  intro node hreached elem helem _
  have hnode : node ∈ [Node.record 1, .record 3] := mem_of_isNode (by decide) hreached.isNode
  simp only [List.mem_cons, List.not_mem_nil, or_false] at hnode
  rcases hnode with rfl | rfl
  · have hmem : elem ∈ [3] := helem.follow [2, 3] (by decide) (by decide) (by decide) (by decide)
    rw [List.mem_singleton.mp hmem]
    refine ⟨3, ⟨_, _, rfl, by decide, rfl, by decide, rfl, rfl⟩, .single ⟨?_, ?_⟩⟩
    · exact ⟨(.hard, 2), by decide, (.hard, 3), .single (by decide), by decide⟩
    · intro hback
      rcases hback.cases_head with heq | ⟨mid, hneeds, _⟩
      · cases heq
      · have hnone : mid ∈ ([] : List Node) :=
          hneeds.follow [(.hard, 4)] (by decide) (by decide) (by decide)
        cases hnone
  · have hnone : elem ∈ ([] : List Nat) :=
      helem.follow [4] (by decide) (by decide) (by decide) (by decide)
    cases hnone

theorem arraysComplete_arrayOfRecords :
    ∃ items added, closeAndEmit 10 arrayOfRecords (seedsOf arrayOfRecords [1]) {} =
        .ok (items, added) ∧
      ArraysComplete (emitCtx arrayOfRecords none) items := by
  have hemits : ∃ result, closeAndEmit 10 arrayOfRecords (seedsOf arrayOfRecords [1]) {} = .ok result :=
    exists_ok_of_isSome (by decide +kernel)
  obtain ⟨⟨items, added⟩, hemits⟩ := hemits
  exact ⟨items, added, hemits,
    (arraysComplete_of_closed (by decide) hemits).1 (arrayOfRecords_elementsAhead _)⟩

/-- `struct R { struct S (*p)[3]; }` and `struct S { int x; }`. -/
def arrayBehindPointer : Btf where
  types := [
    { nameOff := 1, kind := .struct, size := 8, members := [{ nameOff := 3, type := 2 }] },
    { kind := .ptr, type := 3 },
    { kind := .array, array := { type := 4, indexType := 5, nelems := 3 } },
    { nameOff := 5, kind := .struct, size := 4, members := [{ nameOff := 7, type := 5 }] },
    { nameOff := 9, kind := .int, size := 4, intInfo := 0x01000020 }]
  strs := "\x00R\x00p\x00S\x00x\x00int\x00".toList

def arrayBehindPointerItems : List Item :=
  headerItems [.forwardDecl 1 "struct".toList ['R'], .forwardDecl 4 "struct".toList ['S']] [] [
    .recordDef 1 "struct".toList ['R'] [.text " \x7b\n".toList, .member 1 0,
      .tagName 4 "struct".toList ['S'], .text " (*p)[3]".toList, .text ";\n".toList,
      .text "\x7d".toList],
    .recordDef 4 "struct".toList ['S'] [.text " \x7b\n".toList, .member 4 0,
      .text "int x".toList, .text ";\n".toList, .text "\x7d".toList]]

theorem arrayBehindPointer_emits :
    closeAndEmit 10 arrayBehindPointer (seedsOf arrayBehindPointer [1, 4]) {} =
      .ok (arrayBehindPointerItems, 2) := by
  decide +kernel

/-- The array is met behind the pointer, where the walk only declares `struct S`
forward, so its elements are incomplete. -/
theorem arrayBehindPointer_incomplete :
    closeAndEmit 10 arrayBehindPointer (seedsOf arrayBehindPointer [1, 4]) {} =
        .ok (arrayBehindPointerItems, 2) ∧
      ¬ArraysComplete (emitCtx arrayBehindPointer none) arrayBehindPointerItems := by
  constructor
  · exact arrayBehindPointer_emits
  · intro hcomplete
    have helem : HasElement (emitCtx arrayBehindPointer none) (.record 1) 4 :=
      ⟨2, by decide, 3, _, .single (by decide), rfl, rfl, .refl⟩
    have hdefines : DefinesTagOf (emitCtx arrayBehindPointer none) 4 4 :=
      ⟨_, _, rfl, by decide, rfl, by decide, rfl, rfl⟩
    obtain ⟨id, _, hmem⟩ := hcomplete (headerFront [.forwardDecl 1 "struct".toList ['R'],
      .forwardDecl 4 "struct".toList ['S']] []) _ _ (.record 1) rfl rfl 4 helem ⟨4, hdefines⟩
    have hfront : definedNodes (headerFront [.forwardDecl 1 "struct".toList ['R'],
      .forwardDecl 4 "struct".toList ['S']] []) = [] := rfl
    rw [hfront] at hmem
    cases hmem

end MinCorehdr
