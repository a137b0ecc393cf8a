import MinCorehdr.Emitter.Names

/-!
# The C type a BTF type stands for

The reading of BTF itself, with nothing of the printer in it but the texts of
leaves: pointers, arrays and prototypes are C's own, a qualifier goes to what it
points at, type tags say nothing, and type 0 among the parameters is an ellipsis
or an empty list.
-/

namespace MinCorehdr

open Support.CDeclaration Support.CToken Support.Result

/-! ## A declaration does not depend on its budget -/

section

variable {ctx : EmitCtx} {decl decl' : Nat → CString → Except Fault (List Piece)}

/-- What the first prints, the second prints too. -/
def PrintsNoLess (decl decl' : Nat → CString → Except Fault (List Piece)) : Prop :=
  ∀ id declarator pieces, decl id declarator = .ok pieces → decl' id declarator = .ok pieces

theorem PrintsNoLess.emitRecordBody (h : PrintsNoLess decl decl') {id : Nat} {record : BtfType}
    {pieces : List Piece} (hbody : emitRecordBody ctx decl id record = .ok pieces) :
    emitRecordBody ctx decl' id record = .ok pieces := by
  refine bind_ok_of_ok (fun members => ?_) (fun _ _ hp => hp) hbody
  refine collect_ok_of_ok fun member _ xs hmember => ?_
  unfold emitMember at hmember ⊢
  simp only at hmember ⊢
  split at hmember
  next hkeeps => rw [if_pos hkeeps]; exact hmember
  next hkeeps =>
    rw [if_neg hkeeps]
    exact bind_ok_of_ok (h _ _) (fun _ _ hp => hp) hmember

theorem PrintsNoLess.emitParams (h : PrintsNoLess decl decl') {proto : BtfType}
    {pieces : List Piece} (hparams : emitParams ctx decl proto = .ok pieces) :
    emitParams ctx decl' proto = .ok pieces := by
  unfold MinCorehdr.emitParams at hparams ⊢
  split at hparams
  next hnil => rw [if_pos hnil]; exact hparams
  next hnil =>
    rw [if_neg hnil]
    refine collect_ok_of_ok (fun param _ xs hparam => ?_) hparams
    unfold emitParam at hparam ⊢
    simp only at hparam ⊢
    split at hparam
    next hzero => rw [if_pos hzero]; exact hparam
    next hzero =>
      rw [if_neg hzero]
      exact bind_ok_of_ok (h _ _) (fun _ _ hp => hp) hparam

theorem peelQualifiers_succ {fuel : Nat} :
    ∀ {id : Nat} {mask : BitVec 32} {found : Nat × BtfType × BitVec 32},
      peelQualifiers ctx fuel id mask = .ok found → peelQualifiers ctx (fuel + 1) id mask = .ok found := by
  induction fuel with
  | zero =>
      intro id mask found h
      cases h
  | succ fuel ih =>
      intro id mask found h
      rw [peelQualifiers] at h ⊢
      refine bind_ok_of_ok (fun _ hp => hp) (fun type peeled hp => ?_) h
      simp only at hp ⊢
      split at hp
      next hbit => rw [if_pos hbit]; exact hp
      next hbit =>
        rw [if_neg hbit]
        exact ih hp

theorem PrintsNoLess.emitQualifiedDecl (h : PrintsNoLess decl decl') {fuel id : Nat}
    {declarator : CString} {pieces : List Piece}
    (hdecl : emitQualifiedDecl ctx decl fuel id declarator = .ok pieces) :
    emitQualifiedDecl ctx decl' (fuel + 1) id declarator = .ok pieces := by
  refine bind_ok_of_ok (fun _ hpeel => peelQualifiers_succ hpeel) (fun found _ hp => ?_) hdecl
  obtain ⟨current, type, mask⟩ := found
  simp only at hp ⊢
  split at hp
  next => cases hp
  next qualifiers _ =>
    split at hp
    next hptr =>
      rw [if_pos hptr]
      exact bind_ok_of_ok (fun _ hnext => hnext) (fun _ _ hp => h _ _ _ hp) hp
    next hptr =>
      rw [if_neg hptr]
      exact bind_ok_of_ok (h _ _) (fun _ _ hp => hp) hp

theorem PrintsNoLess.emitFuncDecl (h : PrintsNoLess decl decl') {id : Nat} {declarator : CString}
    {pieces : List Piece} (hdecl : emitFuncDecl ctx decl id declarator = .ok pieces) :
    emitFuncDecl ctx decl' id declarator = .ok pieces := by
  refine bind_ok_of_ok (fun _ hp => hp) (fun proto _ hp => ?_) hdecl
  refine bind_ok_of_ok (h _ _) (fun result _ hp => ?_) hp
  exact bind_ok_of_ok (fun _ hparams => h.emitParams hparams) (fun _ _ hp => hp) hp

/-- One more nested call changes nothing that was printed. -/
theorem emitDeclEx_succ (ctx : EmitCtx) (fuel : Nat) :
    PrintsNoLess (emitDeclEx ctx fuel) (emitDeclEx ctx (fuel + 1)) := by
  induction fuel with
  | zero =>
      intro id declarator pieces h
      cases h
  | succ fuel ih =>
      intro id declarator pieces h
      rw [emitDeclEx] at h ⊢
      by_cases hzero : id = 0
      · rw [if_pos hzero] at h ⊢
        exact h
      rw [if_neg hzero] at h ⊢
      refine bind_ok_of_ok (fun _ hp => hp) (fun type _ hp => ?_) h
      cases hkind : type.kind <;> simp only [hkind] at hp ⊢
      case ptr | array =>
        exact bind_ok_of_ok (fun _ hnext => hnext) (fun _ _ hp => ih _ _ _ hp) hp
      case const | volatile | restrict =>
        exact ih.emitQualifiedDecl hp
      case typeTag | declTag =>
        exact ih _ _ _ hp
      case funcProto =>
        exact ih.emitFuncDecl hp
      case typedef =>
        split at hp
        next hname => rw [if_pos hname]; exact ih _ _ _ hp
        next hname => rw [if_neg hname]; exact hp
      case struct | union =>
        split at hp
        next hname =>
          rw [if_pos hname]
          exact bind_ok_of_ok (fun _ hbody => ih.emitRecordBody hbody) (fun _ _ hp => hp) hp
        next hname => rw [if_neg hname]; exact hp
      all_goals exact hp

theorem emitDeclEx_add (ctx : EmitCtx) (fuel more : Nat) :
    PrintsNoLess (emitDeclEx ctx fuel) (emitDeclEx ctx (fuel + more)) := by
  induction more with
  | zero => exact fun _ _ _ h => h
  | succ more ih => exact fun id declarator pieces h => emitDeclEx_succ ctx _ _ _ _ (ih _ _ _ h)

theorem leafText_add {fuel more id : Nat} {type : BtfType} {text : CString}
    (h : leafText ctx (emitDeclEx ctx fuel) id type = some text) :
    leafText ctx (emitDeclEx ctx (fuel + more)) id type = some text := by
  unfold leafText at h ⊢
  cases hkind : type.kind <;> simp only [hkind] at h ⊢
  case struct | union =>
    split at h
    next hname =>
      rw [if_pos hname]
      obtain ⟨body, hbody, rfl⟩ := Option.map_eq_some_iff.mp h
      have hbody' := (emitDeclEx_add ctx fuel more).emitRecordBody (toOption_eq_some.mp hbody)
      rw [hbody']
      rfl
    next hname => rw [if_neg hname]; exact h
  all_goals exact h

/-- The text of a leaf is the same on every budget that gives it one. -/
theorem leafText_unique {fuel fuel' id : Nat} {type : BtfType} {text text' : CString}
    (h : leafText ctx (emitDeclEx ctx fuel) id type = some text)
    (h' : leafText ctx (emitDeclEx ctx fuel') id type = some text') : text = text' := by
  have hleft := @leafText_add ctx fuel fuel' id type text h
  have hright := @leafText_add ctx fuel' fuel id type text' h'
  rw [Nat.add_comm fuel' fuel, hleft, Option.some.injEq] at hright
  exact hright

/-! ## Nor does a tree -/

theorem qualifierRun_succ {fuel : Nat} : ∀ {id : Nat} {found : List Qualifier × Nat × BtfType},
    qualifierRun ctx fuel id = some found → qualifierRun ctx (fuel + 1) id = some found := by
  induction fuel with
  | zero =>
      intro id found h
      cases h
  | succ fuel ih =>
      intro id found h
      rw [qualifierRun] at h ⊢
      obtain ⟨type, htype, h⟩ := Option.bind_eq_some_iff.mp h
      rw [htype, Option.bind_some]
      cases hkind : qualifierOfKind type.kind with
      | none => simpa only [hkind] using h
      | some q =>
          simp only [hkind] at h ⊢
          obtain ⟨rest, hrest, rfl⟩ := Option.map_eq_some_iff.mp h
          rw [ih hrest]
          rfl

/-- What the first has a tree for, the second has the same tree for. -/
def GrowsNoLess (tree tree' : Nat → Option Tree) : Prop :=
  ∀ id t, tree id = some t → tree' id = some t

theorem GrowsNoLess.paramTrees {tree tree' : Nat → Option Tree} (h : GrowsNoLess tree tree')
    {params : List (BtfParam × Nat)} : ∀ {ps : TreeParams},
      paramTrees ctx tree params = some ps → paramTrees ctx tree' params = some ps := by
  induction params with
  | nil => exact fun hps => hps
  | cons param params ih =>
      intro ps hps
      obtain ⟨rest, hrest, hps⟩ := Option.bind_eq_some_iff.mp hps
      rw [MinCorehdr.paramTrees, ih hrest, Option.bind_some]
      split at hps
      next hzero => rw [if_pos hzero]; exact hps
      next hzero =>
        rw [if_neg hzero]
        obtain ⟨t, ht, rfl⟩ := Option.map_eq_some_iff.mp hps
        rw [h _ _ ht]
        rfl

theorem GrowsNoLess.treeNode {fuel id : Nat} {type : BtfType} {t : Tree}
    (h : GrowsNoLess (treeOf ctx fuel) (treeOf ctx (fuel + 1)))
    (ht : treeNode ctx (treeOf ctx fuel) (emitDeclEx ctx fuel) id type = some t) :
    treeNode ctx (treeOf ctx (fuel + 1)) (emitDeclEx ctx (fuel + 1)) id type = some t := by
  have hleaf : (leafText ctx (emitDeclEx ctx fuel) id type).map (Tree.leaf []) = some t →
      (leafText ctx (emitDeclEx ctx (fuel + 1)) id type).map (Tree.leaf []) = some t := by
    intro hmap
    obtain ⟨text, htext, rfl⟩ := Option.map_eq_some_iff.mp hmap
    rw [leafText_add htext]
    rfl
  have hbelow : ∀ {to_ : Nat} {f : Tree → Tree}, (treeOf ctx fuel to_).map f = some t →
      (treeOf ctx (fuel + 1) to_).map f = some t := by
    intro to_ f hmap
    obtain ⟨below, hbelow, rfl⟩ := Option.map_eq_some_iff.mp hmap
    rw [h _ _ hbelow]
    rfl
  unfold MinCorehdr.treeNode at ht ⊢
  cases hkind : type.kind <;> simp only [hkind] at ht ⊢
  case ptr | array | typeTag | declTag => exact hbelow ht
  case typedef =>
    split at ht
    next hname => rw [if_pos hname]; exact hbelow ht
    next hname => rw [if_neg hname]; exact hleaf ht
  case funcProto =>
    obtain ⟨result, hresult, ht⟩ := Option.bind_eq_some_iff.mp ht
    obtain ⟨ps, hps, rfl⟩ := Option.map_eq_some_iff.mp ht
    rw [h _ _ hresult, Option.bind_some, h.paramTrees hps]
    rfl
  all_goals exact hleaf ht

theorem treeOf_succ (ctx : EmitCtx) (fuel : Nat) :
    GrowsNoLess (treeOf ctx fuel) (treeOf ctx (fuel + 1)) := by
  induction fuel with
  | zero =>
      intro id t h
      cases h
  | succ fuel ih =>
      intro id t h
      rw [treeOf] at h ⊢
      by_cases hzero : id = 0
      · rw [if_pos hzero] at h ⊢
        exact h
      rw [if_neg hzero] at h ⊢
      obtain ⟨type, htype, h⟩ := Option.bind_eq_some_iff.mp h
      rw [htype, Option.bind_some]
      cases hkind : qualifierOfKind type.kind with
      | none =>
          simp only [hkind] at h ⊢
          exact ih.treeNode h
      | some q =>
          simp only [hkind] at h ⊢
          obtain ⟨⟨run, current, target⟩, hrun, h⟩ := Option.bind_eq_some_iff.mp h
          rw [qualifierRun_succ hrun, Option.bind_some]
          split at h
          next hptr =>
            obtain ⟨below, hbelow, rfl⟩ := Option.map_eq_some_iff.mp h
            simp only [if_pos hptr, ih _ _ hbelow, Option.map_some]
          next hptr =>
            obtain ⟨below, hbelow, rfl⟩ := Option.map_eq_some_iff.mp h
            simp only [if_neg hptr, ih _ _ hbelow, Option.map_some]

theorem treeOf_add (ctx : EmitCtx) (fuel more : Nat) :
    GrowsNoLess (treeOf ctx fuel) (treeOf ctx (fuel + more)) := by
  induction more with
  | zero => exact fun _ _ h => h
  | succ more ih => exact fun id t h => treeOf_succ ctx _ _ _ (ih _ _ h)

/-- A type has one tree on every budget that gives it one. -/
theorem treeOf_unique {fuel fuel' id : Nat} {t t' : Tree} (h : treeOf ctx fuel id = some t)
    (h' : treeOf ctx fuel' id = some t') : t = t' := by
  have hleft := treeOf_add ctx fuel fuel' _ _ h
  have hright := treeOf_add ctx fuel' fuel _ _ h'
  rw [Nat.add_comm fuel' fuel, hleft, Option.some.injEq] at hright
  exact hright

end

/-! ## The reading of BTF -/

/-- What a BTF type adds to the type it refers to. -/
inductive Role
  | leaf | ptr | array | func | transparent
  | qualifier (q : Qualifier)
  deriving DecidableEq, Repr

def roleOf (btf : Btf) (type : BtfType) : Role :=
  match type.kind with
  | .ptr => .ptr
  | .array => .array
  | .funcProto => .func
  | .const => .qualifier .const
  | .volatile => .qualifier .volatile
  | .restrict => .qualifier .restrict
  | .typeTag | .declTag => .transparent
  | .typedef => if mchBtfTypeName btf type = [] then .transparent else .leaf
  | _ => .leaf

mutual

/-- `Means ctx id type`: the BTF type `id` is the C type `type`. -/
inductive Means (ctx : EmitCtx) : Nat → CType → Prop
  | void : Means ctx 0 (.base [] [.word "void".toList])
  | leaf {id fuel : Nat} {type : BtfType} {text : CString} :
      id ≠ 0 → btfTypeById ctx.btf id = some type → roleOf ctx.btf type = .leaf →
        leafText ctx (emitDeclEx ctx fuel) id type = some text → Means ctx id (.base [] (lex text))
  | ptr {id : Nat} {type : BtfType} {t : CType} :
      btfTypeById ctx.btf id = some type → roleOf ctx.btf type = .ptr → Means ctx type.type t →
        Means ctx id (.ptr [] t)
  | array {id : Nat} {type : BtfType} {t : CType} :
      btfTypeById ctx.btf id = some type → roleOf ctx.btf type = .array →
        Means ctx type.array.type t → Means ctx id (.array t type.array.nelems)
  | qualifier {id : Nat} {type : BtfType} {q : Qualifier} {t : CType} :
      btfTypeById ctx.btf id = some type → roleOf ctx.btf type = .qualifier q →
        Means ctx type.type t → Means ctx id (t.qualify [q])
  | transparent {id : Nat} {type : BtfType} {t : CType} :
      btfTypeById ctx.btf id = some type → roleOf ctx.btf type = .transparent →
        Means ctx type.type t → Means ctx id t
  | func {id : Nat} {type : BtfType} {t : CType} {ps : CParams} {variadic : Bool} :
      btfTypeById ctx.btf id = some type → roleOf ctx.btf type = .func → Means ctx type.type t →
        MeansParams ctx true type.params.zipIdx ps variadic → Means ctx id (.func t ps variadic)

/-- The parameters of a prototype, from the first one or from behind others.  Type 0
alone is the empty list, and without a name behind others it is the ellipsis. -/
inductive MeansParams (ctx : EmitCtx) : Bool → List (BtfParam × Nat) → CParams → Bool → Prop
  | nil {first : Bool} : MeansParams ctx first [] .nil false
  | void {param : BtfParam} {i : Nat} :
      param.type = 0 → MeansParams ctx true [(param, i)] .nil false
  | variadic {param : BtfParam} {i : Nat} :
      param.type = 0 → (btfNameByOffset ctx.btf param.nameOff).getD [] = [] →
        MeansParams ctx false [(param, i)] .nil true
  | fixed {first variadic : Bool} {param : BtfParam} {i : Nat} {t : CType} {ps : CParams}
      {params : List (BtfParam × Nat)} :
      param.type ≠ 0 → Means ctx param.type t → MeansParams ctx false params ps variadic →
        MeansParams ctx first ((param, i) :: params) (.cons (paramName ctx param i) t ps) variadic

end

section

variable {ctx : EmitCtx} {id : Nat} {type : BtfType} {t : CType}

/-- The type behind a role, one step down. -/
def MeansByRole (ctx : EmitCtx) (id : Nat) (type : BtfType) (t : CType) : Role → Prop
  | .leaf => ∃ fuel text, leafText ctx (emitDeclEx ctx fuel) id type = some text ∧
      t = .base [] (lex text)
  | .ptr => ∃ t', Means ctx type.type t' ∧ t = .ptr [] t'
  | .array => ∃ t', Means ctx type.array.type t' ∧ t = .array t' type.array.nelems
  | .func => ∃ t' ps variadic, Means ctx type.type t' ∧
      MeansParams ctx true type.params.zipIdx ps variadic ∧ t = .func t' ps variadic
  | .transparent => Means ctx type.type t
  | .qualifier q => ∃ t', Means ctx type.type t' ∧ t = t'.qualify [q]

theorem means_zero : Means ctx 0 t ↔ t = .base [] [.word "void".toList] := by
  have hvoid : ∀ {type : BtfType}, btfTypeById ctx.btf 0 = some type →
      roleOf ctx.btf type = .leaf := by
    rintro type h
    cases h
    rfl
  constructor
  · intro h
    cases h with
    | void => rfl
    | leaf hzero => exact absurd rfl hzero
    | ptr htype hrole | array htype hrole | qualifier htype hrole | transparent htype hrole
    | func htype hrole =>
        rw [hvoid htype] at hrole
        cases hrole
  · rintro rfl
    exact .void

theorem means_iff (hzero : id ≠ 0) (htype : btfTypeById ctx.btf id = some type) :
    Means ctx id t ↔ MeansByRole ctx id type t (roleOf ctx.btf type) := by
  have hsame : ∀ {other : BtfType}, btfTypeById ctx.btf id = some other → other = type := by
    intro other hother
    rw [htype] at hother
    exact (Option.some.inj hother).symm
  constructor
  · intro h
    cases h with
    | void => exact absurd rfl hzero
    | leaf _ hother hrole htext =>
        obtain rfl := hsame hother
        rw [hrole]
        exact ⟨_, _, htext, rfl⟩
    | ptr hother hrole ht | array hother hrole ht | qualifier hother hrole ht =>
        obtain rfl := hsame hother
        rw [hrole]
        exact ⟨_, ht, rfl⟩
    | transparent hother hrole ht =>
        obtain rfl := hsame hother
        rw [hrole]
        exact ht
    | func hother hrole ht hps =>
        obtain rfl := hsame hother
        rw [hrole]
        exact ⟨_, _, _, ht, hps, rfl⟩
  · intro h
    cases hrole : roleOf ctx.btf type with
    | leaf =>
        rw [hrole] at h
        obtain ⟨_, _, htext, rfl⟩ := h
        exact .leaf hzero htype hrole htext
    | ptr =>
        rw [hrole] at h
        obtain ⟨_, ht, rfl⟩ := h
        exact .ptr htype hrole ht
    | array =>
        rw [hrole] at h
        obtain ⟨_, ht, rfl⟩ := h
        exact .array htype hrole ht
    | func =>
        rw [hrole] at h
        obtain ⟨_, _, _, ht, hps, rfl⟩ := h
        exact .func htype hrole ht hps
    | transparent =>
        rw [hrole] at h
        exact .transparent htype hrole h
    | qualifier q =>
        rw [hrole] at h
        obtain ⟨_, ht, rfl⟩ := h
        exact .qualifier htype hrole ht

theorem roleOf_qualifier {q : Qualifier} (h : qualifierOfKind type.kind = some q) :
    roleOf ctx.btf type = .qualifier q := by
  unfold roleOf
  cases hkind : type.kind <;> rw [hkind] at h <;> cases h <;> rfl

/-- A run of qualifiers goes to what stands behind it. -/
theorem means_of_qualifierRun {fuel : Nat} :
    ∀ {id current : Nat} {run : List Qualifier} {target : BtfType},
      qualifierRun ctx fuel id = some (run, current, target) → ∀ t,
        (Means ctx id t ↔ ∃ t', Means ctx current t' ∧ t = t'.qualify run) := by
  induction fuel with
  | zero =>
      intro id current run target h
      cases h
  | succ fuel ih =>
      intro id current run target h t
      rw [qualifierRun] at h
      obtain ⟨found, hfound, h⟩ := Option.bind_eq_some_iff.mp h
      cases hkind : qualifierOfKind found.kind with
      | none =>
          simp only [hkind] at h
          cases h
          simp only [CType.qualify_nil, exists_eq_right']
      | some q =>
          simp only [hkind] at h
          obtain ⟨⟨run', rest⟩, hrun', heq⟩ := Option.map_eq_some_iff.mp h
          cases heq
          have hzero : id ≠ 0 := by
            rintro rfl
            cases hfound
            cases hkind
          rw [means_iff hzero hfound, roleOf_qualifier hkind]
          constructor
          · rintro ⟨t', ht', rfl⟩
            obtain ⟨t'', ht'', rfl⟩ := (ih hrun' t').mp ht'
            exact ⟨t'', ht'', (CType.qualify_append [q] run' t'').symm⟩
          · rintro ⟨t'', ht'', rfl⟩
            exact ⟨t''.qualify run', (ih hrun' _).mpr ⟨t'', ht'', rfl⟩,
              CType.qualify_append [q] run' t''⟩

end

/-! ## The meaning of a tree -/

mutual

def Tree.meaning : Tree → CType
  | .leaf run text => .base run (lex text)
  | .ptr run t => .ptr run t.meaning
  | .array run t n => .array (t.meaning.qualify run) n
  | .tag run t => t.meaning.qualify run
  | .func _ t ps => .func t.meaning ps.meaning (ps.isVariadic true)

def TreeParams.meaning : TreeParams → CParams
  | .nil => .nil
  | .void _ ps => ps.meaning
  | .cons name t ps => .cons name t.meaning ps.meaning

/-- Whether the list ends in type 0 behind another parameter. -/
def TreeParams.isVariadic : Bool → TreeParams → Bool
  | _, .nil => false
  | first, .void _ _ => !first
  | _, .cons _ _ ps => ps.isVariadic false

end

mutual

/-- Type 0 is the only parameter, or the last and without a name. -/
def Tree.HasMeaning : Tree → Prop
  | .leaf _ _ => True
  | .ptr _ t | .array _ t _ | .tag _ t => t.HasMeaning
  | .func _ t ps => t.HasMeaning ∧ ps.HasMeaning true

def TreeParams.HasMeaning : Bool → TreeParams → Prop
  | _, .nil => True
  | first, .void name ps => ps.isNil = true ∧ (first = true ∨ name = [])
  | _, .cons _ t ps => t.HasMeaning ∧ ps.HasMeaning false

end

/-- What the tree of a type means is what the type means. -/
def TellsMeaning (ctx : EmitCtx) (tree : Nat → Option Tree) : Prop :=
  ∀ id t, tree id = some t → ∀ type, Means ctx id type ↔ t.HasMeaning ∧ type = t.meaning

section

variable {ctx : EmitCtx} {tree : Nat → Option Tree}

theorem meansParams_iff (htrees : TellsMeaning ctx tree) {params : List (BtfParam × Nat)} :
    ∀ {ps : TreeParams}, paramTrees ctx tree params = some ps → ∀ first types variadic,
      (MeansParams ctx first params types variadic ↔
        ps.HasMeaning first ∧ types = ps.meaning ∧ variadic = ps.isVariadic first) := by
  induction params with
  | nil =>
      intro ps h first types variadic
      cases h
      change _ ↔ True ∧ types = .nil ∧ variadic = false
      constructor
      · intro hps
        cases hps
        exact ⟨trivial, rfl, rfl⟩
      · rintro ⟨_, rfl, rfl⟩
        exact .nil
  | cons param params ih =>
      intro ps h first types variadic
      obtain ⟨param, i⟩ := param
      obtain ⟨rest, hrest, h⟩ := Option.bind_eq_some_iff.mp h
      have hmore := ih hrest false
      split at h
      next hzero =>
        cases h
        have hnil : rest.isNil = true → params = [] := by
          intro hnil
          cases params with
          | nil => rfl
          | cons param' params =>
              obtain ⟨rest', _, hrest⟩ := Option.bind_eq_some_iff.mp hrest
              split at hrest
              · cases hrest
                cases hnil
              · obtain ⟨_, _, rfl⟩ := Option.map_eq_some_iff.mp hrest
                cases hnil
        have hlast : params = [] → rest.isNil = true := by
          rintro rfl
          cases hrest
          rfl
        change _ ↔ (rest.isNil = true ∧ (first = true ∨ _ = [])) ∧ types = rest.meaning ∧
          variadic = !first
        constructor
        · intro hps
          cases hps with
          | void =>
              cases hrest
              exact ⟨⟨rfl, Or.inl rfl⟩, rfl, rfl⟩
          | variadic _ hname =>
              cases hrest
              exact ⟨⟨rfl, Or.inr hname⟩, rfl, rfl⟩
          | fixed hne => exact absurd hzero hne
        · rintro ⟨⟨hisNil, hname⟩, rfl, rfl⟩
          obtain rfl := hnil hisNil
          cases hrest
          cases first with
          | true => exact .void hzero
          | false => exact .variadic hzero (hname.resolve_left Bool.false_ne_true)
      next hne =>
        obtain ⟨t, ht, rfl⟩ := Option.map_eq_some_iff.mp h
        have htype := htrees _ _ ht
        change _ ↔ (t.HasMeaning ∧ rest.HasMeaning false) ∧
          types = .cons _ t.meaning rest.meaning ∧ variadic = rest.isVariadic false
        constructor
        · intro hps
          cases hps with
          | void hzero => exact absurd hzero hne
          | variadic hzero => exact absurd hzero hne
          | fixed _ hown hps =>
              obtain ⟨hsound, rfl⟩ := (htype _).mp hown
              obtain ⟨hsound', rfl, rfl⟩ := (hmore _ _).mp hps
              exact ⟨⟨hsound, hsound'⟩, rfl, rfl⟩
        · rintro ⟨⟨hsound, hsound'⟩, rfl, rfl⟩
          exact .fixed hne ((htype _).mpr ⟨hsound, rfl⟩) ((hmore _ _).mpr ⟨hsound', rfl, rfl⟩)

theorem Tree.meaning_withRun {t : Tree} (h : t.run = []) (run : List Qualifier) :
    (t.withRun run).meaning = t.meaning.qualify run := by
  cases t with
  | leaf own text | ptr own t =>
      cases h
      simp [Tree.withRun, Tree.meaning, CType.qualify]
  | array own t n =>
      cases h
      simp [Tree.withRun, Tree.meaning, CType.qualify, CType.qualify_nil]
  | tag own t =>
      cases h
      simp [Tree.withRun, Tree.meaning, CType.qualify_nil]
  | func own t ps => rfl

theorem Tree.hasMeaning_withRun (t : Tree) (run : List Qualifier) :
    (t.withRun run).HasMeaning ↔ t.HasMeaning := by
  cases t <;> exact Iff.rfl

/-- A node of a role, over trees that tell their meaning. -/
theorem treeNode_tellsMeaning {fuel id : Nat} {type : BtfType} {t : Tree}
    (htrees : TellsMeaning ctx tree) (hkind : qualifierOfKind type.kind = none)
    (h : treeNode ctx tree (emitDeclEx ctx fuel) id type = some t) (ctype : CType) :
    MeansByRole ctx id type ctype (roleOf ctx.btf type) ↔ t.HasMeaning ∧ ctype = t.meaning := by
  have hleaf : (leafText ctx (emitDeclEx ctx fuel) id type).map (Tree.leaf []) = some t →
      (MeansByRole ctx id type ctype .leaf ↔ t.HasMeaning ∧ ctype = t.meaning) := by
    intro hmap
    obtain ⟨text, htext, rfl⟩ := Option.map_eq_some_iff.mp hmap
    change _ ↔ True ∧ ctype = .base [] (lex text)
    constructor
    · rintro ⟨fuel', text', htext', rfl⟩
      rw [leafText_unique htext htext']
      exact ⟨trivial, rfl⟩
    · rintro ⟨_, rfl⟩
      exact ⟨fuel, text, htext, rfl⟩
  have htag : (tree type.type).map (Tree.tag []) = some t →
      (MeansByRole ctx id type ctype .transparent ↔ t.HasMeaning ∧ ctype = t.meaning) := by
    intro hmap
    obtain ⟨below, hbelow, rfl⟩ := Option.map_eq_some_iff.mp hmap
    change _ ↔ below.HasMeaning ∧ ctype = below.meaning.qualify []
    rw [CType.qualify_nil]
    exact htrees _ _ hbelow ctype
  unfold treeNode at h
  unfold roleOf
  cases hcase : type.kind <;> simp only [hcase] at h hkind ⊢
  case ptr =>
    obtain ⟨below, hbelow, rfl⟩ := Option.map_eq_some_iff.mp h
    have hiff := htrees _ _ hbelow
    change (∃ t', Means ctx type.type t' ∧ ctype = .ptr [] t') ↔
      below.HasMeaning ∧ ctype = .ptr [] below.meaning
    simp only [hiff, and_assoc, exists_and_left, exists_eq_left]
  case array =>
    obtain ⟨below, hbelow, rfl⟩ := Option.map_eq_some_iff.mp h
    have hiff := htrees _ _ hbelow
    change (∃ t', Means ctx type.array.type t' ∧ ctype = .array t' type.array.nelems) ↔
      below.HasMeaning ∧ ctype = .array (below.meaning.qualify []) type.array.nelems
    simp only [hiff, and_assoc, exists_and_left, exists_eq_left, CType.qualify_nil]
  case typeTag | declTag => exact htag h
  case typedef =>
    split at h
    next hname => rw [if_pos hname]; exact htag h
    next hname => rw [if_neg hname]; exact hleaf h
  case funcProto =>
    obtain ⟨result, hresult, h⟩ := Option.bind_eq_some_iff.mp h
    obtain ⟨ps, hps, rfl⟩ := Option.map_eq_some_iff.mp h
    have hiff := htrees _ _ hresult
    have hparams := meansParams_iff htrees hps true
    change (∃ t' types variadic, Means ctx type.type t' ∧
        MeansParams ctx true type.params.zipIdx types variadic ∧ ctype = .func t' types variadic) ↔
      (result.HasMeaning ∧ ps.HasMeaning true) ∧
        ctype = .func result.meaning ps.meaning (ps.isVariadic true)
    constructor
    · rintro ⟨t', types, variadic, ht', htypes, rfl⟩
      obtain ⟨hsound, rfl⟩ := (hiff _).mp ht'
      obtain ⟨hsound', rfl, rfl⟩ := (hparams _ _).mp htypes
      exact ⟨⟨hsound, hsound'⟩, rfl⟩
    · rintro ⟨⟨hsound, hsound'⟩, rfl⟩
      exact ⟨_, _, _, (hiff _).mpr ⟨hsound, rfl⟩, (hparams _ _).mpr ⟨hsound', rfl, rfl⟩, rfl⟩
  all_goals first | exact hleaf h | cases hkind

end

/-- The tree of a type means what the type means. -/
theorem treeOf_tellsMeaning (ctx : EmitCtx) (fuel : Nat) : TellsMeaning ctx (treeOf ctx fuel) := by
  induction fuel with
  | zero =>
      intro id t h
      cases h
  | succ fuel ih =>
      intro id t h ctype
      by_cases hzero : id = 0
      · rw [treeOf, if_pos hzero] at h
        cases h
        rw [hzero, means_zero]
        exact (true_and _).symm ▸ Iff.rfl
      cases htype : btfTypeById ctx.btf id with
      | none =>
          rw [treeOf, if_neg hzero, htype] at h
          cases h
      | some type =>
          cases hkind : qualifierOfKind type.kind with
          | none =>
              rw [treeOf_of_plain hzero htype hkind] at h
              rw [means_iff hzero htype]
              exact treeNode_tellsMeaning ih hkind h ctype
          | some q =>
              rw [treeOf_qualified htype hkind] at h
              obtain ⟨⟨run, current, target⟩, hrun, h⟩ := Option.bind_eq_some_iff.mp h
              obtain ⟨htarget, hnone⟩ := target_of_qualifierRun hrun
              rw [means_of_qualifierRun hrun]
              by_cases hptr : target.kind = .ptr
              · simp only [if_pos hptr] at h
                obtain ⟨below, hbelow, rfl⟩ := Option.map_eq_some_iff.mp h
                have hcurrent : current ≠ 0 := by
                  rintro rfl
                  cases htarget
                  cases hptr
                have hrole : roleOf ctx.btf target = .ptr := by simp only [roleOf, hptr]
                change _ ↔ below.HasMeaning ∧ ctype = .ptr run below.meaning
                simp only [means_iff hcurrent htarget, hrole, MeansByRole, ih _ _ hbelow]
                constructor
                · rintro ⟨_, ⟨_, ⟨hsound, rfl⟩, rfl⟩, rfl⟩
                  exact ⟨hsound, by simp [CType.qualify]⟩
                · rintro ⟨hsound, rfl⟩
                  exact ⟨_, ⟨_, ⟨hsound, rfl⟩, rfl⟩, by simp [CType.qualify]⟩
              · simp only [if_neg hptr] at h
                obtain ⟨below, hbelow, rfl⟩ := Option.map_eq_some_iff.mp h
                have hplain := (treeOf_plain htarget hnone hbelow).1
                rw [Tree.hasMeaning_withRun, Tree.meaning_withRun hplain]
                simp only [ih _ _ hbelow, and_assoc, exists_and_left, exists_eq_left]

end MinCorehdr
