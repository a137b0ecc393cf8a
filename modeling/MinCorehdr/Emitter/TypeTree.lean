import Mathlib.Data.List.Sublists
import MinCorehdr.Emitter.Graph
import MinCorehdr.Support.CDeclaration

/-!
# Types as trees

What `emit_decl_ex` passes below a type, unfolded, with the qualifiers in front
of each node collected as the printer collects them, and the text it prints for
the tree.
-/

namespace MinCorehdr

open Support.CDeclaration Support.Result

mutual

/-- A type as the printer sees it; every node has the run of qualifiers directly in
front of it, outermost first.  A tag is a type tag, a declaration tag or a
typedef without a name; a leaf is printed as it stands. -/
inductive Tree
  | leaf (run : List Qualifier) (text : CString)
  | ptr (run : List Qualifier) (target : Tree)
  | array (run : List Qualifier) (element : Tree) (nelems : Nat)
  | tag (run : List Qualifier) (target : Tree)
  | func (run : List Qualifier) (result : Tree) (params : TreeParams)

/-- The parameters of a prototype; those of type 0 are apart. -/
inductive TreeParams
  | nil
  | void (name : CString) (rest : TreeParams)
  | cons (name : CString) (type : Tree) (rest : TreeParams)

end

def Tree.run : Tree → List Qualifier
  | .leaf run _ | .ptr run _ | .array run _ _ | .tag run _ | .func run _ _ => run

def Tree.withRun (run : List Qualifier) : Tree → Tree
  | .leaf _ text => .leaf run text
  | .ptr _ t => .ptr run t
  | .array _ t n => .array run t n
  | .tag _ t => .tag run t
  | .func _ t ps => .func run t ps

/-! ## The text of a tree -/

/-- The qualifiers of a run as the printer lists them: each once, in a fixed order. -/
def shown (run : List Qualifier) : List Qualifier :=
  [.const, .volatile, .restrict].filter fun q => run.contains q

/-- The run in front of an array, less what is printed with its elements. -/
def arrayRun (run : List Qualifier) (element : Tree) : List Qualifier :=
  run.filter fun q => !(element.run.take 32).contains q

def qualifierText : List Qualifier → CString
  | [] => []
  | [q] => q.text
  | q :: qs => q.text ++ ' ' :: qualifierText qs

/-- A run printed in front of the rest. -/
def inFront (run qs : List Qualifier) : CString :=
  if run = [] then [] else qualifierText qs ++ [' ']

def starText (run : List Qualifier) (declarator : CString) : CString :=
  if run = [] then '*' :: declarator
  else "* ".toList ++ qualifierText (shown run) ++ spaced declarator

def bracketText (declarator : CString) (nelems : Nat) : CString :=
  (if declarator.head? = some '*' then '(' :: declarator ++ [')'] else declarator) ++
    '[' :: decimal nelems ++ [']']

def openingText (declarator : CString) : CString :=
  if declarator.head? = some '*' then " (".toList ++ declarator ++ ")(".toList
  else if declarator ≠ [] then ' ' :: declarator ++ ['(']
  else ['(']

mutual

def Tree.print : Tree → CString → CString
  | .leaf run text, declarator => inFront run (shown run) ++ text ++ spaced declarator
  | .ptr run t, declarator => t.print (starText run declarator)
  | .array run t n, declarator =>
      inFront run (shown (arrayRun run t)) ++ t.print (bracketText declarator n)
  | .tag run t, declarator => inFront run (shown run) ++ t.print declarator
  | .func run t ps, declarator =>
      inFront run (shown run) ++ t.print [] ++ openingText declarator ++ ps.print true ++ [')']

/-- A parameter list from its start, or from the comma before an entry. -/
def TreeParams.print : Bool → TreeParams → CString
  | first, .nil => if first then "void".toList else []
  | first, .void _ ps => (if first then [] else ", ".toList) ++ "void".toList ++ ps.print false
  | first, .cons name t ps =>
      (if first then [] else ", ".toList) ++ t.print name ++ ps.print false

end

/-! ## The tree of a type -/

def qualifierOfKind : Kind → Option Qualifier
  | .const => some .const
  | .volatile => some .volatile
  | .restrict => some .restrict
  | _ => none

/-- The qualifiers from `id` on, and the first type behind them. -/
def qualifierRun (ctx : EmitCtx) : Nat → Nat → Option (List Qualifier × Nat × BtfType)
  | 0, _ => none
  | fuel + 1, id =>
      (btfTypeById ctx.btf id).bind fun type =>
        match qualifierOfKind type.kind with
        | none => some ([], id, type)
        | some q => (qualifierRun ctx fuel type.type).map fun (run, rest) => (q :: run, rest)

/-- What the printer writes for a type that ends the recursion. -/
def leafText (ctx : EmitCtx) (decl : Nat → CString → Except Fault (List Piece)) (id : Nat)
    (type : BtfType) : Option CString :=
  let name := mchBtfTypeName ctx.btf type
  match type.kind with
  | .int => some (intTypeName type)
  | .float => some (floatTypeName type)
  | .typedef => some name
  | .struct | .union =>
      if name = [] then
        (emitRecordBody ctx decl id type).toOption.map fun body =>
          (if type.kind = .struct then "struct".toList else "union".toList) ++ declText body
      else some (recordKeyword type ++ [' '] ++ name)
  | .fwd => some (recordKeyword type ++ [' '] ++ name)
  | .enum => some (if name = [] then "int".toList else "enum ".toList ++ name)
  | .enum64 => some (if name = [] then "unsigned long long".toList else "enum ".toList ++ name)
  | _ => none

/-- The name a parameter is printed with. -/
def paramName (ctx : EmitCtx) (param : BtfParam) (i : Nat) : CString :=
  match btfNameByOffset ctx.btf param.nameOff with
  | some (c :: name) => c :: name
  | _ => "arg".toList ++ decimal i

def paramTrees (ctx : EmitCtx) (tree : Nat → Option Tree) : List (BtfParam × Nat) → Option TreeParams
  | [] => some .nil
  | (param, i) :: rest =>
      (paramTrees ctx tree rest).bind fun ps =>
        if param.type = 0 then some (.void ((btfNameByOffset ctx.btf param.nameOff).getD []) ps)
        else (tree param.type).map fun t => .cons (paramName ctx param i) t ps

/-- The node of a type that is no qualifier, from the trees below it. -/
def treeNode (ctx : EmitCtx) (tree : Nat → Option Tree)
    (decl : Nat → CString → Except Fault (List Piece)) (id : Nat) (type : BtfType) : Option Tree :=
  match type.kind with
  | .ptr => (tree type.type).map (.ptr [])
  | .array => (tree type.array.type).map fun t => .array [] t type.array.nelems
  | .typeTag | .declTag => (tree type.type).map (.tag [])
  | .typedef =>
      if mchBtfTypeName ctx.btf type = [] then (tree type.type).map (.tag [])
      else (leafText ctx decl id type).map (.leaf [])
  | .funcProto =>
      (tree type.type).bind fun t => (paramTrees ctx tree type.params.zipIdx).map (.func [] t)
  | _ => (leafText ctx decl id type).map (.leaf [])

def treeOf (ctx : EmitCtx) : Nat → Nat → Option Tree
  | 0, _ => none
  | fuel + 1, id =>
      if id = 0 then some (.leaf [] "void".toList)
      else
        (btfTypeById ctx.btf id).bind fun type =>
          match qualifierOfKind type.kind with
          | none => treeNode ctx (treeOf ctx fuel) (emitDeclEx ctx fuel) id type
          | some _ =>
              (qualifierRun ctx fuel id).bind fun (run, current, target) =>
                if target.kind = .ptr then (treeOf ctx fuel target.type).map (.ptr run)
                else (treeOf ctx fuel current).map (Tree.withRun run)

/-! ## Qualifier masks -/

def qualifierBit : Qualifier → BitVec 32
  | .const => 1
  | .volatile => 2
  | .restrict => 4

def maskOf (run : List Qualifier) : BitVec 32 := run.foldr (fun q mask => qualifierBit q ||| mask) 0

def qualifierIndex : Qualifier → Nat
  | .const => 0
  | .volatile => 1
  | .restrict => 2

theorem and_qualifierBit_ne_zero (mask : BitVec 32) (q : Qualifier) :
    mask &&& qualifierBit q ≠ 0 ↔ mask.getLsbD (qualifierIndex q) = true := by
  have hbit : qualifierBit q = BitVec.twoPow 32 (qualifierIndex q) := by
    cases q <;> rfl
  have hne : BitVec.twoPow 32 (qualifierIndex q) ≠ 0 := by
    cases q <;> decide
  rw [hbit, BitVec.and_twoPow]
  cases mask.getLsbD (qualifierIndex q) with
  | true => simpa using hne
  | false => simp

theorem getLsbD_maskOf (run : List Qualifier) (q : Qualifier) :
    (maskOf run).getLsbD (qualifierIndex q) = run.contains q := by
  induction run with
  | nil => cases q <;> rfl
  | cons p run ih =>
      have hbit : (qualifierBit p).getLsbD (qualifierIndex q) = (q == p) := by
        cases p <;> cases q <;> rfl
      rw [List.contains_cons, ← ih, ← hbit]
      exact BitVec.getLsbD_or

/-- The buffer of 64 bytes holds every set of qualifiers. -/
theorem appendQualifier_fits (qs : List Qualifier) (hqs : qs.Sublist [.const, .volatile, .restrict]) :
    qs.foldlM (fun buf q => appendTypeQualifier buf q.text) [] = some (qualifierText qs) := by
  have hall : ∀ qs ∈ [Qualifier.const, .volatile, .restrict].sublists,
      qs.foldlM (fun buf q => appendTypeQualifier buf q.text) [] = some (qualifierText qs) := by
    decide
  exact hall qs (List.mem_sublists.mpr hqs)

theorem appendQualifierMask_eq (mask : BitVec 32) :
    appendQualifierMask mask = some (qualifierText
      ([.const, .volatile, .restrict].filter fun q => mask.getLsbD (qualifierIndex q))) := by
  have hnames : qualifierNames =
      [.const, .volatile, .restrict].map fun q : Qualifier => (qualifierBit q, q.text) := rfl
  have hfold : ∀ (qs : List Qualifier) (buf : CString),
      qs.foldlM (fun buf q =>
          if mask &&& qualifierBit q ≠ 0 then appendTypeQualifier buf q.text else some buf) buf =
        (qs.filter fun q => mask.getLsbD (qualifierIndex q)).foldlM
          (fun buf q => appendTypeQualifier buf q.text) buf := by
    intro qs
    induction qs with
    | nil => exact fun _ => rfl
    | cons q qs ih =>
        intro buf
        rw [List.foldlM_cons, List.filter_cons]
        cases hbit : mask.getLsbD (qualifierIndex q) with
        | true =>
            rw [if_pos ((and_qualifierBit_ne_zero mask q).mpr hbit), if_pos rfl, List.foldlM_cons]
            exact congrArg (appendTypeQualifier buf q.text >>= ·) (funext ih)
        | false =>
            rw [if_neg (fun hne => by
              rw [and_qualifierBit_ne_zero, hbit] at hne
              cases hne), if_neg Bool.false_ne_true]
            exact ih buf
  unfold appendQualifierMask
  rw [hnames, List.foldlM_map, hfold]
  exact appendQualifier_fits _ List.filter_sublist

theorem appendQualifierMask_maskOf (run : List Qualifier) :
    appendQualifierMask (maskOf run) = some (qualifierText (shown run)) := by
  rw [appendQualifierMask_eq]
  simp only [getLsbD_maskOf]
  rfl

/-- The mask of a run less that of another. -/
theorem appendQualifierMask_and_not (run other : List Qualifier) :
    appendQualifierMask (maskOf run &&& ~~~maskOf other) =
      some (qualifierText (shown (run.filter fun q => !other.contains q))) := by
  have hfilter : ∀ q, (maskOf run &&& ~~~maskOf other).getLsbD (qualifierIndex q) =
      (run.filter fun q => !other.contains q).contains q := by
    intro q
    have hlt : qualifierIndex q < 32 := by
      cases q <;> decide
    rw [BitVec.getLsbD_and, BitVec.getLsbD_not, getLsbD_maskOf, getLsbD_maskOf, Bool.eq_iff_iff]
    simp [hlt]
  rw [appendQualifierMask_eq]
  simp only [hfilter]
  rfl

theorem typeQualifierBit_eq (kind : Kind) :
    typeQualifierBit kind =
      match qualifierOfKind kind with
      | none => 0
      | some q => qualifierBit q := by
  cases kind <;> rfl

theorem qualifierBit_ne_zero (q : Qualifier) : qualifierBit q ≠ 0 := by
  cases q <;> decide

/-- The loop of `emit_qualified_decl` gathers the run. -/
theorem qualifierRun_of_peelQualifiers {ctx : EmitCtx} {fuel : Nat} :
    ∀ {id current : Nat} {mask mask' : BitVec 32} {type : BtfType},
      peelQualifiers ctx fuel id mask = .ok (current, type, mask') →
        ∃ run, qualifierRun ctx fuel id = some (run, current, type) ∧ mask' = mask ||| maskOf run ∧
          btfTypeById ctx.btf current = some type ∧ qualifierOfKind type.kind = none := by
  induction fuel with
  | zero =>
      intro id current mask mask' type h
      cases h
  | succ fuel ih =>
      intro id current mask mask' type h
      rw [peelQualifiers] at h
      obtain ⟨found, hfound, h⟩ := bind_eq_ok.mp h
      rw [typeById_eq_ok] at hfound
      rw [qualifierRun, hfound]
      simp only [typeQualifierBit_eq, Option.bind_some] at h ⊢
      cases hkind : qualifierOfKind found.kind with
      | none =>
          simp only [hkind, if_true] at h ⊢
          cases h
          exact ⟨[], rfl, (BitVec.or_zero).symm, hfound, hkind⟩
      | some q =>
          simp only [hkind, qualifierBit_ne_zero, if_false] at h ⊢
          obtain ⟨run, hrun, hmask, htype, hnone⟩ := ih h
          refine ⟨q :: run, by rw [hrun]; rfl, ?_, htype, hnone⟩
          rw [hmask, BitVec.or_assoc]
          rfl

theorem target_of_qualifierRun {ctx : EmitCtx} {fuel : Nat} :
    ∀ {id current : Nat} {run : List Qualifier} {target : BtfType},
      qualifierRun ctx fuel id = some (run, current, target) →
        btfTypeById ctx.btf current = some target ∧ qualifierOfKind target.kind = none := by
  induction fuel with
  | zero =>
      intro id current run target h
      cases h
  | succ fuel ih =>
      intro id current run target h
      rw [qualifierRun] at h
      obtain ⟨found, hfound, h⟩ := Option.bind_eq_some_iff.mp h
      cases hkind : qualifierOfKind found.kind with
      | none =>
          simp only [hkind, Option.some.injEq] at h
          cases h
          exact ⟨hfound, hkind⟩
      | some q =>
          simp only [hkind] at h
          obtain ⟨⟨run', rest⟩, hrest, heq⟩ := Option.map_eq_some_iff.mp h
          cases heq
          exact ih hrest

/-- `leading_qualifier_mask` sees the first 32 qualifiers of the run. -/
theorem leadingQualifierMaskFrom_eq {ctx : EmitCtx} {fuel : Nat} :
    ∀ {id current n : Nat} {mask : BitVec 32} {run : List Qualifier} {type : BtfType},
      qualifierRun ctx fuel id = some (run, current, type) →
        leadingQualifierMaskFrom ctx n id mask = mask ||| maskOf (run.take n) := by
  induction fuel with
  | zero =>
      intro id current n mask run type h
      cases h
  | succ fuel ih =>
      intro id current n mask run type h
      cases n with
      | zero =>
          rw [leadingQualifierMaskFrom, List.take_zero]
          exact (BitVec.or_zero).symm
      | succ n =>
          rw [qualifierRun] at h
          obtain ⟨found, hfound, h⟩ := Option.bind_eq_some_iff.mp h
          rw [leadingQualifierMaskFrom, hfound]
          simp only [typeQualifierBit_eq]
          cases hkind : qualifierOfKind found.kind with
          | none =>
              simp only [hkind, Option.some.injEq] at h
              cases h
              rw [if_pos rfl, List.take_nil]
              exact (BitVec.or_zero).symm
          | some q =>
              simp only [hkind] at h ⊢
              obtain ⟨⟨run', rest⟩, hrun', heq⟩ := Option.map_eq_some_iff.mp h
              cases heq
              rw [if_neg (qualifierBit_ne_zero q), ih hrun', BitVec.or_assoc]
              rfl

/-! ## The printed text is that of the tree -/

@[simp] theorem declText_nil : declText [] = [] := rfl

@[simp] theorem declText_cons (piece : Piece) (pieces : List Piece) :
    declText (piece :: pieces) = piece.toText ++ declText pieces := rfl

@[simp] theorem declText_append (xs ys : List Piece) :
    declText (xs ++ ys) = declText xs ++ declText ys :=
  List.flatMap_append

/-- The run that is printed in front of a node which is no pointer. -/
def Tree.frontRun (run : List Qualifier) : Tree → List Qualifier
  | .array _ t _ => arrayRun run t
  | _ => run

def Tree.isPtr : Tree → Bool
  | .ptr _ _ => true
  | _ => false

theorem Tree.print_withRun {t : Tree} {run : List Qualifier} (hrun : t.run = [])
    (hptr : t.isPtr = false) (declarator : CString) :
    (t.withRun run).print declarator =
      inFront run (shown (t.frontRun run)) ++ t.print declarator := by
  cases t with
  | leaf own text =>
      cases hrun
      simp [Tree.withRun, Tree.print, Tree.frontRun, inFront]
  | ptr own t => cases hptr
  | array own t n =>
      cases hrun
      simp [Tree.withRun, Tree.print, Tree.frontRun, inFront]
  | tag own t =>
      cases hrun
      simp [Tree.withRun, Tree.print, Tree.frontRun, inFront]
  | func own t ps =>
      cases hrun
      simp [Tree.withRun, Tree.print, Tree.frontRun, inFront]

@[simp] theorem Tree.run_withRun (t : Tree) (run : List Qualifier) : (t.withRun run).run = run := by
  cases t <;> rfl

theorem treeOf_of_plain {ctx : EmitCtx} {fuel id : Nat} {type : BtfType} (hzero : id ≠ 0)
    (htype : btfTypeById ctx.btf id = some type) (hkind : qualifierOfKind type.kind = none) :
    treeOf ctx (fuel + 1) id = treeNode ctx (treeOf ctx fuel) (emitDeclEx ctx fuel) id type := by
  rw [treeOf, if_neg hzero, htype, Option.bind_some, hkind]

/-- A node of a type that is no qualifier has no run. -/
theorem treeNode_plain {ctx : EmitCtx} {tree : Nat → Option Tree}
    {decl : Nat → CString → Except Fault (List Piece)} {id : Nat} {type : BtfType} {t : Tree}
    (h : treeNode ctx tree decl id type = some t) :
    t.run = [] ∧ (type.kind ≠ .ptr → t.isPtr = false) ∧
      (type.kind ≠ .array → ∀ run, t.frontRun run = run) := by
  unfold treeNode at h
  cases hkind : type.kind <;> simp only [hkind] at h
  case ptr =>
    obtain ⟨_, _, rfl⟩ := Option.map_eq_some_iff.mp h
    exact ⟨rfl, fun hne => absurd rfl hne, fun _ _ => rfl⟩
  case array =>
    obtain ⟨_, _, rfl⟩ := Option.map_eq_some_iff.mp h
    exact ⟨rfl, fun _ => rfl, fun hne => absurd rfl hne⟩
  case typedef =>
    split at h <;> obtain ⟨_, _, rfl⟩ := Option.map_eq_some_iff.mp h
    · exact ⟨rfl, fun _ => rfl, fun _ _ => rfl⟩
    · exact ⟨rfl, fun _ => rfl, fun _ _ => rfl⟩
  case funcProto =>
    obtain ⟨result, _, h⟩ := Option.bind_eq_some_iff.mp h
    obtain ⟨_, _, rfl⟩ := Option.map_eq_some_iff.mp h
    exact ⟨rfl, fun _ => rfl, fun _ _ => rfl⟩
  all_goals
    obtain ⟨_, _, rfl⟩ := Option.map_eq_some_iff.mp h
    exact ⟨rfl, fun _ => rfl, fun _ _ => rfl⟩

theorem treeOf_plain {ctx : EmitCtx} {fuel id : Nat} {t : Tree} {type : BtfType}
    (htype : btfTypeById ctx.btf id = some type) (hkind : qualifierOfKind type.kind = none)
    (h : treeOf ctx fuel id = some t) :
    t.run = [] ∧ (type.kind ≠ .ptr → t.isPtr = false) ∧
      (type.kind ≠ .array → ∀ run, t.frontRun run = run) := by
  cases fuel with
  | zero => cases h
  | succ fuel =>
      by_cases hzero : id = 0
      · rw [treeOf, if_pos hzero] at h
        cases h
        exact ⟨rfl, fun _ => rfl, fun _ _ => rfl⟩
      · rw [treeOf_of_plain hzero htype hkind] at h
        exact treeNode_plain h

theorem treeOf_array {ctx : EmitCtx} {fuel id : Nat} {t : Tree} {type : BtfType}
    (htype : btfTypeById ctx.btf id = some type) (hkind : type.kind = .array)
    (h : treeOf ctx fuel id = some t) :
    ∃ below e, treeOf ctx below type.array.type = some e ∧ t = .array [] e type.array.nelems := by
  cases fuel with
  | zero => cases h
  | succ fuel =>
      have hzero : id ≠ 0 := by
        rintro rfl
        cases htype
        cases hkind
      rw [treeOf_of_plain hzero htype (by rw [hkind]; rfl), treeNode, hkind] at h
      obtain ⟨e, he, rfl⟩ := Option.map_eq_some_iff.mp h
      exact ⟨fuel, e, he, rfl⟩

/-- Qualifiers give their run to the node behind them. -/
theorem treeOf_qualified {ctx : EmitCtx} {fuel id : Nat} {type : BtfType} {q : Qualifier}
    (htype : btfTypeById ctx.btf id = some type) (hkind : qualifierOfKind type.kind = some q) :
    treeOf ctx (fuel + 1) id = (qualifierRun ctx fuel id).bind fun (run, current, target) =>
      if target.kind = .ptr then (treeOf ctx fuel target.type).map (.ptr run)
      else (treeOf ctx fuel current).map (Tree.withRun run) := by
  have hzero : id ≠ 0 := by
    rintro rfl
    cases htype
    cases hkind
  rw [treeOf, if_neg hzero, htype, Option.bind_some, hkind]

/-- The qualifiers that lead a type are the run of its tree. -/
theorem leadingQualifierMask_eq {ctx : EmitCtx} {fuel id : Nat} {t : Tree}
    (h : treeOf ctx fuel id = some t) : leadingQualifierMask ctx id = maskOf (t.run.take 32) := by
  unfold leadingQualifierMask
  cases htype : btfTypeById ctx.btf id with
  | none =>
      cases fuel with
      | zero => cases h
      | succ fuel =>
          have hzero : id ≠ 0 := by
            rintro rfl
            cases htype
          rw [treeOf, if_neg hzero, htype] at h
          cases h
  | some type =>
      cases hkind : qualifierOfKind type.kind with
      | none =>
          rw [(treeOf_plain htype hkind h).1, leadingQualifierMaskFrom, htype]
          simp [typeQualifierBit_eq, hkind, maskOf]
      | some q =>
          cases fuel with
          | zero => cases h
          | succ fuel =>
              rw [treeOf_qualified htype hkind] at h
              obtain ⟨⟨run, current, target⟩, hrun, h⟩ := Option.bind_eq_some_iff.mp h
              have ht : t.run = run := by
                simp only at h
                split at h <;> obtain ⟨_, _, rfl⟩ := Option.map_eq_some_iff.mp h
                · rfl
                · exact Tree.run_withRun _ _
              rw [leadingQualifierMaskFrom_eq hrun, ht]
              exact BitVec.zero_or

/-- The recursive calls of the printer print trees. -/
def PrintsTrees (decl : Nat → CString → Except Fault (List Piece)) (tree : Nat → Option Tree) :
    Prop :=
  ∀ id declarator pieces, decl id declarator = .ok pieces →
    ∃ t, tree id = some t ∧ declText pieces = t.print declarator

section

variable {ctx : EmitCtx} {decl : Nat → CString → Except Fault (List Piece)}
  {tree : Nat → Option Tree}

/-- The entries of a parameter list from the entry with index `k` on. -/
theorem collect_emitParam (hdecl : PrintsTrees decl tree) {params : List BtfParam} :
    ∀ {k : Nat} {pieces : List Piece}, params ≠ [] ∨ 0 < k →
      collect (emitParam ctx decl) (params.zipIdx k) = .ok pieces →
        ∃ ps, paramTrees ctx tree (params.zipIdx k) = some ps ∧
          declText pieces = ps.print (decide (k = 0)) := by
  induction params with
  | nil =>
      intro k pieces hk h
      cases h
      have hne : k ≠ 0 := by
        rintro rfl
        simp at hk
      exact ⟨.nil, rfl, by simp [TreeParams.print, hne]⟩
  | cons param params ih =>
      intro k pieces _ h
      rw [List.zipIdx_cons] at h ⊢
      obtain ⟨first, rest, hfirst, hrest, rfl⟩ := collect_cons_eq_ok.mp h
      obtain ⟨ps, hps, htext⟩ := ih (Or.inr (Nat.succ_pos k)) hrest
      rw [paramTrees, hps, Option.bind_some]
      have hcomma : (Piece.text (if 0 < k then ", ".toList else [])).toText =
          if decide (k = 0) = true then [] else ", ".toList := by
        cases k <;> rfl
      unfold emitParam at hfirst
      simp only at hfirst
      split at hfirst
      next hzero =>
        cases hfirst
        rw [if_pos hzero]
        refine ⟨_, rfl, ?_⟩
        rw [declText_append, htext, TreeParams.print, declText_cons, declText_cons, hcomma]
        simp [Piece.toText]
      next hzero =>
        obtain ⟨own, hown, hfirst⟩ := bind_eq_ok.mp hfirst
        cases hfirst
        have hname : decl param.type (paramName ctx param k) = .ok own := hown
        obtain ⟨t, ht, hprint⟩ := hdecl _ _ _ hname
        rw [if_neg hzero, ht]
        refine ⟨_, rfl, ?_⟩
        rw [declText_append, htext, TreeParams.print, declText_cons, hcomma, hprint]
        simp

theorem emitParams_text (hdecl : PrintsTrees decl tree) {proto : BtfType} {pieces : List Piece}
    (h : emitParams ctx decl proto = .ok pieces) :
    ∃ ps, paramTrees ctx tree proto.params.zipIdx = some ps ∧ declText pieces = ps.print true := by
  unfold emitParams at h
  split at h
  next hnil =>
    cases h
    rw [hnil]
    exact ⟨.nil, rfl, rfl⟩
  next hne => exact collect_emitParam hdecl (Or.inl hne) h

theorem emitFuncDecl_text (hdecl : PrintsTrees decl tree) {id : Nat} {declarator : CString}
    {proto : BtfType} {pieces : List Piece} (hproto : btfTypeById ctx.btf id = some proto)
    (h : emitFuncDecl ctx decl id declarator = .ok pieces) :
    ∃ t ps, tree proto.type = some t ∧ paramTrees ctx tree proto.params.zipIdx = some ps ∧
      declText pieces = (Tree.func [] t ps).print declarator := by
  unfold emitFuncDecl at h
  rw [typeById_of_some hproto, ok_bind] at h
  obtain ⟨result, hresult, h⟩ := bind_eq_ok.mp h
  obtain ⟨params, hparams, h⟩ := bind_eq_ok.mp h
  cases h
  obtain ⟨t, ht, hprint⟩ := hdecl _ _ _ hresult
  obtain ⟨ps, hps, htext⟩ := emitParams_text hdecl hparams
  refine ⟨t, ps, ht, hps, ?_⟩
  simp [Tree.print, inFront, openingText, Piece.toText, hprint, htext]

/-- A run of qualifiers in front of a pointer is printed behind its star, any other
in front of the rest. -/
theorem emitQualifiedDecl_text {fuel id : Nat} (hdecl : PrintsTrees decl (treeOf ctx fuel))
    {type : BtfType} {q : Qualifier} (htype : btfTypeById ctx.btf id = some type)
    (hkind : qualifierOfKind type.kind = some q) {declarator : CString} {pieces : List Piece}
    (h : emitQualifiedDecl ctx decl fuel id declarator = .ok pieces) :
    ∃ t, treeOf ctx (fuel + 1) id = some t ∧ declText pieces = t.print declarator := by
  unfold emitQualifiedDecl at h
  obtain ⟨⟨current, target, mask⟩, hpeel, h⟩ := bind_eq_ok.mp h
  obtain ⟨run, hrun, hmask, htarget, hnone⟩ := qualifierRun_of_peelQualifiers hpeel
  have hne : run ≠ [] := by
    rintro rfl
    cases fuel with
    | zero => cases hrun
    | succ fuel =>
        rw [qualifierRun, htype, Option.bind_some, hkind] at hrun
        obtain ⟨_, _, heq⟩ := Option.map_eq_some_iff.mp hrun
        cases heq
  have hmask' : mask = maskOf run := by
    rw [hmask]
    exact BitVec.zero_or
  rw [treeOf_qualified htype hkind, hrun, Option.bind_some]
  simp only at h ⊢
  by_cases hptr : target.kind = .ptr
  · have harray : ¬target.kind = .array := by
      rw [hptr]
      decide
    rw [if_neg harray, hmask', appendQualifierMask_maskOf] at h
    simp only [if_pos hptr] at h ⊢
    obtain ⟨next, hnext, h⟩ := bind_eq_ok.mp h
    obtain ⟨t, ht, hprint⟩ := hdecl _ _ _ h
    have hstar : next = starText run declarator := by
      rw [(makeDeclarator_eq_ok hnext).1, starText, if_neg hne]
    exact ⟨.ptr run t, by rw [ht]; rfl, by rw [hprint, hstar, Tree.print]⟩
  · simp only [if_neg hptr] at h ⊢
    have hfront : ∀ t, treeOf ctx fuel current = some t →
        appendQualifierMask (if target.kind = .array then
            mask &&& ~~~(leadingQualifierMask ctx target.array.type) else mask) =
          some (qualifierText (shown (t.frontRun run))) := by
      intro t ht
      rw [hmask']
      by_cases harray : target.kind = .array
      · obtain ⟨below, e, he, rfl⟩ := treeOf_array htarget harray ht
        rw [if_pos harray, leadingQualifierMask_eq he, appendQualifierMask_and_not]
        rfl
      · rw [if_neg harray, appendQualifierMask_maskOf,
          (treeOf_plain htarget hnone ht).2.2 harray]
    split at h
    next => cases h
    next qualifiers hqualifiers =>
      obtain ⟨rest, hrest, h⟩ := bind_eq_ok.mp h
      cases h
      obtain ⟨t, ht, hprint⟩ := hdecl _ _ _ hrest
      obtain ⟨hrun', hplain, _⟩ := treeOf_plain htarget hnone ht
      have hsome := hfront t ht
      rw [hqualifiers, Option.some.injEq] at hsome
      refine ⟨t.withRun run, by rw [ht]; rfl, ?_⟩
      rw [Tree.print_withRun hrun' (hplain hptr), inFront, if_neg hne, ← hsome, declText_cons, hprint]
      rfl

end

section

variable {ctx : EmitCtx} {decl : Nat → CString → Except Fault (List Piece)} {id : Nat}
  {type : BtfType}

theorem leafText_enum (hkind : type.kind = .enum) :
    leafText ctx decl id type = some (if mchBtfTypeName ctx.btf type = [] then "int".toList
      else "enum ".toList ++ mchBtfTypeName ctx.btf type) := by
  unfold leafText
  simp only [hkind]

theorem leafText_enum64 (hkind : type.kind = .enum64) :
    leafText ctx decl id type = some (if mchBtfTypeName ctx.btf type = [] then
      "unsigned long long".toList else "enum ".toList ++ mchBtfTypeName ctx.btf type) := by
  unfold leafText
  simp only [hkind]

end

theorem emitInlineRecord_text {ctx : EmitCtx} {decl : Nat → CString → Except Fault (List Piece)}
    {id : Nat} {type : BtfType} {declarator : CString} {pieces : List Piece}
    (hkind : type.kind = .struct ∨ type.kind = .union) (hname : mchBtfTypeName ctx.btf type = [])
    (h : emitInlineRecord ctx decl type id declarator = .ok pieces) :
    ∃ text, leafText ctx decl id type = some text ∧
      declText pieces = text ++ spaced declarator := by
  obtain ⟨body, hbody, h⟩ := bind_eq_ok.mp h
  cases h
  refine ⟨(if type.kind = .struct then "struct".toList else "union".toList) ++ declText body, ?_, ?_⟩
  · unfold leafText
    rcases hkind with hkind | hkind <;> simp only [hkind, hname, if_true, hbody] <;> rfl
  · simp [Piece.toText]

/-- What `emit_decl_ex` prints is the text of the type's tree. -/
theorem emitDeclEx_text (ctx : EmitCtx) (fuel : Nat) :
    PrintsTrees (emitDeclEx ctx fuel) (treeOf ctx fuel) := by
  induction fuel with
  | zero =>
      intro id declarator pieces h
      cases h
  | succ fuel ih =>
      intro id declarator pieces h
      rw [emitDeclEx] at h
      by_cases hzero : id = 0
      · rw [if_pos hzero] at h
        cases h
        exact ⟨.leaf [] "void".toList, by rw [treeOf, if_pos hzero],
          by simp [Tree.print, inFront, Piece.toText]⟩
      rw [if_neg hzero] at h
      obtain ⟨type, htype, h⟩ := bind_eq_ok.mp h
      rw [typeById_eq_ok] at htype
      cases hqualifier : qualifierOfKind type.kind with
      | some q =>
          have hdecl : emitQualifiedDecl ctx (emitDeclEx ctx fuel) fuel id declarator = .ok pieces := by
            cases hkind : type.kind <;> simp only [hkind] at h hqualifier <;>
              first | exact h | cases hqualifier
          exact emitQualifiedDecl_text ih htype hqualifier hdecl
      | none =>
          have hnode := @treeOf_of_plain ctx fuel id type hzero htype hqualifier
          have hleaf : ∀ text, treeNode ctx (treeOf ctx fuel) (emitDeclEx ctx fuel) id type =
                (leafText ctx (emitDeclEx ctx fuel) id type).map (.leaf []) →
              leafText ctx (emitDeclEx ctx fuel) id type = some text →
                declText pieces = text ++ spaced declarator →
                  ∃ t, treeNode ctx (treeOf ctx fuel) (emitDeclEx ctx fuel) id type = some t ∧
                    declText pieces = t.print declarator := by
            intro text htree htext hpieces
            refine ⟨.leaf [] text, by rw [htree, htext]; rfl, ?_⟩
            rw [hpieces]
            simp [Tree.print, inFront]
          have htag : treeNode ctx (treeOf ctx fuel) (emitDeclEx ctx fuel) id type =
                (treeOf ctx fuel type.type).map (.tag []) →
              emitDeclEx ctx fuel type.type declarator = .ok pieces →
                ∃ t, treeNode ctx (treeOf ctx fuel) (emitDeclEx ctx fuel) id type = some t ∧
                  declText pieces = t.print declarator := by
            intro htree hdecl
            obtain ⟨t, ht, hprint⟩ := ih _ _ _ hdecl
            refine ⟨.tag [] t, by rw [htree, ht]; rfl, ?_⟩
            rw [hprint]
            simp [Tree.print, inFront]
          rw [hnode]
          cases hkind : type.kind <;> simp only [hkind] at h hqualifier
          case ptr =>
            obtain ⟨next, hnext, h⟩ := bind_eq_ok.mp h
            obtain ⟨t, ht, hprint⟩ := ih _ _ _ h
            refine ⟨.ptr [] t, by simp only [treeNode, hkind, ht, Option.map_some], ?_⟩
            rw [hprint, (makeDeclarator_eq_ok hnext).1, Tree.print, starText, if_pos rfl]
          case array =>
            obtain ⟨next, hnext, h⟩ := bind_eq_ok.mp h
            obtain ⟨t, ht, hprint⟩ := ih _ _ _ h
            refine ⟨.array [] t type.array.nelems, by simp only [treeNode, hkind, ht, Option.map_some],
              ?_⟩
            rw [hprint, (makeDeclarator_eq_ok hnext).1]
            simp [Tree.print, inFront, bracketText]
          case typeTag | declTag =>
            exact htag (by simp only [treeNode, hkind]) h
          case typedef =>
            by_cases hname : mchBtfTypeName ctx.btf type = []
            · rw [if_pos hname] at h
              exact htag (by simp only [treeNode, hkind, if_pos hname]) h
            · rw [if_neg hname] at h
              cases h
              exact hleaf (mchBtfTypeName ctx.btf type)
                (by simp only [treeNode, hkind, if_neg hname]) (by simp only [leafText, hkind])
                (by simp [Piece.toText])
          case funcProto =>
            obtain ⟨t, ps, ht, hps, hprint⟩ := emitFuncDecl_text ih htype h
            exact ⟨.func [] t ps,
              by simp only [treeNode, hkind, ht, hps, Option.bind_some, Option.map_some], hprint⟩
          case struct | union =>
            by_cases hname : mchBtfTypeName ctx.btf type = []
            · rw [if_pos hname] at h
              obtain ⟨text, htext, hpieces⟩ := emitInlineRecord_text (by simp [hkind]) hname h
              exact hleaf text (by simp only [treeNode, hkind]) htext hpieces
            · rw [if_neg hname] at h
              cases h
              exact hleaf (recordKeyword type ++ [' '] ++ mchBtfTypeName ctx.btf type)
                (by simp only [treeNode, hkind]) (by simp only [leafText, hkind, if_neg hname])
                (by simp [Piece.toText])
          case fwd =>
            cases h
            exact hleaf (recordKeyword type ++ [' '] ++ mchBtfTypeName ctx.btf type)
              (by simp only [treeNode, hkind]) (by simp only [leafText, hkind])
              (by simp [Piece.toText])
          case int =>
            cases h
            exact hleaf (intTypeName type) (by simp only [treeNode, hkind])
              (by simp only [leafText, hkind]) (by simp [Piece.toText])
          case float =>
            cases h
            exact hleaf (floatTypeName type) (by simp only [treeNode, hkind])
              (by simp only [leafText, hkind]) (by simp [Piece.toText])
          case enum =>
            have htext := @leafText_enum ctx (emitDeclEx ctx fuel) id type hkind
            by_cases hname : mchBtfTypeName ctx.btf type = []
            · rw [if_pos hname] at h htext
              cases h
              exact hleaf _ (by simp only [treeNode, hkind]) htext (by simp [Piece.toText])
            · rw [if_neg hname] at h htext
              cases h
              exact hleaf _ (by simp only [treeNode, hkind]) htext (by simp [Piece.toText])
          case enum64 =>
            have htext := @leafText_enum64 ctx (emitDeclEx ctx fuel) id type hkind
            by_cases hname : mchBtfTypeName ctx.btf type = []
            · rw [if_pos hname] at h htext
              cases h
              exact hleaf _ (by simp only [treeNode, hkind]) htext (by simp [Piece.toText])
            · rw [if_neg hname] at h htext
              cases h
              exact hleaf _ (by simp only [treeNode, hkind]) htext (by simp [Piece.toText])
          all_goals first | cases h | cases hqualifier

end MinCorehdr
