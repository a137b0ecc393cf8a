import MinCorehdr.Iteration
import MinCorehdr.LeastClosure
import MinCorehdr.Store
import MinCorehdr.Support.GrowBuffer
import MinCorehdr.Support.Sweep

/-!
# The closure in memory

The worklist of the closure as the program keeps it: an array that doubles when it
is full, every request for memory of which may be refused.  The required set and
the counter are what the caller is left with, also when the call fails.
-/

namespace MinCorehdr

open Relation Support.GrowBuffer Support.Result Support.Sweep

/-- `struct closure_worklist`; the cells are what `ids` points to. -/
structure ClosureWorklist extends Buffer Nat where
  cap : Nat
  length_cells : cells.length = cap
  cap_pos : 0 < cap

/-- `sizeof(*worklist->ids)`. -/
def worklistIdSize : Nat := 4

theorem cap_pos_of_large {initialCap : Nat} :
    0 < (if initialCap < 16 then 16 else initialCap) := by
  split <;> omega

/-- `granted cap` says whether a request for `cap` ids is met.  A worklist never asks
for one capacity twice. -/
def worklistInit (granted : Nat → Bool) (initialCap : Nat) : Except Fault ClosureWorklist :=
  if sizeMax / worklistIdSize < (if initialCap < 16 then 16 else initialCap) then
    fail "dependency closure worklist is too large".toList
  else if granted (if initialCap < 16 then 16 else initialCap) then
    .ok {
      toBuffer := .fresh (if initialCap < 16 then 16 else initialCap)
      cap := if initialCap < 16 then 16 else initialCap
      length_cells := Buffer.length_cells_fresh _
      cap_pos := cap_pos_of_large }
  else
    fail "out of memory while preparing dependency closure worklist".toList

/-- `worklist->ids[worklist->len++] = id`. -/
def ClosureWorklist.append (worklist : ClosureWorklist) (id : Nat)
    (h : worklist.len < worklist.cells.length) : ClosureWorklist where
  toBuffer := worklist.toBuffer.write id h
  cap := worklist.cap
  length_cells := (Buffer.length_cells_write _ _ _).trans worklist.length_cells
  cap_pos := worklist.cap_pos

theorem ClosureWorklist.length_cells_doubled (worklist : ClosureWorklist) :
    (worklist.toBuffer.resize (worklist.cap * 2)).cells.length = worklist.cap * 2 := by
  apply Buffer.length_cells_resize
  have hcap := worklist.length_cells
  omega

theorem ClosureWorklist.double_pos (worklist : ClosureWorklist) : 0 < worklist.cap * 2 := by
  have hcap := worklist.cap_pos
  omega

def ClosureWorklist.double (worklist : ClosureWorklist) : ClosureWorklist where
  toBuffer := worklist.toBuffer.resize (worklist.cap * 2)
  cap := worklist.cap * 2
  length_cells := worklist.length_cells_doubled
  cap_pos := worklist.double_pos

@[simp] theorem ClosureWorklist.items_append (worklist : ClosureWorklist) (id : Nat)
    (h : worklist.len < worklist.cells.length) :
    (worklist.append id h).items = worklist.items ++ [id] :=
  Buffer.items_write _ _ h

@[simp] theorem ClosureWorklist.items_double (worklist : ClosureWorklist) :
    worklist.double.items = worklist.items :=
  Buffer.items_resize _ _

theorem ClosureWorklist.len_lt_of_ne {worklist : ClosureWorklist}
    (h : worklist.len ≠ worklist.cap) : worklist.len < worklist.cells.length := by
  have hle := worklist.len_le
  have hcap := worklist.length_cells
  omega

theorem ClosureWorklist.len_lt_of_eq {worklist : ClosureWorklist}
    (h : worklist.len = worklist.cap) : worklist.double.len < worklist.double.cells.length := by
  have hdouble := worklist.double.length_cells
  have hpos := worklist.cap_pos
  change worklist.len < worklist.double.cells.length
  change worklist.double.cells.length = worklist.cap * 2 at hdouble
  omega

def worklistPush (granted : Nat → Bool) (worklist : ClosureWorklist) (id : Nat) :
    Except Fault ClosureWorklist :=
  if hfull : worklist.len = worklist.cap then
    if sizeMax / 2 < worklist.cap ∨ sizeMax / worklistIdSize < worklist.cap * 2 % 2 ^ 64 then
      fail "dependency closure worklist is too large".toList
    else if granted (worklist.cap * 2) then
      .ok (worklist.double.append id (ClosureWorklist.len_lt_of_eq hfull))
    else
      fail "out of memory while growing dependency closure worklist".toList
  else
    .ok (worklist.append id (ClosureWorklist.len_lt_of_ne hfull))

/-- What the closure works on; the first and the last outlive the call. -/
structure ClosureRun where
  required : TypeSet
  worklist : ClosureWorklist
  addedTypes : Nat

namespace ClosureRun

def push (granted : Nat → Bool) (run : ClosureRun) (id : Nat) : ClosureRun × Except Fault Unit :=
  match worklistPush granted run.worklist id with
  | .error fault => (run, .error fault)
  | .ok worklist => ({ run with worklist }, .ok ())

def addDep (granted : Nat → Bool) (btf : Btf) (run : ClosureRun) (id : Nat) :
    ClosureRun × Except Fault Unit :=
  if id = 0 then (run, .ok ())
  else if btfTypeCnt btf ≤ id then
    (run, onError (mchErrorSetHint "input BTF appears internally inconsistent".toList)
      (fail ("BTF dependency references invalid type id ".toList ++ decimal id)))
  else if (mchTypeSetAdd run.required id).2 then
    andThen (push granted { run with required := (mchTypeSetAdd run.required id).1 } id)
      fun run => ({ run with addedTypes := run.addedTypes + 1 }, .ok ())
  else
    ({ run with required := (mchTypeSetAdd run.required id).1 }, .ok ())

def addTypeDeps (granted : Nat → Bool) (btf : Btf) (options : ClosureOptions) (typeId : Nat)
    (type : BtfType) (run : ClosureRun) : ClosureRun × Except Fault Unit :=
  sweep (addDep granted btf) (typeDeps options typeId type) run

/-- `while (next < worklist.len)`; a cell that was never written has no id to read. -/
def close (granted : Nat → Bool) (btf : Btf) (options : ClosureOptions) :
    Nat → Nat → ClosureRun → ClosureRun × Except Fault Unit
  | 0, _, run => (run, .error .outOfFuel)
  | fuel + 1, next, run =>
      if next < run.worklist.len then
        match run.worklist.cells.getD next none with
        | none => (run, .error .outOfBounds)
        | some current =>
            match btfTypeById btf current with
            | none => (run, fail ("base BTF is missing required type id ".toList ++ decimal current))
            | some type =>
                andThen (addTypeDeps granted btf options current type run)
                  (close granted btf options fuel (next + 1))
      else
        (run, .ok ())

end ClosureRun

/-- The required set and the number of ids added after the call, and what it
returned; `(__u32)id` is what is pushed of an id. -/
def closeInMemory (granted : Nat → Bool) (btf : Btf) (required : TypeSet)
    (options : ClosureOptions) : (TypeSet × Nat) × Except Fault Unit :=
  match worklistInit granted required.selected with
  | .error fault => ((required, 0), .error fault)
  | .ok worklist =>
      let seeded := sweep (fun run id => ClosureRun.push granted run (id % 2 ^ 32))
        (mchTypeSetIds required (required.count + 1) 1) { required, worklist, addedTypes := 0 }
      let closed := andThen seeded (ClosureRun.close granted btf options (required.count + 1) 0)
      ((closed.1.required, closed.1.addedTypes), closed.2)

/-! ## One push -/

/-- How many ids a closure over `count` types can ask room for. -/
def worklistLimit (count : Nat) : Nat := max 16 (2 * count)

/-- A request for memory within the limit was not granted. -/
def OutOfMemory (granted : Nat → Bool) (limit : Nat) (fault : Fault) : Prop :=
  (∃ err, fault = .error err) ∧ ∃ cap ≤ limit, granted cap = false

theorem worklistInit_cases (granted : Nat → Bool) {initialCap count : Nat}
    (hcap : initialCap ≤ count) (hcount : count ≤ 2 ^ 32) :
    (∃ worklist, worklistInit granted initialCap = .ok worklist ∧ worklist.items = [] ∧
      initialCap ≤ worklist.cap ∧ worklist.cap ≤ worklistLimit count) ∨
    ∃ fault, worklistInit granted initialCap = .error fault ∧
      OutOfMemory granted (worklistLimit count) fault := by
  have hsmall : ¬sizeMax / worklistIdSize < (if initialCap < 16 then 16 else initialCap) := by
    unfold sizeMax worklistIdSize
    split <;> omega
  have hlimit : (if initialCap < 16 then 16 else initialCap) ≤ worklistLimit count := by
    unfold worklistLimit
    split <;> omega
  unfold worklistInit
  rw [if_neg hsmall]
  by_cases hgranted : granted (if initialCap < 16 then 16 else initialCap) = true
  · rw [if_pos hgranted]
    refine Or.inl ⟨_, rfl, rfl, ?_, hlimit⟩
    change initialCap ≤ if initialCap < 16 then 16 else initialCap
    split <;> omega
  · rw [if_neg hgranted]
    refine Or.inr ⟨_, rfl, ⟨_, rfl⟩, _, hlimit, ?_⟩
    simpa using hgranted

/-- A push appends the id, or it was refused the room. -/
theorem worklistPush_cases (granted : Nat → Bool) {worklist : ClosureWorklist} {id count : Nat}
    (hlen : worklist.len < count) (hcount : count ≤ 2 ^ 32)
    (hcap : worklist.cap ≤ worklistLimit count) :
    (∃ worklist', worklistPush granted worklist id = .ok worklist' ∧
      worklist'.items = worklist.items ++ [id] ∧ worklist'.cap ≤ worklistLimit count ∧
      (worklist.len < worklist.cap → worklist'.cap = worklist.cap)) ∨
    worklist.len = worklist.cap ∧ ∃ fault, worklistPush granted worklist id = .error fault ∧
      OutOfMemory granted (worklistLimit count) fault := by
  unfold worklistPush
  by_cases hfull : worklist.len = worklist.cap
  · have hsmall : ¬(sizeMax / 2 < worklist.cap ∨
        sizeMax / worklistIdSize < worklist.cap * 2 % 2 ^ 64) := by
      unfold sizeMax worklistIdSize
      omega
    have hlimit : worklist.cap * 2 ≤ worklistLimit count := by
      unfold worklistLimit
      omega
    rw [dif_pos hfull, if_neg hsmall]
    by_cases hgranted : granted (worklist.cap * 2) = true
    · rw [if_pos hgranted]
      refine Or.inl ⟨_, rfl, ?_, hlimit, fun hlt => absurd hfull (Nat.ne_of_lt hlt)⟩
      rw [ClosureWorklist.items_append, ClosureWorklist.items_double]
    · rw [if_neg hgranted]
      refine Or.inr ⟨hfull, _, rfl, ⟨_, rfl⟩, _, hlimit, ?_⟩
      simpa using hgranted
  · rw [dif_neg hfull]
    exact Or.inl ⟨_, rfl, worklist.items_append id _, hcap, fun _ => rfl⟩

/-! ## A run follows the plain closure -/

/-- The run is where the plain closure is, with `next` ids read. -/
structure ClosureRun.Mirrors (btf : Btf) (next : Nat) (run : ClosureRun) (state : ClosureState) :
    Prop where
  required : run.required = state.required
  addedTypes : run.addedTypes = state.addedTypes
  pending : run.worklist.items.drop next = state.worklist
  next_le : next ≤ run.worklist.len
  count_eq : run.required.count = btfTypeCnt btf
  len_eq : run.worklist.len = run.required.ids.ncard
  cap_le : run.worklist.cap ≤ worklistLimit (btfTypeCnt btf)

/-- Reading the next id takes the head off the plain worklist. -/
theorem ClosureRun.Mirrors.read {btf : Btf} {next : Nat} {run : ClosureRun}
    {state : ClosureState} (h : run.Mirrors btf next state) (hnext : next < run.worklist.len) :
    ∃ current rest, state.worklist = current :: rest ∧
      run.worklist.cells.getD next none = some current ∧
        run.Mirrors btf (next + 1) { state with worklist := rest } := by
  have hlt : next < run.worklist.items.length := by
    rw [Buffer.length_items]
    exact hnext
  refine ⟨run.worklist.items[next], run.worklist.items.drop (next + 1), ?_, ?_, ?_⟩
  · rw [← h.pending, List.drop_eq_getElem_cons hlt]
  · exact run.worklist.cells_getD hlt
  · exact ⟨h.required, h.addedTypes, rfl, hnext, h.count_eq, h.len_eq, h.cap_le⟩

section

variable {granted : Nat → Bool} {btf : Btf} {next : Nat} (hformat : btfTypeCnt btf ≤ 2 ^ 32)

include hformat

/-- A new id in the set leaves room for it in the worklist. -/
theorem ClosureRun.addDep_follows {run : ClosureRun} {state : ClosureState}
    (h : run.Mirrors btf next state) (id : Nat) :
    Follows (ClosureRun.Mirrors btf next) (OutOfMemory granted (worklistLimit (btfTypeCnt btf)))
      (run.addDep granted btf id) (MinCorehdr.addDep btf state id) := by
  unfold ClosureRun.addDep MinCorehdr.addDep
  by_cases hzero : id = 0
  · rw [if_pos hzero, if_pos hzero]
    exact .of_ok h
  rw [if_neg hzero, if_neg hzero]
  by_cases hrange : btfTypeCnt btf ≤ id
  · rw [if_pos hrange, if_pos hrange]
    exact .of_error
  rw [if_neg hrange, if_neg hrange, ← h.required]
  have hlt : id < run.required.count := by
    rw [h.count_eq]
    omega
  have hids := ids_mchTypeSetAdd hzero hlt
  have hnew := mchTypeSetAdd_snd run.required id
  have hcount := count_mchTypeSetAdd run.required id
  cases hadd : mchTypeSetAdd run.required id with
  | mk required fresh =>
      rw [hadd] at hids hnew hcount
      change required.count = run.required.count at hcount
      change required.ids = insert id run.required.ids at hids
      cases fresh with
      | false =>
          have hsame : required = run.required := by
            have hset : (mchTypeSetAdd run.required id).1 = run.required :=
              mchTypeSetAdd_of_snd_false (by rw [hadd])
            rwa [hadd] at hset
          rw [if_neg Bool.false_ne_true, hsame]
          refine .of_ok ⟨rfl, h.addedTypes, h.pending, h.next_le, h.count_eq, h.len_eq, h.cap_le⟩
      | true =>
          have hnot : id ∉ run.required.ids := by
            rintro ⟨_, hold⟩
            rw [(hnew.mp rfl).2] at hold
            cases hold
          have hcard := Set.ncard_insert_of_notMem hnot run.required.finite_ids
          rw [← hids, ← h.len_eq] at hcard
          have hroom := required.ncard_ids_le
          have hlen := run.worklist.length_items
          rw [if_pos rfl]
          unfold ClosureRun.push
          rcases worklistPush_cases granted (show run.worklist.len < btfTypeCnt btf by
              rw [hcount, h.count_eq] at hroom
              omega) hformat h.cap_le with
            ⟨worklist, hpush, hitems, hcap, _⟩ | ⟨_, fault, hpush, hrefused⟩
          · rw [hpush]
            have hlen' := worklist.length_items
            rw [hitems, List.length_append, List.length_singleton, hlen] at hlen'
            refine .of_ok ⟨rfl, congrArg (· + 1) h.addedTypes, ?_, ?_, hcount.trans h.count_eq, ?_, hcap⟩
            · change worklist.items.drop next = state.worklist ++ [id]
              rw [hitems, List.drop_append_of_le_length (by rw [hlen]; exact h.next_le), h.pending]
            · change next ≤ worklist.len
              have hnext := h.next_le
              omega
            · change worklist.len = required.ids.ncard
              omega
          · rw [hpush]
            exact .of_refused hrefused

theorem ClosureRun.addTypeDeps_follows {run : ClosureRun} {state : ClosureState}
    (h : run.Mirrors btf next state) (options : ClosureOptions) (typeId : Nat) (type : BtfType) :
    Follows (ClosureRun.Mirrors btf next) (OutOfMemory granted (worklistLimit (btfTypeCnt btf)))
      (run.addTypeDeps granted btf options typeId type)
      (MinCorehdr.addTypeDeps btf options typeId type state) :=
  Follows.sweep (fun id _ _ _ h => ClosureRun.addDep_follows hformat h id) run state h

theorem ClosureRun.close_follows {options : ClosureOptions} {fuel : Nat} :
    ∀ {next : Nat} {run : ClosureRun} {state : ClosureState}, run.Mirrors btf next state →
      Follows (fun run state => run.required = state.required ∧ run.addedTypes = state.addedTypes)
        (OutOfMemory granted (worklistLimit (btfTypeCnt btf)))
        (run.close granted btf options fuel next) (closeWorklist btf options fuel state) := by
  induction fuel with
  | zero =>
      intro next run state _
      exact .of_error
  | succ fuel ih =>
      intro next run state h
      rw [ClosureRun.close, closeWorklist]
      by_cases hnext : next < run.worklist.len
      · obtain ⟨current, rest, hcons, hread, hmirrors⟩ := h.read hnext
        rw [if_pos hnext, hread, hcons]
        simp only
        cases htype : btfTypeById btf current with
        | none => exact .of_error
        | some type =>
            exact (ClosureRun.addTypeDeps_follows hformat hmirrors options current type).andThen
              fun _ _ h => ih h
      · have hnil : state.worklist = [] := by
          rw [← h.pending, List.drop_eq_nil_iff, Buffer.length_items]
          omega
        rw [if_neg hnext, hnil]
        exact .of_ok ⟨h.required, h.addedTypes⟩

end

/-! ## The ids the closure starts with -/

/-- Where there is room for all of them, ids are pushed without a request. -/
theorem ClosureRun.sweep_push {granted : Nat → Bool} {count : Nat} (hformat : count ≤ 2 ^ 32)
    {ids : List Nat} : ∀ {run : ClosureRun}, run.worklist.len + ids.length ≤ run.worklist.cap →
      run.worklist.len + ids.length ≤ count → run.worklist.cap ≤ worklistLimit count →
      (∀ id ∈ ids, id < 2 ^ 32) →
      ∃ worklist, sweep (fun run id => ClosureRun.push granted run (id % 2 ^ 32)) ids run =
          ({ run with worklist }, .ok ()) ∧
        worklist.items = run.worklist.items ++ ids ∧ worklist.cap = run.worklist.cap := by
  induction ids with
  | nil =>
      intro run _ _ _ _
      exact ⟨run.worklist, rfl, (List.append_nil _).symm, rfl⟩
  | cons id ids ih =>
      intro run hroom hcount hcap hids
      rw [List.length_cons] at hroom hcount
      rcases @worklistPush_cases granted run.worklist id count (by omega) hformat hcap with
        ⟨worklist, hpush, hitems, hcap', hsame⟩ | ⟨hfull, _⟩
      · have hlen := congrArg List.length hitems
        rw [List.length_append, List.length_singleton, Buffer.length_items,
          Buffer.length_items] at hlen
        have hsame := hsame (by omega)
        have hmod : id % 2 ^ 32 = id := Nat.mod_eq_of_lt (hids id List.mem_cons_self)
        have hstep : ClosureRun.push granted run (id % 2 ^ 32) = ({ run with worklist }, .ok ()) := by
          unfold ClosureRun.push
          rw [hmod, hpush]
        obtain ⟨final, hsweep, hfinal, hfinalCap⟩ := @ih { run with worklist }
          (by change worklist.len + ids.length ≤ worklist.cap; omega)
          (by change worklist.len + ids.length ≤ count; omega) hcap'
          (fun other hother => hids other (List.mem_cons_of_mem id hother))
        refine ⟨final, ?_, ?_, hfinalCap.trans hsame⟩
        · rw [sweep, hstep, andThen_of_ok rfl]
          exact hsweep
        · change final.items = worklist.items ++ ids at hfinal
          rw [hfinal, hitems, List.append_assoc, List.singleton_append]
      · omega

/-! ## What the caller is left with -/

/-- Nothing but what the closure of the seeds has is in the set or on the worklist. -/
structure ClosureRun.Between (btf : Btf) (options : ClosureOptions) (seeds : TypeSet)
    (run : ClosureRun) : Prop where
  seeds_subset : seeds.ids ⊆ run.required.ids
  reached : ∀ id ∈ run.required.ids, ClosureReaches btf options seeds id
  pending : ∀ id ∈ run.worklist.items, ClosureReaches btf options seeds id

theorem worklistPush_items {granted : Nat → Bool} {worklist worklist' : ClosureWorklist} {id : Nat}
    (h : worklistPush granted worklist id = .ok worklist') :
    worklist'.items = worklist.items ++ [id] := by
  unfold worklistPush at h
  split at h
  next =>
    split at h
    next => cases h
    next =>
      split at h
      next =>
        cases h
        rw [ClosureWorklist.items_append, ClosureWorklist.items_double]
      next => cases h
  next =>
    cases h
    rw [ClosureWorklist.items_append]

section

variable {granted : Nat → Bool} {btf : Btf} {options : ClosureOptions} {seeds : TypeSet}
  {run : ClosureRun}

theorem ClosureRun.push_between (h : run.Between btf options seeds) {id : Nat}
    (hid : ClosureReaches btf options seeds id) :
    (run.push granted id).1.Between btf options seeds := by
  unfold ClosureRun.push
  cases hpush : worklistPush granted run.worklist id with
  | error fault => exact h
  | ok worklist =>
      refine ⟨h.seeds_subset, h.reached, ?_⟩
      change ∀ other ∈ worklist.items, ClosureReaches btf options seeds other
      rw [worklistPush_items hpush]
      intro other hother
      rcases List.mem_append.mp hother with hother | hother
      · exact h.pending other hother
      · rw [List.mem_singleton.mp hother]
        exact hid

theorem ClosureRun.addDep_between (h : run.Between btf options seeds) {id : Nat}
    (hid : id ≠ 0 → ClosureReaches btf options seeds id) :
    (run.addDep granted btf id).1.Between btf options seeds := by
  unfold ClosureRun.addDep
  by_cases hzero : id = 0
  · rw [if_pos hzero]
    exact h
  rw [if_neg hzero]
  by_cases hrange : btfTypeCnt btf ≤ id
  · rw [if_pos hrange]
    exact h
  rw [if_neg hrange]
  have hadded : ClosureRun.Between btf options seeds
      { run with required := (mchTypeSetAdd run.required id).1 } := by
    have hcontains := contains_mchTypeSetAdd run.required id
    refine ⟨?_, ?_, h.pending⟩
    · intro other hother
      obtain ⟨hother, hold⟩ := h.seeds_subset hother
      exact ⟨hother, (hcontains other).mpr (Or.inl hold)⟩
    · intro other hother
      rcases (hcontains other).mp hother.2 with hold | ⟨rfl, _⟩
      · exact h.reached other ⟨hother.1, hold⟩
      · exact hid hzero
  by_cases hfresh : (mchTypeSetAdd run.required id).2 = true
  · rw [if_pos hfresh]
    apply andThen_keeps (ClosureRun.push_between hadded (hid hzero))
    intro run hrun
    exact ⟨hrun.seeds_subset, hrun.reached, hrun.pending⟩
  · rw [if_neg hfresh]
    exact hadded

theorem ClosureRun.close_between {fuel : Nat} : ∀ {next : Nat} {run : ClosureRun},
    run.Between btf options seeds →
      (run.close granted btf options fuel next).1.Between btf options seeds := by
  induction fuel with
  | zero => exact fun h => h
  | succ fuel ih =>
      intro next run h
      rw [ClosureRun.close]
      by_cases hnext : next < run.worklist.len
      · have hlt : next < run.worklist.items.length := by
          rw [Buffer.length_items]
          exact hnext
        rw [if_pos hnext, run.worklist.cells_getD hlt]
        simp only
        cases htype : btfTypeById btf run.worklist.items[next] with
        | none => exact h
        | some type =>
            obtain ⟨seed, hseed, hreach⟩ := h.pending _ (List.getElem_mem hlt)
            refine andThen_keeps ?_ fun _ h => ih h
            refine sweep_keeps (P := ClosureRun.Between btf options seeds) ?_ run h
            intro id hdep run hrun
            apply ClosureRun.addDep_between hrun
            intro hzero
            exact ⟨seed, hseed, hreach.tail ((closureNext_iff htype).mpr ⟨hdep, hzero⟩)⟩
      · rw [if_neg hnext]
        exact h

end

/-- The closure in memory returns; whatever it returns, it has only added ids of the
closure.  It succeeds with what the plain closure yields, and fails as that one fails
or because a request of at most twice the number of types was refused. -/
theorem closeInMemory_exact {granted : Nat → Bool} {btf : Btf} {options : ClosureOptions}
    {seeds closed : TypeSet} {added : Nat} {result : Except Fault Unit}
    (hformat : btfTypeCnt btf ≤ 2 ^ 32) (hcount : seeds.count = btfTypeCnt btf)
    (h : closeInMemory granted btf seeds options = ((closed, added), result)) :
    Returns result ∧
    (seeds.ids ⊆ closed.ids ∧ ∀ id ∈ closed.ids, ClosureReaches btf options seeds id) ∧
    (result = .ok () →
      mchComputeDependencyClosureWithOptions btf seeds options = .ok (closed, added)) ∧
    (∀ fault, result = .error fault →
      mchComputeDependencyClosureWithOptions btf seeds options = .error fault ∨
        OutOfMemory granted (worklistLimit (btfTypeCnt btf)) fault) ∧
    ((∀ cap ≤ worklistLimit (btfTypeCnt btf), granted cap = true) →
      result = (mchComputeDependencyClosureWithOptions btf seeds options).map fun _ => ()) := by
  have hseed : ∀ id ∈ seeds.ids, ClosureReaches btf options seeds id :=
    fun id hid => ⟨id, hid, .refl⟩
  have hselected : (mchTypeSetIds seeds (seeds.count + 1) 1).length ≤ seeds.selected :=
    (drains_mchTypeSetIds (by omega)).length_le
  have hle : seeds.selected ≤ btfTypeCnt btf := by
    rw [seeds.selected_eq, ← hcount]
    exact List.countP_le_length.trans_eq List.length_range
  obtain ⟨hbetween, hfollows⟩ : (seeds.ids ⊆ closed.ids ∧
      ∀ id ∈ closed.ids, ClosureReaches btf options seeds id) ∧
      Follows (fun out state => out = state)
        (OutOfMemory granted (worklistLimit (btfTypeCnt btf))) ((closed, added), result)
        (mchComputeDependencyClosureWithOptions btf seeds options) := by
    unfold closeInMemory at h
    rcases worklistInit_cases granted hle hformat with
      ⟨worklist, hinit, hitems, hroom, hcap⟩ | ⟨fault, hinit, hrefused⟩
    · rw [hinit] at h
      have hlen := worklist.length_items
      rw [hitems, List.length_nil] at hlen
      obtain ⟨full, hsweep, hfull, hfullCap⟩ := @ClosureRun.sweep_push granted (btfTypeCnt btf)
        hformat (mchTypeSetIds seeds (seeds.count + 1) 1)
        { required := seeds, worklist, addedTypes := 0 }
        (by change worklist.len + _ ≤ worklist.cap; omega)
        (by change worklist.len + _ ≤ _; omega) hcap (by
          intro id hid
          have hlt := lt_count_of_contains ((mem_seedIds id).mp hid).2
          omega)
      change full.items = worklist.items ++ _ at hfull
      rw [hitems, List.nil_append] at hfull
      simp only [hsweep, andThen_of_ok] at h
      have hbetween : ClosureRun.Between btf options seeds
          { required := seeds, worklist := full, addedTypes := 0 } := by
        refine ⟨subset_rfl, hseed, ?_⟩
        intro id hid
        change id ∈ full.items at hid
        rw [hfull] at hid
        exact hseed id ((mem_seedIds id).mp hid)
      have hmirrors : ClosureRun.Mirrors btf 0
          { required := seeds, worklist := full, addedTypes := 0 }
          { required := seeds, worklist := mchTypeSetIds seeds (seeds.count + 1) 1,
            addedTypes := 0 } := by
        refine ⟨rfl, rfl, hfull, Nat.zero_le _, hcount, ?_, hfullCap.trans_le hcap⟩
        rw [← length_seedIds, ← hfull]
        exact full.length_items.symm
      have hclose := @ClosureRun.close_follows granted btf hformat options (seeds.count + 1) 0 _ _
        hmirrors
      cases h
      refine ⟨?_, ?_, ?_⟩
      · have hend := @ClosureRun.close_between granted btf options seeds (seeds.count + 1) 0 _ hbetween
        exact ⟨hend.seeds_subset, hend.reached⟩
      · intro hok
        obtain ⟨state, hplain, hrequired, hadded⟩ := hclose.ok hok
        refine ⟨(state.required, state.addedTypes), ?_, by rw [hrequired, hadded]⟩
        exact bind_eq_ok.mpr ⟨state, hplain, rfl⟩
      · intro fault hfault
        rcases hclose.error fault hfault with hplain | hrefused
        · exact Or.inl (bind_eq_error.mpr (Or.inl hplain))
        · exact Or.inr hrefused
    · rw [hinit] at h
      cases h
      exact ⟨⟨subset_rfl, hseed⟩, .of_refused hrefused⟩
  refine ⟨?_, hbetween, ?_, hfollows.error, ?_⟩
  · cases result with
    | ok done => exact Or.inl ⟨done, rfl⟩
    | error fault =>
        rcases hfollows.error fault rfl with hplain | hrefused
        · obtain ⟨⟨err, rfl⟩, _⟩ := closure_eq_error hcount hplain
          exact Or.inr ⟨err, rfl⟩
        · obtain ⟨⟨err, rfl⟩, _⟩ := hrefused
          exact Or.inr ⟨err, rfl⟩
  · intro hok
    obtain ⟨state, hplain, rfl⟩ := hfollows.ok hok
    exact hplain
  · intro hgranted
    cases result with
    | ok done =>
        obtain ⟨state, hplain, _⟩ := hfollows.ok rfl
        rw [hplain]
        rfl
    | error fault =>
        rcases hfollows.error fault rfl with hplain | ⟨_, cap, hcap, hrefused⟩
        · rw [hplain]
          rfl
        · rw [hgranted cap hcap] at hrefused
          cases hrefused

/-- With pointers followed, the three types of the list are closed in one request. -/
theorem closeInMemory_exact_linkedList :
    Returns (.ok () : Except Fault Unit) ∧
      mchComputeDependencyClosureWithOptions linkedList
          (mchTypeSetAdd (mchTypeSetInit 4) 1).1 { expandPointers := true } =
        .ok (closeInMemory (fun cap => decide (cap = 16)) linkedList
          (mchTypeSetAdd (mchTypeSetInit 4) 1).1 { expandPointers := true }).1 := by
  have hrun := @closeInMemory_exact (fun cap => decide (cap = 16)) linkedList
    { expandPointers := true } (mchTypeSetAdd (mchTypeSetInit 4) 1).1 _ _ _ (by decide) (by decide)
    rfl
  exact ⟨hrun.1, hrun.2.2.1 rfl⟩

end MinCorehdr
