import MinCorehdr.Seeds.AccessPath
import MinCorehdr.Store

/-!
# The access walk and the path it should follow

The walk reads every component as a member index of the record it comes to, with
arrays and pointers passed on the way.  On a path that selects members only, and
where each member is the first of its name, it stays in step with the path; an
element index is read as a member index of the element.
-/

namespace MinCorehdr

open Support.Result

/-- The computation succeeds and adds these members to the store, and nothing else. -/
def AddsMembers (state : SeedState) (result : Except Fault SeedState)
    (members : List (Nat × Nat)) : Prop :=
  ∃ state', result = .ok state' ∧ ∀ key, state'.requirements.holds key = true ↔
    state.requirements.holds key = true ∨
      ∃ recordId i, (recordId, i) ∈ members ∧ key = .member recordId i

/-- No earlier member has the name, unless it is empty. -/
def FirstOfName (btf : Btf) (record : BtfType) (i : Nat) : Prop :=
  ∀ j < i, ∀ earlier ∈ record.members[j]?, ∀ member ∈ record.members[i]?,
    isNamed (btfNameByOffset btf member.nameOff) = true →
      btfNameByOffset btf earlier.nameOff ≠ btfNameByOffset btf member.nameOff

instance (btf : Btf) (record : BtfType) (i : Nat) : Decidable (FirstOfName btf record i) :=
  inferInstanceAs (Decidable (∀ j < i, ∀ earlier ∈ record.members[j]?,
    ∀ member ∈ record.members[i]?, isNamed (btfNameByOffset btf member.nameOff) = true →
      btfNameByOffset btf earlier.nameOff ≠ btfNameByOffset btf member.nameOff))

/-- The record is within the 64 lookups of `peel_access_type`, and the member is the
first of its name. -/
def PathStep.MemberFound (btf : Btf) : PathStep → Prop
  | .member typeId recordId i => (peelToRecord btf typeId).isSome = true ∧
      ∀ record ∈ btfTypeById btf recordId, FirstOfName btf record i
  | .element _ => True

instance (btf : Btf) : ∀ step : PathStep, Decidable (step.MemberFound btf)
  | .member typeId recordId i =>
      inferInstanceAs (Decidable ((peelToRecord btf typeId).isSome = true ∧
        ∀ record ∈ btfTypeById btf recordId, FirstOfName btf record i))
  | .element _ => inferInstanceAs (Decidable True)

def PathStep.isMember : PathStep → Bool
  | .member _ _ _ => true
  | .element _ => false

/-- Where the step is to an element, the array has one of this index. -/
def PathStep.HasIndex (btf : Btf) (c : Nat) : PathStep → Prop
  | .member _ _ _ => True
  | .element typeId => ∀ arrayId array, Strips btf typeId arrayId →
      btfTypeById btf arrayId = some array → array.kind = .array → c < array.array.nelems

/-- Where the step is to an element, the array has more of them than the record that is found
behind it has members. -/
def PathStep.Outnumbers (btf : Btf) : PathStep → Prop
  | .member _ _ _ => True
  | .element typeId => ∀ recordId record, peelToRecord btf typeId = some (recordId, record) →
      (PathStep.element typeId).HasIndex btf record.members.length

section

variable {btf : Btf} {state : SeedState}

/-- On a base within the format a valid member is recorded. -/
theorem requireMember_succeeds {recordId i : Nat} {origin : Option RequirementOrigin}
    (hformat : btf.InFormat) (hstore : state.requirements.Consistent btf)
    (hvalid : (RequirementKey.member recordId i).Valid btf) :
    ∃ state', requireMember btf state recordId i origin = .ok state' ∧
      state'.requirements.Consistent btf ∧
        ∀ key, state'.requirements.holds key = true ↔
          state.requirements.holds key = true ∨ key = .member recordId i := by
  have hsucceeds := @addRequirement_succeeds btf state.requirements _ origin hstore hvalid
    (Or.inr (hstore.exists_capacity hformat))
  cases hadd : addRequirement btf state.requirements origin (.member recordId i) with
  | mk requirements' result =>
      rw [hadd] at hsucceeds
      obtain rfl : result = .ok () := hsucceeds
      obtain ⟨_, hstore', hholds⟩ := addRequirement_spec hstore hadd
      refine ⟨{ requirements := requirements', seeds := (mchTypeSetAdd state.seeds recordId).1 },
        ?_, hstore', hholds⟩
      have hmember : mchRequirementsAddRecordMember allGranted btf state.requirements recordId i
          origin = (requirements', .ok ()) := hadd
      unfold requireMember
      rw [hmember]
      rfl

theorem findBaseMember_self {record : BtfType} {i : Nat} {member : BtfMember}
    (hmember : record.members[i]? = some member) (hfirst : FirstOfName btf record i) :
    findBaseMember btf record (btfNameByOffset btf member.nameOff) i = some i := by
  obtain ⟨hi, hget⟩ := List.getElem?_eq_some_iff.mp hmember
  unfold findBaseMember
  split
  next c name hname =>
    rw [List.findIdx?_eq_some_iff_getElem]
    refine ⟨hi, by simp [hget, hname], ?_⟩
    intro j hj
    have hlt : j < record.members.length := by omega
    have hne := hfirst j hj record.members[j] (List.getElem?_eq_getElem hlt) member hmember
      (by rw [hname]; rfl)
    rw [hname] at hne
    simpa using hne
  next => rw [if_neg (Nat.not_le.mpr hi)]

/-- One component that selects a member. -/
theorem markBaseMemberPath_self {record : BtfType} {recordId i levels : Nat} {member : BtfMember}
    {origin : Option RequirementOrigin} (hformat : btf.InFormat)
    (hstore : state.requirements.Consistent btf) (hrecord : btfTypeById btf recordId = some record)
    (hkind : record.kind.isRecord = true) (hmember : record.members[i]? = some member)
    (hfirst : FirstOfName btf record i) :
    ∃ state', markBaseMemberPath btf (btfNameByOffset btf member.nameOff) origin (levels + 1) i state
        recordId record = .ok (state', some member.type) ∧
      state'.requirements.Consistent btf ∧
        ∀ key, state'.requirements.holds key = true ↔
          state.requirements.holds key = true ∨ key = .member recordId i := by
  obtain ⟨hi, _⟩ := List.getElem?_eq_some_iff.mp hmember
  have hlength := hformat.members_lt recordId record hrecord
  have hcount := hformat.count_le
  have hid := btfTypeById_eq_some_lt hrecord
  have hmax : uint32Max = 2 ^ 32 - 1 := rfl
  have hvalid : (RequirementKey.member recordId i).Valid btf :=
    ⟨by omega, by omega, record, hrecord, hkind, hi⟩
  obtain ⟨state', hrequire, hstore', hholds⟩ :=
    @requireMember_succeeds btf state recordId i origin hformat hstore hvalid
  refine ⟨state', ?_, hstore', hholds⟩
  rw [markBaseMemberPath, findBaseMember_self hmember hfirst]
  simp only
  rw [hrequire, hmember]
  rfl

end

section

variable {btf : Btf} {path access : CString} {origin : Option RequirementOrigin}

/-- A component that selects a member takes the walk to the member's type. -/
theorem recordAccessPath_member (hformat : btf.InFormat) {id recordId i fuel : Nat}
    {record : BtfType} {member : BtfMember} {cs : List Nat} {state : SeedState}
    (hstrips : Strips btf id recordId) (hrecord : btfTypeById btf recordId = some record)
    (hkind : record.kind.isRecord = true) (hmember : record.members[i]? = some member)
    (hi : i ≤ uint32Max) (hfound : (PathStep.member id recordId i).MemberFound btf)
    (hstore : state.requirements.Consistent btf) :
    ∃ state', recordAccessPath btf btf path access origin (fuel + 1) (accessText (i :: cs)) id id
        state = recordAccessPath btf btf path access origin fuel (accessText cs) member.type
          member.type state' ∧
      state'.requirements.Consistent btf ∧
        ∀ key, state'.requirements.holds key = true ↔
          state.requirements.holds key = true ∨ key = .member recordId i := by
  obtain ⟨hpeels, hfirst⟩ := hfound
  obtain ⟨found, hpeel⟩ := Option.isSome_iff_exists.mp hpeels
  obtain rfl := peelToRecord_of_strips hstrips hrecord hkind hpeel
  obtain ⟨state', hmark, hstore', hholds⟩ :=
    @markBaseMemberPath_self btf state record recordId i 16 member origin hformat hstore hrecord hkind
      hmember (hfirst record hrecord)
  refine ⟨state', ?_, hstore', hholds⟩
  rw [recordAccessPath, if_neg (accessText_ne_nil i cs), parseAccessComponent_accessText hi]
  simp only [hpeel, hmember]
  rw [hmark]
  rfl

/-- The walk over components that select members. -/
theorem recordAccessPath_members (hformat : btf.InFormat) {id : Nat} {cs : List Nat}
    {steps : List PathStep} (h : CorePath btf id cs steps) :
    ∀ {fuel : Nat} {state : SeedState}, cs.length < fuel → (∀ c ∈ cs, c ≤ uint32Max) →
      (∀ step ∈ steps, step.isMember = true ∧ step.MemberFound btf) →
        state.requirements.Consistent btf →
          AddsMembers state
            (recordAccessPath btf btf path access origin fuel (accessText cs) id id state)
            (pathMembers steps) := by
  induction h with
  | nil =>
      intro fuel state hfuel _ _ _
      obtain ⟨fuel, rfl⟩ := Nat.exists_eq_add_of_lt hfuel
      refine ⟨state, rfl, fun key => ?_⟩
      simp [pathMembers]
  | @member id recordId i record member cs steps hstrips hrecord hkind hmember _ ih =>
      intro fuel state hfuel hrange hsteps hstore
      obtain ⟨_, hfound⟩ := hsteps _ List.mem_cons_self
      obtain ⟨fuel, rfl⟩ : ∃ less, fuel = less + 1 := ⟨fuel - 1, by omega⟩
      obtain ⟨mid, hrun, hmid, hholds⟩ := @recordAccessPath_member btf path access origin hformat id
        recordId i fuel record member cs state hstrips hrecord hkind hmember
        (hrange i List.mem_cons_self) hfound hstore
      rw [List.length_cons] at hfuel
      obtain ⟨last, hlast, hadded⟩ := @ih fuel mid (by omega)
        (fun c hc => hrange c (List.mem_cons_of_mem _ hc))
        (fun step hstep => hsteps step (List.mem_cons_of_mem _ hstep)) hmid
      refine ⟨last, hrun.trans hlast, fun key => ?_⟩
      have hcons : pathMembers (.member id recordId i :: steps) =
          (recordId, i) :: pathMembers steps := rfl
      rw [hadded, hholds, hcons]
      constructor
      · rintro ((hold | rfl) | ⟨recordId', i', hmem, rfl⟩)
        · exact Or.inl hold
        · exact Or.inr ⟨recordId, i, List.mem_cons_self, rfl⟩
        · exact Or.inr ⟨recordId', i', List.mem_cons_of_mem _ hmem, rfl⟩
      · rintro (hold | ⟨recordId', i', hmem, rfl⟩)
        · exact Or.inl (Or.inl hold)
        · rcases List.mem_cons.mp hmem with heq | hmem
          · cases heq
            exact Or.inl (Or.inr rfl)
          · exact Or.inr ⟨recordId', i', hmem, rfl⟩
  | element =>
      intro fuel state _ _ hsteps _
      obtain ⟨hmember, _⟩ := hsteps _ List.mem_cons_self
      cases hmember

/-- An index of an array that the record of its elements has not as a member index stops the
walk. -/
theorem recordAccessPath_fails (hformat : btf.InFormat) {id : Nat} {cs : List Nat}
    {steps : List PathStep} (h : CorePath btf id cs steps) :
    (∀ c ∈ cs, c ≤ uint32Max) → List.Forall₂ (fun c step => step.HasIndex btf c) cs steps →
      (∀ step ∈ steps, step.MemberFound btf ∧ step.Outnumbers btf) →
      (∃ step ∈ steps, step.isMember = false) →
        ∃ cs', CorePath btf id cs' steps ∧ (∀ c ∈ cs', c ≤ uint32Max) ∧
          List.Forall₂ (fun c step => step.HasIndex btf c) cs' steps ∧
          ∀ {text : CString} {fuel : Nat} {state : SeedState}, state.requirements.Consistent btf →
            ∀ state', recordAccessPath btf btf path text origin fuel (accessText cs') id id state ≠
              .ok state' := by
  induction h with
  | nil =>
      rintro _ _ _ ⟨_, hstep, _⟩
      cases hstep
  | @member id recordId i record member cs steps hstrips hrecord hkind hmember hrest ih =>
      rintro hrange hall hsteps ⟨step, hstep, hnot⟩
      obtain ⟨hfirst, hindexes⟩ := List.forall₂_cons.mp hall
      have hi := hrange i List.mem_cons_self
      have hmem : step ∈ steps := by
        rcases List.mem_cons.mp hstep with rfl | hmem
        · cases hnot
        · exact hmem
      obtain ⟨cs', hpath, hrange', hindexes', hfails⟩ := ih
        (fun c hc => hrange c (List.mem_cons_of_mem _ hc)) hindexes
        (fun step hstep => hsteps step (List.mem_cons_of_mem _ hstep)) ⟨step, hmem, hnot⟩
      refine ⟨i :: cs', .member hstrips hrecord hkind hmember hpath, ?_, .cons hfirst hindexes', ?_⟩
      · intro c hc
        rcases List.mem_cons.mp hc with rfl | hc
        · exact hi
        · exact hrange' c hc
      · intro text fuel state hstore state' hok
        cases fuel with
        | zero => cases hok
        | succ fuel =>
            obtain ⟨mid, hrun, hmid, _⟩ := @recordAccessPath_member btf path text origin hformat id
              recordId i fuel record member cs' state hstrips hrecord hkind hmember hi
              (hsteps _ List.mem_cons_self).1 hstore
            exact hfails hmid state' (hrun.symm.trans hok)
  | @element id arrayId i array cs steps hstrips harray hkind hrest _ =>
      intro hrange hall hsteps _
      obtain ⟨hfirst, hindexes⟩ := List.forall₂_cons.mp hall
      -- an index that the walk finds no member for
      obtain ⟨c, hc, hindex, hnone⟩ : ∃ c ≤ uint32Max, (PathStep.element id).HasIndex btf c ∧
          ∀ found, peelToRecord btf id = some found → found.2.members[c]? = none := by
        cases hpeel : peelToRecord btf id with
        | none => exact ⟨i, hrange i List.mem_cons_self, hfirst, fun found hfound => by cases hfound⟩
        | some found =>
            obtain ⟨recordId, record⟩ := found
            have hlength := hformat.members_lt recordId record (btfTypeById_of_peelToRecord hpeel).1
            have hmax : uint32Max = 2 ^ 32 - 1 := rfl
            refine ⟨record.members.length, by omega,
              (hsteps _ List.mem_cons_self).2 recordId record hpeel, ?_⟩
            rintro _ ⟨⟩
            exact List.getElem?_eq_none (Nat.le_refl _)
      refine ⟨c :: cs, .element hstrips harray hkind hrest, ?_, .cons hindex hindexes, ?_⟩
      · intro c' hc'
        rcases List.mem_cons.mp hc' with rfl | hc'
        · exact hc
        · exact hrange c' (List.mem_cons_of_mem _ hc')
      · intro text fuel state _ state' hok
        cases fuel with
        | zero => cases hok
        | succ fuel =>
            rw [recordAccessPath, if_neg (accessText_ne_nil _ cs),
              parseAccessComponent_accessText hc] at hok
            cases hpeel : peelToRecord btf id with
            | none =>
                simp only [hpeel] at hok
                cases hok
            | some found =>
                simp only [hpeel, hnone found hpeel] at hok
                cases hok

end

/-- A field relocation against the base it was compiled for.  Where its path selects
members only, and each is found, the walk adds exactly the path; and where the members
of a path are found, and its arrays have more elements than the records behind them have
members, the walk adds it for all indexes of the arrays only if it passes none. -/
theorem recordCoreReloRequirements_followsPath {btf : Btf} {state : SeedState} {relo : CoreRelo}
    {root : Nat} {cs : List Nat} {steps : List PathStep} (path : CString)
    (origin : Option RequirementOrigin) (hformat : btf.InFormat)
    (hstore : state.requirements.Consistent btf) (hkind : isFieldReloKind relo.kind = true)
    (hroot : root ≤ uint32Max) (hrange : ∀ c ∈ cs, c ≤ uint32Max)
    (hpath : CorePath btf relo.typeId cs steps) :
    ((∀ step ∈ steps, step.isMember = true ∧ step.MemberFound btf) →
      AddsMembers state (recordCoreReloRequirements btf btf path relo relo.typeId
        (some (accessText (root :: cs))) origin state) (pathMembers steps)) ∧
    (List.Forall₂ (fun c step => step.HasIndex btf c) cs steps →
      (∀ step ∈ steps, step.MemberFound btf ∧ step.Outnumbers btf) →
      (∀ cs', CorePath btf relo.typeId cs' steps → (∀ c ∈ cs', c ≤ uint32Max) →
        List.Forall₂ (fun c step => step.HasIndex btf c) cs' steps →
        AddsMembers state (recordCoreReloRequirements btf btf path relo relo.typeId
          (some (accessText (root :: cs'))) origin state) (pathMembers steps)) →
        ∀ step ∈ steps, step.isMember = true) := by
  have hrun : ∀ cs', recordCoreReloRequirements btf btf path relo relo.typeId
      (some (accessText (root :: cs'))) origin state =
        recordAccessPath btf btf path (accessText (root :: cs')) origin
          ((accessText (root :: cs')).length + 1) (accessText cs') relo.typeId relo.typeId state := by
    intro cs'
    have hnot : ¬(isFieldReloKind relo.kind = false ∨ accessText (root :: cs') = []) := by
      rw [hkind]
      rintro (hfalse | hnil)
      · cases hfalse
      · exact accessText_ne_nil root cs' hnil
    rw [recordCoreReloRequirements, if_neg hnot, parseAccessComponent_accessText hroot]
  constructor
  · intro hsteps
    have hlength := length_lt_accessText (root :: cs)
    rw [List.length_cons] at hlength
    rw [hrun]
    exact recordAccessPath_members hformat hpath (by omega) hrange hsteps hstore
  · intro hindexes hfound hall step hstep
    by_contra hnot
    obtain ⟨cs', hpath', hrange', hindexes', hfails⟩ := @recordAccessPath_fails btf path
      origin hformat relo.typeId cs steps hpath hrange hindexes hfound
      ⟨step, hstep, by simpa using hnot⟩
    obtain ⟨state', hok, _⟩ := hall cs' hpath' hrange' hindexes'
    rw [hrun] at hok
    exact hfails hstore state' hok

/-- `struct R { int a; struct S s[4]; }` with `struct S { int x; int y; }`. -/
def arrayMember : Btf where
  types := [
    { nameOff := 1, kind := .int, size := 4, intInfo := 0x01000020 },
    { nameOff := 5, kind := .struct, size := 8,
      members := [{ nameOff := 7, type := 1 }, { nameOff := 9, type := 1, offset := 32 }] },
    { kind := .array, array := { type := 2, indexType := 1, nelems := 4 } },
    { nameOff := 11, kind := .struct, size := 44,
      members := [{ nameOff := 13, type := 1 }, { nameOff := 15, type := 3, offset := 32 },
        { nameOff := 17, type := 2, offset := 288 }] }]
  strs := "\x00int\x00S\x00x\x00y\x00R\x00a\x00s\x00t\x00".toList

def byteOffset (typeId : Nat) : CoreRelo := { insnOff := 0, typeId, accessStrOff := 0, kind := 0 }

def emptyState (btf : Btf) : SeedState where
  seeds := mchTypeSetInit (btfTypeCnt btf)
  requirements := mchRequirementsInit (btfTypeCnt btf)

theorem arrayMember_inFormat : arrayMember.InFormat := .of_types (by decide) (by decide)

theorem recordCoreReloRequirements_followsPath_arrayMember :
    AddsMembers (emptyState arrayMember) (recordCoreReloRequirements arrayMember arrayMember []
      (byteOffset 4) 4 (some (accessText [0, 2, 1])) none (emptyState arrayMember))
        [(4, 2), (2, 1)] := by
  have hpath : CorePath arrayMember 4 [2, 1] [.member 4 4 2, .member 2 2 1] :=
    .member .here rfl rfl rfl (.member .here rfl rfl rfl .nil)
  have hstore := Requirements.Consistent.initial arrayMember
  have hfollows := @recordCoreReloRequirements_followsPath arrayMember (emptyState arrayMember)
    (byteOffset 4) 0 [2, 1] _ [] none arrayMember_inFormat hstore rfl (by decide) (by decide) hpath
  exact hfollows.1 (by decide)

/-- Element 2 of `s`, then its member `y`: the walk looks for a member 2 in `struct S`. -/
theorem arrayMember_fails :
    CorePath arrayMember 4 [1, 2, 1] [.member 4 4 1, .element 3, .member 2 2 1] ∧
      ¬AddsMembers (emptyState arrayMember) (recordCoreReloRequirements arrayMember arrayMember []
        (byteOffset 4) 4 (some (accessText [0, 1, 2, 1])) none (emptyState arrayMember))
          [(4, 1), (2, 1)] := by
  constructor
  · exact .member .here rfl rfl rfl (.element .here rfl rfl (.member .here rfl rfl rfl .nil))
  · rintro ⟨state', hok, _⟩
    cases hok

end MinCorehdr
