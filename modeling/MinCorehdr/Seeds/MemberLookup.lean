import Mathlib.Logic.Relation
import MinCorehdr.Seeds.Join
import MinCorehdr.Seeds.Lockstep

/-!
# C member lookup and the search through anonymous records

`Finds` is the lookup of a member by C's rule: the record's own members first, then
its unnamed struct and union members in order.  It is stated for the members that
are kept, so that it also speaks about pruned records.
-/

namespace MinCorehdr

open Relation Support.Result

/-- The record a type is, typedefs and qualifiers aside. -/
structure RecordByValue (btf : Btf) (id recordId : Nat) (record : BtfType) : Prop where
  strips : Strips btf id recordId
  type_eq : btfTypeById btf recordId = some record
  isRecord : record.kind.isRecord = true

/-- Member `i` of the record, which is kept. -/
structure KeptMember (kept : Nat → Nat → Bool) (recordId : Nat) (record : BtfType) (i : Nat)
    (member : BtfMember) : Prop where
  member_eq : record.members[i]? = some member
  isKept : kept recordId i = true

def everyMember : Nat → Nat → Bool := fun _ _ => true

def BtfMember.isUnnamed (member : BtfMember) (btf : Btf) : Prop :=
  isNamed (btfNameByOffset btf member.nameOff) = false

/-- C lookup does not find the name in the record. -/
inductive Misses (btf : Btf) (kept : Nat → Nat → Bool) (name : CString) : Nat → BtfType → Prop
  | intro {recordId : Nat} {record : BtfType} :
      (∀ i member, KeptMember kept recordId record i member →
        btfNameByOffset btf member.nameOff ≠ some name) →
      (∀ i member nestedId nested, KeptMember kept recordId record i member →
        member.isUnnamed btf → RecordByValue btf member.type nestedId nested →
          Misses btf kept name nestedId nested) →
      Misses btf kept name recordId record

/-- C lookup finds the name: the members on the way, the found one last, and its type. -/
inductive Finds (btf : Btf) (kept : Nat → Nat → Bool) (name : CString) :
    Nat → BtfType → List (Nat × Nat) → Nat → Prop
  | own {recordId i : Nat} {record : BtfType} {member : BtfMember} :
      KeptMember kept recordId record i member → btfNameByOffset btf member.nameOff = some name →
      (∀ j < i, ∀ earlier, KeptMember kept recordId record j earlier →
        btfNameByOffset btf earlier.nameOff ≠ some name) →
      Finds btf kept name recordId record [(recordId, i)] member.type
  | nested {recordId i nestedId type : Nat} {record nested : BtfType} {member : BtfMember}
      {path : List (Nat × Nat)} :
      (∀ j other, KeptMember kept recordId record j other →
        btfNameByOffset btf other.nameOff ≠ some name) →
      KeptMember kept recordId record i member → member.isUnnamed btf →
      RecordByValue btf member.type nestedId nested →
      (∀ j < i, ∀ earlier otherId other, KeptMember kept recordId record j earlier →
        earlier.isUnnamed btf → RecordByValue btf earlier.type otherId other →
          Misses btf kept name otherId other) →
      Finds btf kept name nestedId nested path type →
      Finds btf kept name recordId record ((recordId, i) :: path) type

/-! ## The lookup is a function -/

section Lookup

variable {btf : Btf} {kept : Nat → Nat → Bool} {name : CString}

theorem isStripped_of_isRecord {kind : Kind} (h : kind.isRecord = true) :
    kind.isStripped = false := by
  cases kind <;> first | rfl | cases h

theorem Strips.unique {id target target' : Nat} {record record' : BtfType}
    (h : Strips btf id target) (htype : btfTypeById btf target = some record)
    (hrecord : record.kind.isRecord = true) :
    Strips btf id target' → btfTypeById btf target' = some record' →
      record'.kind.isRecord = true → target = target' := by
  induction h with
  | here =>
      intro h' _ _
      cases h' with
      | here => rfl
      | step hstep hkind _ =>
          rw [htype] at hstep
          cases hstep
          rw [isStripped_of_isRecord hrecord] at hkind
          cases hkind
  | step hstep hkind _ ih =>
      intro h' htype' hrecord'
      cases h' with
      | here =>
          rw [hstep] at htype'
          cases htype'
          rw [isStripped_of_isRecord hrecord'] at hkind
          cases hkind
      | step hstep' _ hrest =>
          rw [hstep] at hstep'
          cases hstep'
          exact ih htype hrest htype' hrecord'

theorem RecordByValue.unique {id recordId recordId' : Nat} {record record' : BtfType}
    (h : RecordByValue btf id recordId record) (h' : RecordByValue btf id recordId' record') :
    recordId = recordId' ∧ record = record' := by
  have hid := h.strips.unique h.type_eq h.isRecord h'.strips h'.type_eq h'.isRecord
  subst hid
  have htype := h.type_eq.symm.trans h'.type_eq
  exact ⟨rfl, Option.some.inj htype⟩

theorem KeptMember.unique {recordId i : Nat} {record : BtfType} {member member' : BtfMember}
    (h : KeptMember kept recordId record i member) (h' : KeptMember kept recordId record i member') :
    member = member' :=
  Option.some.inj (h.member_eq.symm.trans h'.member_eq)

theorem Finds.not_misses {recordId type : Nat} {record : BtfType} {path : List (Nat × Nat)}
    (h : Finds btf kept name recordId record path type) :
    ¬Misses btf kept name recordId record := by
  induction h with
  | own hmember hname _ =>
      rintro ⟨hown, _⟩
      exact hown _ _ hmember hname
  | nested _ hmember hunnamed hvalue _ _ ih =>
      rintro ⟨_, hnested⟩
      exact ih (hnested _ _ _ _ hmember hunnamed hvalue)

theorem Finds.unique {recordId type : Nat} {record : BtfType} {path : List (Nat × Nat)}
    (h : Finds btf kept name recordId record path type) :
    ∀ {path' : List (Nat × Nat)} {type' : Nat}, Finds btf kept name recordId record path' type' →
      path = path' ∧ type = type' := by
  induction h with
  | @own recordId i record member hmember hname hfirst =>
      intro path' type' h'
      cases h' with
      | @own _ i' _ member' hmember' hname' hfirst' =>
          have hi : i = i' := by
            rcases Nat.lt_trichotomy i i' with hlt | heq | hgt
            · exact absurd hname (hfirst' i hlt member hmember)
            · exact heq
            · exact absurd hname' (hfirst i' hgt member' hmember')
          subst hi
          rw [hmember.unique hmember']
          exact ⟨rfl, rfl⟩
      | nested hown => exact absurd hname (hown _ _ hmember)
  | @nested recordId i nestedId type record nested member path hown hmember hunnamed hvalue hearlier
      hfinds ih =>
      intro path' type' h'
      cases h' with
      | own hmember' hname' => exact absurd hname' (hown _ _ hmember')
      | @nested _ i' nestedId' _ _ nested' member' path' _ hmember' hunnamed' hvalue' hearlier'
          hfinds' =>
          have hi : i = i' := by
            rcases Nat.lt_trichotomy i i' with hlt | heq | hgt
            · exact absurd (hearlier' i hlt _ _ _ hmember hunnamed hvalue) hfinds.not_misses
            · exact heq
            · exact absurd (hearlier i' hgt _ _ _ hmember' hunnamed' hvalue') hfinds'.not_misses
          subst hi
          obtain rfl := hmember.unique hmember'
          obtain ⟨rfl, rfl⟩ := hvalue.unique hvalue'
          obtain ⟨rfl, rfl⟩ := ih hfinds'
          exact ⟨rfl, rfl⟩

/-- Dropping members loses no miss. -/
theorem Misses.restrict {recordId : Nat} {record : BtfType}
    (h : Misses btf everyMember name recordId record) : Misses btf kept name recordId record := by
  induction h with
  | intro hown _ ih =>
      constructor
      · intro i member hmember
        exact hown i member ⟨hmember.member_eq, rfl⟩
      · intro i member nestedId nested hmember hunnamed hvalue
        exact ih i member nestedId nested ⟨hmember.member_eq, rfl⟩ hunnamed hvalue

/-- A lookup goes the same way when the members on its way are kept. -/
theorem Finds.restrict {recordId type : Nat} {record : BtfType} {path : List (Nat × Nat)}
    (h : Finds btf everyMember name recordId record path type) :
    (∀ member ∈ path, kept member.1 member.2 = true) →
      Finds btf kept name recordId record path type := by
  induction h with
  | own hmember hname hfirst =>
      intro hkept
      refine .own ⟨hmember.member_eq, hkept _ List.mem_cons_self⟩ hname ?_
      intro j hj earlier hearlier
      exact hfirst j hj earlier ⟨hearlier.member_eq, rfl⟩
  | nested hown hmember hunnamed hvalue hearlier _ ih =>
      intro hkept
      refine .nested ?_ ⟨hmember.member_eq, hkept _ List.mem_cons_self⟩ hunnamed hvalue ?_ ?_
      · intro j other hother
        exact hown j other ⟨hother.member_eq, rfl⟩
      · intro j hj earlier otherId other hkeptEarlier hunnamed hvalue
        exact (hearlier j hj earlier otherId other ⟨hkeptEarlier.member_eq, rfl⟩ hunnamed
          hvalue).restrict
      · exact ih fun member hmember => hkept member (List.mem_cons_of_mem _ hmember)

end Lookup

/-! ## What a search records -/

/-- Exactly these members and their records have been added. -/
structure Records (btf : Btf) (before after : SeedState) (path : List (Nat × Nat)) : Prop where
  good : after.Good btf
  holds_iff : ∀ key, after.requirements.holds key = true ↔ before.requirements.holds key = true ∨
    ∃ recordId i, (recordId, i) ∈ path ∧ key = .member recordId i
  seeds_iff : ∀ id, mchTypeSetContains after.seeds id = true ↔
    mchTypeSetContains before.seeds id = true ∨ ∃ i, (id, i) ∈ path

section Records

variable {btf : Btf} {state mid final : SeedState}

theorem Records.append {path path' : List (Nat × Nat)} (h : Records btf state mid path)
    (h' : Records btf mid final path') : Records btf state final (path' ++ path) := by
  refine ⟨h'.good, fun key => ?_, fun id => ?_⟩
  · rw [h'.holds_iff, h.holds_iff]
    simp only [List.mem_append, or_and_right, exists_or]
    rw [or_assoc]
    exact or_congr_right or_comm
  · rw [h'.seeds_iff, h.seeds_iff]
    simp only [List.mem_append, exists_or]
    rw [or_assoc]
    exact or_congr_right or_comm

theorem requireMember_records {recordId i : Nat} {origin : Option RequirementOrigin}
    (hgood : state.Good btf) (h : requireMember btf state recordId i origin = .ok final) :
    Records btf state final [(recordId, i)] := by
  unfold requireMember at h
  obtain ⟨mid, hadd, h⟩ := bind_eq_ok.mp h
  cases h
  cases hcall : mchRequirementsAddRecordMember allGranted btf state.requirements recordId i origin with
  | mk requirements result =>
      rw [hcall] at hadd
      cases result with
      | error fault => cases hadd
      | ok value =>
          cases hadd
          obtain ⟨⟨_, _, type, htype, _⟩, hconsistent, hholds⟩ :=
            addRecordMember_spec hgood.consistent hcall
          have hid := btfTypeById_eq_some_lt htype
          refine ⟨⟨?_, hconsistent⟩, fun key => ?_, fun id => ?_⟩
          · rw [count_mchTypeSetAdd]
            exact hgood.count_eq
          · simp [hholds]
          · rw [contains_mchTypeSetAdd, hgood.count_eq]
            simp [hid]

/-- What a search for the name that has returned leaves behind. -/
def Searched (btf : Btf) (name : CString) (recordId : Nat) (record : BtfType)
    (before after : SeedState) : Option Nat → Prop
  | some type => ∃ path, Finds btf everyMember name recordId record path type ∧
      Records btf before after path
  | none => Misses btf everyMember name recordId record ∧ after = before

end Records

/-! ## The search -/

/-- The search goes on from a record to the records of its unnamed members. -/
def AnonNext (btf : Btf) (record nested : BtfType) : Prop :=
  ∃ member ∈ record.members, member.isUnnamed btf ∧
    ∃ nestedId, peelToRecord btf member.type = some (nestedId, nested)

/-- What the search takes for the record of an unnamed member is that record, by value. -/
def UnnamedByValue (btf : Btf) (record : BtfType) : Prop :=
  ∀ member ∈ record.members, member.isUnnamed btf → ∀ nestedId nested,
    peelToRecord btf member.type = some (nestedId, nested) ↔
      RecordByValue btf member.type nestedId nested

/-- The same for all records nested in it without a name. -/
def AnonymousByValue (btf : Btf) (record : BtfType) : Prop :=
  ∀ nested, ReflTransGen (AnonNext btf) record nested → UnnamedByValue btf nested

/-- Records nested without a name are at most so many levels deep. -/
def NestedWithin (btf : Btf) : Nat → BtfType → Prop
  | 0, record => ∀ nested, ¬AnonNext btf record nested
  | depth + 1, record => ∀ nested, AnonNext btf record nested → NestedWithin btf depth nested

section Search

variable {btf : Btf} {name : CString} {origin : Option RequirementOrigin}

theorem AnonymousByValue.next {record nested : BtfType} (h : AnonymousByValue btf record)
    (hnext : AnonNext btf record nested) : AnonymousByValue btf nested :=
  fun inner hinner => h inner (ReflTransGen.head hnext hinner)

theorem AnonymousByValue.self {record : BtfType} (h : AnonymousByValue btf record) :
    UnnamedByValue btf record := h record ReflTransGen.refl

/-- The own member of the name, if there is one. -/
theorem findBaseMember_own {record : BtfType} {recordId fallback : Nat} (hname : name ≠ []) :
    (∃ i member, findBaseMember btf record (some name) fallback = some i ∧
        record.members[i]? = some member ∧ btfNameByOffset btf member.nameOff = some name ∧
        Finds btf everyMember name recordId record [(recordId, i)] member.type) ∨
      findBaseMember btf record (some name) fallback = none ∧
        ∀ i member, KeptMember everyMember recordId record i member →
          btfNameByOffset btf member.nameOff ≠ some name := by
  obtain ⟨c, text, rfl⟩ := List.exists_cons_of_ne_nil hname
  cases hfind : findBaseMember btf record (some (c :: text)) fallback with
  | some i =>
      left
      rw [findBaseMember] at hfind
      obtain ⟨hi, hmatch, hbefore⟩ := List.findIdx?_eq_some_iff_getElem.mp hfind
      have hget : record.members[i]? = some record.members[i] := List.getElem?_eq_getElem hi
      have hnamed := of_decide_eq_true hmatch
      refine ⟨i, record.members[i], rfl, hget, hnamed, .own ⟨hget, rfl⟩ hnamed ?_⟩
      intro j hj earlier hearlier
      obtain ⟨hlt, rfl⟩ := List.getElem?_eq_some_iff.mp hearlier.member_eq
      simpa using hbefore j hj
  | none =>
      right
      rw [findBaseMember, List.findIdx?_eq_none_iff] at hfind
      refine ⟨rfl, fun i member hmember => ?_⟩
      simpa using hfind member (List.mem_of_getElem? hmember.member_eq)

/-- A search that has returned has found an own member, or has gone through the unnamed ones. -/
theorem markBaseMemberPath_cases (hname : name ≠ []) {levels fallback recordId : Nat}
    {record : BtfType} {state final : SeedState} {found : Option Nat}
    (h : markBaseMemberPath btf (some name) origin (levels + 1) fallback state recordId record =
      .ok (final, found)) :
    (∃ i member, record.members[i]? = some member ∧
        btfNameByOffset btf member.nameOff = some name ∧
        Finds btf everyMember name recordId record [(recordId, i)] member.type ∧
        found = some member.type ∧ requireMember btf state recordId i origin = .ok final) ∨
      (∀ i member, KeptMember everyMember recordId record i member →
        btfNameByOffset btf member.nameOff ≠ some name) ∧
      searchAnonymousMembers btf recordId origin
        (markBaseMemberPath btf (some name) origin levels uint32Max) record.members.zipIdx state =
          .ok (final, found) := by
  rw [markBaseMemberPath] at h
  rcases @findBaseMember_own btf name record recordId fallback hname with
    ⟨i, member, hfind, hget, hmatch, hfinds⟩ | ⟨hnone, hown⟩
  · rw [hfind] at h
    obtain ⟨mid, hrequire, h⟩ := bind_eq_ok.mp h
    rw [hget] at h
    cases h
    exact Or.inl ⟨i, member, hget, hmatch, hfinds, rfl, hrequire⟩
  · have hnamed : isNamed (some name) = true := by
      obtain ⟨c, text, rfl⟩ := List.exists_cons_of_ne_nil hname
      rfl
    rw [hnone] at h
    simp only [hnamed, Bool.true_eq_false, if_false] at h
    exact Or.inr ⟨hown, h⟩

/-- Where a member stands in the list of the loop. -/
theorem zipIdx_split {record : BtfType} {before rest : List (BtfMember × Nat)} {member : BtfMember}
    {i : Nat} (h : record.members.zipIdx = before ++ (member, i) :: rest) :
    record.members[i]? = some member ∧ before = record.members.zipIdx.take i := by
  have hget : record.members.zipIdx[before.length]? = some (member, i) := by
    rw [h, List.getElem?_append_right (Nat.le_refl _), Nat.sub_self]
    rfl
  have hmem : (member, i) ∈ record.members.zipIdx := List.mem_of_getElem? hget
  have hi : i = before.length := by
    rw [List.getElem?_zipIdx] at hget
    obtain ⟨_, _, heq⟩ := Option.map_eq_some_iff.mp hget
    cases heq
    omega
  refine ⟨List.mk_mem_zipIdx_iff_getElem?.mp hmem, ?_⟩
  rw [h, hi, List.take_left]

theorem mem_take_zipIdx {record : BtfType} {member : BtfMember} {i j : Nat}
    (hmember : record.members[j]? = some member) (hj : j < i) :
    (member, j) ∈ record.members.zipIdx.take i := by
  rw [List.mem_iff_getElem?]
  exact ⟨j, by simp [hj, List.getElem?_zipIdx, hmember]⟩

/-- The search misses the name in the record of each unnamed member and leaves no trace. -/
def Passes (btf : Btf) (search : SeedState → Nat → BtfType → Except Fault (SeedState × Option Nat))
    (state : SeedState) (members : List (BtfMember × Nat)) : Prop :=
  ∀ member i, (member, i) ∈ members → member.isUnnamed btf → ∀ nestedId nested,
    peelToRecord btf member.type = some (nestedId, nested) →
      search state nestedId nested = .ok (state, none)

/-- How a loop over unnamed members has ended. -/
def LoopEnds (btf : Btf) (origin : Option RequirementOrigin) (recordId : Nat)
    (search : SeedState → Nat → BtfType → Except Fault (SeedState × Option Nat))
    (members : List (BtfMember × Nat)) (state final : SeedState) : Option Nat → Prop
  | some type => ∃ before member i rest nestedId nested mid,
      members = before ++ (member, i) :: rest ∧ Passes btf search state before ∧
        member.isUnnamed btf ∧ peelToRecord btf member.type = some (nestedId, nested) ∧
          search state nestedId nested = .ok (mid, some type) ∧
            requireMember btf mid recordId i origin = .ok final
  | none => Passes btf search state members ∧ final = state

theorem LoopEnds.cons {recordId i : Nat}
    {search : SeedState → Nat → BtfType → Except Fault (SeedState × Option Nat)}
    {members : List (BtfMember × Nat)} {member : BtfMember} {state final : SeedState}
    {found : Option Nat} (hpasses : Passes btf search state [(member, i)])
    (h : LoopEnds btf origin recordId search members state final found) :
    LoopEnds btf origin recordId search ((member, i) :: members) state final found := by
  have hcons : ∀ {others : List (BtfMember × Nat)}, Passes btf search state others →
      Passes btf search state ((member, i) :: others) := by
    intro others hothers other j hmem
    rcases List.mem_cons.mp hmem with heq | hmem
    · exact hpasses other j (List.mem_singleton.mpr heq)
    · exact hothers other j hmem
  cases found with
  | none => exact ⟨hcons h.1, h.2⟩
  | some type =>
      obtain ⟨before, last, k, rest, nestedId, nested, mid, hsplit, hbefore, hlast⟩ := h
      exact ⟨(member, i) :: before, last, k, rest, nestedId, nested, mid,
        by rw [hsplit, List.cons_append], hcons hbefore, hlast⟩

/-- The loop stops at the first unnamed member in whose record the search finds the name. -/
theorem searchAnonymousMembers_ends {recordId : Nat}
    {search : SeedState → Nat → BtfType → Except Fault (SeedState × Option Nat)}
    (hmiss : ∀ before nestedId nested after,
      search before nestedId nested = .ok (after, none) → after = before)
    {state final : SeedState} {found : Option Nat} : ∀ {members : List (BtfMember × Nat)},
      searchAnonymousMembers btf recordId origin search members state = .ok (final, found) →
        LoopEnds btf origin recordId search members state final found := by
  intro members
  induction members with
  | nil =>
      intro h
      cases h
      exact ⟨fun _ _ hmem => (List.not_mem_nil hmem).elim, rfl⟩
  | cons pair members ih =>
      intro h
      obtain ⟨member, i⟩ := pair
      have hnothing : (∀ nestedId nested, member.isUnnamed btf →
          peelToRecord btf member.type ≠ some (nestedId, nested)) →
            Passes btf search state [(member, i)] := by
        intro hnot other j hmem hunnamed nestedId nested hpeel
        cases List.mem_singleton.mp hmem
        exact absurd hpeel (hnot nestedId nested hunnamed)
      rw [searchAnonymousMembers] at h
      by_cases hnamed : isNamed (btfNameByOffset btf member.nameOff) = true
      · rw [if_pos hnamed] at h
        refine (ih h).cons (hnothing fun _ _ hunnamed => ?_)
        rw [BtfMember.isUnnamed, hnamed] at hunnamed
        cases hunnamed
      · rw [if_neg hnamed] at h
        cases hpeel : peelToRecord btf member.type with
        | none =>
            rw [hpeel] at h
            exact (ih h).cons (hnothing fun _ _ _ hsome => by cases hpeel.symm.trans hsome)
        | some result =>
            obtain ⟨nestedId, nested⟩ := result
            rw [hpeel] at h
            obtain ⟨⟨mid, inner⟩, hrun, hrest⟩ := bind_eq_ok.mp h
            cases inner with
            | none =>
                obtain rfl := hmiss _ _ _ _ hrun
                refine (ih hrest).cons fun other j hmem _ otherId found hsome => ?_
                cases List.mem_singleton.mp hmem
                cases hpeel.symm.trans hsome
                exact hrun
            | some type =>
                obtain ⟨last, hrequire, hlast⟩ := bind_eq_ok.mp hrest
                cases hlast
                have hunnamed : member.isUnnamed btf := by simpa [BtfMember.isUnnamed] using hnamed
                exact ⟨[], member, i, members, nestedId, nested, mid, rfl,
                  fun _ _ hmem => (List.not_mem_nil hmem).elim, hunnamed, hpeel, hrun, hrequire⟩

/-- The search, which goes on through unnamed members whatever is in front of their records,
meets the name. -/
inductive Meets (btf : Btf) (name : CString) : BtfType → Prop
  | own {record : BtfType} {i : Nat} {member : BtfMember} :
      record.members[i]? = some member → btfNameByOffset btf member.nameOff = some name →
        Meets btf name record
  | nested {record nested : BtfType} {i nestedId : Nat} {member : BtfMember} :
      record.members[i]? = some member → member.isUnnamed btf →
        peelToRecord btf member.type = some (nestedId, nested) → Meets btf name nested →
          Meets btf name record

/-- A search that returns has met the name, or has not and left no trace. -/
theorem markBaseMemberPath_meets (hname : name ≠ []) {levels : Nat} :
    ∀ {fallback recordId : Nat} {record : BtfType} {state final : SeedState} {found : Option Nat},
      markBaseMemberPath btf (some name) origin levels fallback state recordId record =
        .ok (final, found) →
      match found with
      | some _ => Meets btf name record
      | none => ¬Meets btf name record ∧ final = state := by
  induction levels with
  | zero =>
      intro fallback recordId record state final found h
      cases h
  | succ levels ih =>
      intro fallback recordId record state final found h
      rcases markBaseMemberPath_cases hname h with ⟨i, member, hget, hmatch, _, rfl, _⟩ | ⟨hown, h⟩
      · exact .own hget hmatch
      · have hloop := searchAnonymousMembers_ends (fun _ _ _ _ hrun => (ih hrun).2) h
        cases found with
        | some type =>
            obtain ⟨before, member, i, rest, nestedId, nested, mid, hsplit, _, hunnamed, hpeel, hrun,
              _⟩ := hloop
            exact .nested (zipIdx_split hsplit).1 hunnamed hpeel (ih hrun)
        | none =>
            refine ⟨fun hmeets => ?_, hloop.2⟩
            cases hmeets with
            | own hmember hmatch => exact hown _ _ ⟨hmember, rfl⟩ hmatch
            | nested hmember hunnamed hpeel hinner =>
                have hmem := List.mk_mem_zipIdx_iff_getElem?.mpr hmember
                exact (ih (hloop.1 _ _ hmem hunnamed _ _ hpeel)).1 hinner

/-- How the loop of a search that has returned has ended. -/
theorem searchAnonymousMembers_markBaseMemberPath (hname : name ≠ []) {levels recordId : Nat}
    {members : List (BtfMember × Nat)} {state final : SeedState} {found : Option Nat}
    (h : searchAnonymousMembers btf recordId origin
      (markBaseMemberPath btf (some name) origin levels uint32Max) members state =
        .ok (final, found)) :
    LoopEnds btf origin recordId (markBaseMemberPath btf (some name) origin levels uint32Max)
      members state final found :=
  searchAnonymousMembers_ends (fun _ _ _ _ hrun => (markBaseMemberPath_meets hname hrun).2) h

/-- A search that has returned has found the name as C does, or has missed it and left no
trace. -/
theorem markBaseMemberPath_ok (hname : name ≠ []) {levels : Nat} :
    ∀ {fallback recordId : Nat} {record : BtfType} {state final : SeedState} {found : Option Nat},
      AnonymousByValue btf record → state.Good btf →
      markBaseMemberPath btf (some name) origin levels fallback state recordId record =
        .ok (final, found) → Searched btf name recordId record state final found := by
  induction levels with
  | zero =>
      intro fallback recordId record state final found _ _ h
      cases h
  | succ levels ih =>
      intro fallback recordId record state final found hvalue hgood h
      rcases markBaseMemberPath_cases hname h with ⟨i, member, _, _, hfinds, rfl, hrequire⟩ | ⟨hown, h⟩
      · exact ⟨[(recordId, i)], hfinds, requireMember_records hgood hrequire⟩
      · have hloop := searchAnonymousMembers_markBaseMemberPath hname h
        -- what the search says of an unnamed member's record, whose search starts in `state`
        have hsearched : ∀ {i nestedId : Nat} {member : BtfMember} {nested : BtfType}
            {after : SeedState} {result : Option Nat}, record.members[i]? = some member →
            member.isUnnamed btf → peelToRecord btf member.type = some (nestedId, nested) →
            markBaseMemberPath btf (some name) origin levels uint32Max state nestedId nested =
              .ok (after, result) →
              Searched btf name nestedId nested state after result := by
          intro i nestedId member nested after result hmember hunnamed hpeel hrun
          have hmem := List.mem_of_getElem? hmember
          exact ih (hvalue.next ⟨member, hmem, hunnamed, nestedId, hpeel⟩) hgood hrun
        have hpeels : ∀ {i nestedId : Nat} {member : BtfMember} {nested : BtfType},
            record.members[i]? = some member → member.isUnnamed btf →
            (peelToRecord btf member.type = some (nestedId, nested) ↔
              RecordByValue btf member.type nestedId nested) := fun hmember hunnamed =>
          hvalue.self _ (List.mem_of_getElem? hmember) hunnamed _ _
        cases found with
        | none =>
            obtain ⟨hpasses, rfl⟩ := hloop
            refine ⟨.intro hown fun i member nestedId nested hmember hunnamed hbyValue => ?_, rfl⟩
            have hpeel := (hpeels hmember.member_eq hunnamed).mpr hbyValue
            have hmem := List.mk_mem_zipIdx_iff_getElem?.mpr hmember.member_eq
            exact (hsearched hmember.member_eq hunnamed hpeel
              (hpasses member i hmem hunnamed nestedId nested hpeel)).1
        | some type =>
            obtain ⟨before, member, i, rest, nestedId, nested, mid, hsplit, hbefore, hunnamed, hpeel,
              hrun, hrequire⟩ := hloop
            obtain ⟨hmember, htake⟩ := zipIdx_split hsplit
            obtain ⟨path, hfinds, hrecords⟩ := hsearched hmember hunnamed hpeel hrun
            refine ⟨(recordId, i) :: path, ?_,
              hrecords.append (requireMember_records hrecords.good hrequire)⟩
            refine .nested hown ⟨hmember, rfl⟩ hunnamed ((hpeels hmember hunnamed).mp hpeel) ?_ hfinds
            intro j hj earlier otherId other hearlier hunnamed' hbyValue'
            have hpeel' := (hpeels hearlier.member_eq hunnamed').mpr hbyValue'
            have hmem : (earlier, j) ∈ before := htake ▸ mem_take_zipIdx hearlier.member_eq hj
            exact (hsearched hearlier.member_eq hunnamed' hpeel'
              (hbefore earlier j hmem hunnamed' otherId other hpeel')).1

/-! ## A search that enters what is not by value -/

/-- The unnamed member through which the search meets the name first. -/
structure FirstMet (btf : Btf) (name : CString) (record : BtfType) (i : Nat) (member : BtfMember)
    (nestedId : Nat) (nested : BtfType) : Prop where
  member_eq : record.members[i]? = some member
  isUnnamed : member.isUnnamed btf
  peels : peelToRecord btf member.type = some (nestedId, nested)
  meets : Meets btf name nested
  first : ∀ j < i, ∀ earlier otherId other, record.members[j]? = some earlier →
    earlier.isUnnamed btf → peelToRecord btf earlier.type = some (otherId, other) →
      ¬Meets btf name other

/-- The name is that of an own member, or the unnamed member through which the search meets it
first is a record by value, no earlier one has the name in C, and so on inside it. -/
inductive EnteredByValue (btf : Btf) (name : CString) : BtfType → Prop
  | own {record : BtfType} {i : Nat} {member : BtfMember} :
      record.members[i]? = some member → btfNameByOffset btf member.nameOff = some name →
        EnteredByValue btf name record
  | nested {record : BtfType} :
      (∀ i member nestedId nested, FirstMet btf name record i member nestedId nested →
        RecordByValue btf member.type nestedId nested) →
      (∀ i member nestedId nested, FirstMet btf name record i member nestedId nested →
        ∀ j < i, ∀ earlier otherId other, record.members[j]? = some earlier →
          earlier.isUnnamed btf → RecordByValue btf earlier.type otherId other →
            Misses btf everyMember name otherId other) →
      (∀ i member nestedId nested, FirstMet btf name record i member nestedId nested →
        EnteredByValue btf name nested) →
      EnteredByValue btf name record

/-- A search that has found the name has found it as C does, where it enters records by value. -/
theorem markBaseMemberPath_entered (hname : name ≠ []) {levels : Nat} :
    ∀ {fallback recordId type : Nat} {record : BtfType} {state final : SeedState},
      EnteredByValue btf name record → state.Good btf →
      markBaseMemberPath btf (some name) origin levels fallback state recordId record =
        .ok (final, some type) → Searched btf name recordId record state final (some type) := by
  induction levels with
  | zero =>
      intro fallback recordId type record state final _ _ h
      cases h
  | succ levels ih =>
      intro fallback recordId type record state final hentered hgood h
      rcases markBaseMemberPath_cases hname h with
        ⟨i, member, _, _, hfinds, hfound, hrequire⟩ | ⟨hown, h⟩
      · cases hfound
        exact ⟨[(recordId, i)], hfinds, requireMember_records hgood hrequire⟩
      · obtain ⟨before, member, i, rest, nestedId, nested, mid, hsplit, hbefore, hunnamed, hpeel, hrun,
          hrequire⟩ := searchAnonymousMembers_markBaseMemberPath hname h
        obtain ⟨hmember, htake⟩ := zipIdx_split hsplit
        have hfirst : FirstMet btf name record i member nestedId nested := by
          refine ⟨hmember, hunnamed, hpeel, markBaseMemberPath_meets hname hrun, ?_⟩
          intro j hj earlier otherId other hearlier hunnamed' hpeel'
          have hmem : (earlier, j) ∈ before := htake ▸ mem_take_zipIdx hearlier hj
          exact (markBaseMemberPath_meets hname
            (hbefore earlier j hmem hunnamed' otherId other hpeel')).1
        cases hentered with
        | own hmember' hmatch => exact absurd hmatch (hown _ _ ⟨hmember', rfl⟩)
        | nested hvalue hmisses hinner =>
            obtain ⟨path, hfinds, hrecords⟩ := ih (hinner _ _ _ _ hfirst) hgood hrun
            refine ⟨(recordId, i) :: path, ?_,
              hrecords.append (requireMember_records hrecords.good hrequire)⟩
            refine .nested hown ⟨hmember, rfl⟩ hunnamed (hvalue _ _ _ _ hfirst) ?_ hfinds
            intro j hj earlier otherId other hearlier hunnamed' hbyValue'
            exact hmisses _ _ _ _ hfirst j hj earlier otherId other hearlier.member_eq hunnamed'
              hbyValue'

theorem requireMember_total {record : BtfType} {recordId i : Nat} {member : BtfMember}
    {state : SeedState} (hformat : btf.InFormat) (hgood : state.Good btf)
    (hrecord : btfTypeById btf recordId = some record) (hkind : record.kind.isRecord = true)
    (hmember : record.members[i]? = some member) :
    ∃ final, requireMember btf state recordId i origin = .ok final := by
  have hid := btfTypeById_eq_some_lt hrecord
  have hcount := hformat.count_le
  have hlength := hformat.members_lt recordId record hrecord
  have hi := (List.getElem?_eq_some_iff.mp hmember).1
  have hmax : uint32Max = 2 ^ 32 - 1 := rfl
  have hvalid : (RequirementKey.member recordId i).Valid btf :=
    ⟨by omega, by omega, record, hrecord, hkind, hi⟩
  obtain ⟨final, hrequire, _⟩ :=
    @requireMember_succeeds btf state recordId i origin hformat hgood.consistent hvalid
  exact ⟨final, hrequire⟩

theorem Searched.good {recordId : Nat} {record : BtfType} {before after : SeedState}
    {found : Option Nat} (h : Searched btf name recordId record before after found)
    (hgood : before.Good btf) : after.Good btf := by
  cases found with
  | none =>
      rw [h.2]
      exact hgood
  | some type =>
      obtain ⟨path, _, hrecords⟩ := h
      exact hrecords.good

theorem searchAnonymousMembers_total {record : BtfType} {recordId : Nat} (hformat : btf.InFormat)
    (hrecord : btfTypeById btf recordId = some record) (hkind : record.kind.isRecord = true)
    {search : SeedState → Nat → BtfType → Except Fault (SeedState × Option Nat)}
    (htotal : ∀ before member nestedId nested, member ∈ record.members → member.isUnnamed btf →
      peelToRecord btf member.type = some (nestedId, nested) → before.Good btf →
        ∃ after found, search before nestedId nested = .ok (after, found) ∧ after.Good btf) :
    ∀ {rest : List (BtfMember × Nat)} {state : SeedState}, state.Good btf →
      (∀ member i, (member, i) ∈ rest → record.members[i]? = some member) → ∃ final found,
        searchAnonymousMembers btf recordId origin search rest state = .ok (final, found) := by
  intro rest
  induction rest with
  | nil => exact fun _ _ => ⟨_, _, rfl⟩
  | cons pair rest ih =>
      intro state hgood hrest
      obtain ⟨member, i⟩ := pair
      have hmember := hrest member i List.mem_cons_self
      have hskip : ∀ {state : SeedState}, state.Good btf → ∃ final found,
          searchAnonymousMembers btf recordId origin search rest state = .ok (final, found) :=
        fun hstate => ih hstate fun other j hmem => hrest other j (List.mem_cons_of_mem _ hmem)
      rw [searchAnonymousMembers]
      by_cases hnamed : isNamed (btfNameByOffset btf member.nameOff) = true
      · rw [if_pos hnamed]
        exact hskip hgood
      · rw [if_neg hnamed]
        have hunnamed : member.isUnnamed btf := by simpa [BtfMember.isUnnamed] using hnamed
        cases hpeel : peelToRecord btf member.type with
        | none => exact hskip hgood
        | some result =>
            obtain ⟨nestedId, nested⟩ := result
            obtain ⟨after, found, hrun, hafter⟩ := htotal state member nestedId nested
              (List.mem_of_getElem? hmember) hunnamed hpeel hgood
            simp only [hrun, ok_bind]
            cases found with
            | none => exact hskip hafter
            | some type =>
                obtain ⟨final, hrequire⟩ :=
                  @requireMember_total btf origin record recordId i member after hformat hafter
                    hrecord hkind hmember
                simp only [hrequire, ok_bind]
                exact ⟨_, _, rfl⟩

/-- Within the limits the search returns. -/
theorem markBaseMemberPath_total (hname : name ≠ []) (hformat : btf.InFormat) {depth : Nat} :
    ∀ {fallback recordId : Nat} {record : BtfType} {state : SeedState},
      NestedWithin btf depth record → AnonymousByValue btf record → state.Good btf →
      btfTypeById btf recordId = some record → record.kind.isRecord = true →
      ∃ final found, markBaseMemberPath btf (some name) origin (depth + 1) fallback state recordId
        record = .ok (final, found) := by
  have hnamed : isNamed (some name) = true := by
    obtain ⟨c, text, rfl⟩ := List.exists_cons_of_ne_nil hname
    rfl
  have hbody : ∀ {levels fallback recordId : Nat} {record : BtfType} {state : SeedState},
      (∀ before member nestedId nested, member ∈ record.members → member.isUnnamed btf →
        peelToRecord btf member.type = some (nestedId, nested) → before.Good btf →
          ∃ after found, markBaseMemberPath btf (some name) origin levels uint32Max before nestedId
            nested = .ok (after, found) ∧ after.Good btf) →
      state.Good btf → btfTypeById btf recordId = some record → record.kind.isRecord = true →
      ∃ final found, markBaseMemberPath btf (some name) origin (levels + 1) fallback state recordId
        record = .ok (final, found) := by
    intro levels fallback recordId record state htotal hgood hrecord hkind
    rw [markBaseMemberPath]
    rcases @findBaseMember_own btf name record recordId fallback hname with
      ⟨i, member, hfind, hget, _⟩ | ⟨hnone, _⟩
    · obtain ⟨final, hrequire⟩ := @requireMember_total btf origin record recordId i member state
        hformat hgood hrecord hkind hget
      simp only [hfind, hrequire, ok_bind]
      exact ⟨_, _, rfl⟩
    · simp only [hnone, hnamed, Bool.true_eq_false, if_false]
      exact searchAnonymousMembers_total hformat hrecord hkind htotal hgood
        fun member i hmem => List.mk_mem_zipIdx_iff_getElem?.mp hmem
  induction depth with
  | zero =>
      intro fallback recordId record state hnested _ hgood hrecord hkind
      refine hbody ?_ hgood hrecord hkind
      intro before member nestedId nested hmem hunnamed hpeel _
      exact absurd ⟨member, hmem, hunnamed, nestedId, hpeel⟩ (hnested nested)
  | succ depth ih =>
      intro fallback recordId record state hnested hvalue hgood hrecord hkind
      refine hbody ?_ hgood hrecord hkind
      intro before member nestedId nested hmem hunnamed hpeel hbefore
      have hnext : AnonNext btf record nested := ⟨member, hmem, hunnamed, nestedId, hpeel⟩
      obtain ⟨htype, hrecordKind⟩ := btfTypeById_of_peelToRecord hpeel
      obtain ⟨after, found, hrun⟩ := @ih uint32Max nestedId nested before (hnested nested hnext)
        (hvalue.next hnext) hbefore htype hrecordKind
      exact ⟨after, found, hrun, (markBaseMemberPath_ok hname (hvalue.next hnext) hbefore hrun).good
        hbefore⟩

end Search

/-- On a base record whose unnamed members lead to records by value only and are nested at most 16
deep, the search finds a name exactly when C lookup does, reports the type of that member and
records exactly the members on the way with their records; otherwise it changes nothing. -/
theorem markBaseMemberPath_exact {btf : Btf} {name : CString} {origin : Option RequirementOrigin}
    {fallback recordId : Nat} {record : BtfType} {state : SeedState} (hformat : btf.InFormat)
    (hgood : state.Good btf) (hrecord : btfTypeById btf recordId = some record)
    (hkind : record.kind.isRecord = true) (hname : name ≠ []) (hvalue : AnonymousByValue btf record)
    (hnested : NestedWithin btf 16 record) :
    (∀ type, (∃ final, markBaseMemberPath btf (some name) origin 17 fallback state recordId record =
        .ok (final, some type)) ↔
      ∃ path, Finds btf everyMember name recordId record path type) ∧
    (∀ path type, Finds btf everyMember name recordId record path type →
      ∃ final, markBaseMemberPath btf (some name) origin 17 fallback state recordId record =
        .ok (final, some type) ∧ Records btf state final path) ∧
    ((∃ final, markBaseMemberPath btf (some name) origin 17 fallback state recordId record =
        .ok (final, none)) ↔ ∀ path type, ¬Finds btf everyMember name recordId record path type) ∧
    ((∀ path type, ¬Finds btf everyMember name recordId record path type) →
      markBaseMemberPath btf (some name) origin 17 fallback state recordId record =
        .ok (state, none)) := by
  obtain ⟨final, found, hrun⟩ := @markBaseMemberPath_total btf name origin hname hformat 16 fallback
    recordId record state hnested hvalue hgood hrecord hkind
  have hsearched := markBaseMemberPath_ok hname hvalue hgood hrun
  rw [hrun]
  cases found with
  | none =>
      obtain ⟨hmisses, rfl⟩ := hsearched
      have hnot : ∀ path type, ¬Finds btf everyMember name recordId record path type :=
        fun path type hfinds => hfinds.not_misses hmisses
      refine ⟨fun type => ?_, fun path type hfinds => absurd hfinds (hnot path type), ?_,
        fun _ => rfl⟩
      · constructor
        · rintro ⟨_, heq⟩
          cases heq
        · rintro ⟨path, hfinds⟩
          exact absurd hfinds (hnot path type)
      · exact iff_of_true ⟨final, rfl⟩ hnot
  | some found =>
      obtain ⟨path, hfinds, hrecords⟩ := hsearched
      refine ⟨fun type => ?_, fun path' type hfinds' => ?_, ?_, fun hnot => ?_⟩
      · constructor
        · rintro ⟨_, heq⟩
          cases heq
          exact ⟨path, hfinds⟩
        · rintro ⟨path', hfinds'⟩
          rw [(hfinds.unique hfinds').2]
          exact ⟨final, rfl⟩
      · obtain ⟨rfl, rfl⟩ := hfinds.unique hfinds'
        exact ⟨final, rfl, hrecords⟩
      · constructor
        · rintro ⟨_, heq⟩
          cases heq
        · intro hnot
          exact absurd hfinds (hnot path found)
      · exact absurd hfinds (hnot path found)

/-! ## Two bases -/

theorem peelToRecord_of_record {btf : Btf} {id : Nat} {record : BtfType} (hzero : id ≠ 0)
    (htype : btfTypeById btf id = some record) (hkind : record.kind.isRecord = true) :
    peelToRecord btf id = some (id, record) := by
  have hlt := btfTypeById_eq_some_lt htype
  have hpeel : peelAccessType btf id = (id, some record) := by
    rw [peelAccessType, peelAccessTypeFrom, if_neg (by omega), htype]
    simp only
    cases hk : record.kind <;> rw [hk] at hkind <;> first | rfl | cases hkind
  rw [peelToRecord, hpeel]
  exact if_pos hkind

/-- An unnamed member whose type is a record itself. -/
theorem byValue_iff_of_record {btf : Btf} {id : Nat} {record : BtfType} (hzero : id ≠ 0)
    (htype : btfTypeById btf id = some record) (hkind : record.kind.isRecord = true)
    (nestedId : Nat) (nested : BtfType) :
    peelToRecord btf id = some (nestedId, nested) ↔ RecordByValue btf id nestedId nested := by
  have hself : RecordByValue btf id id record := ⟨.here, htype, hkind⟩
  rw [peelToRecord_of_record hzero htype hkind]
  constructor
  · intro heq
    cases heq
    exact hself
  · intro hvalue
    obtain ⟨rfl, rfl⟩ := hself.unique hvalue
    rfl

theorem emptyState_good (btf : Btf) : (emptyState btf).Good btf :=
  ⟨rfl, Requirements.Consistent.initial btf⟩

/-- `struct R { int a; struct { int b; }; }`. -/
def wrapped : Btf :=
  { types := [
      { kind := .struct, nameOff := 1, size := 8
        members := [{ nameOff := 3, type := 3 }, { type := 2, offset := 32 }] },
      { kind := .struct, size := 4, members := [{ nameOff := 5, type := 3 }] },
      { kind := .int, nameOff := 7, size := 4 }]
    strs := [nul, 'R', nul, 'a', nul, 'b', nul, 'i', 'n', 't', nul] }

theorem wrapped_inner_not_next (nested : BtfType) : ¬AnonNext wrapped wrapped.types[1] nested := by
  rintro ⟨member, hmem, hunnamed, _⟩
  rw [show wrapped.types[1].members = [{ nameOff := 5, type := 3 }] from rfl,
    List.mem_singleton] at hmem
  subst hmem
  cases hunnamed

theorem wrapped_next {nested : BtfType} (h : AnonNext wrapped wrapped.types[0] nested) :
    nested = wrapped.types[1] := by
  obtain ⟨member, hmem, hunnamed, nestedId, hpeel⟩ := h
  rw [show wrapped.types[0].members =
    [{ nameOff := 3, type := 3 }, { type := 2, offset := 32 }] from rfl] at hmem
  rcases List.mem_cons.mp hmem with rfl | hmem
  · cases hunnamed
  · cases List.mem_singleton.mp hmem
    cases hpeel
    rfl

theorem wrapped_inner_byValue : AnonymousByValue wrapped wrapped.types[1] := by
  intro record hreach member hmem hunnamed
  rcases ReflTransGen.cases_head hreach with rfl | ⟨next, hnext, _⟩
  · cases List.mem_singleton.mp hmem
    cases hunnamed
  · exact absurd hnext (wrapped_inner_not_next next)

theorem wrapped_byValue : AnonymousByValue wrapped wrapped.types[0] := by
  intro record hreach
  rcases ReflTransGen.cases_head hreach with rfl | ⟨next, hnext, hrest⟩
  · intro member hmem hunnamed
    rcases List.mem_cons.mp hmem with rfl | hmem
    · cases hunnamed
    · cases List.mem_singleton.mp hmem
      exact byValue_iff_of_record (by decide) rfl rfl
  · obtain rfl := wrapped_next hnext
    exact wrapped_inner_byValue record hrest

theorem wrapped_not_own (j : Nat) (other : BtfMember)
    (hother : KeptMember everyMember 1 wrapped.types[0] j other) :
    btfNameByOffset wrapped other.nameOff ≠ some ['b'] := by
  have hall : ∀ other ∈ wrapped.types[0].members,
      btfNameByOffset wrapped other.nameOff ≠ some ['b'] := by decide
  exact hall other (List.mem_of_getElem? hother.member_eq)

theorem markBaseMemberPath_exact_wrapped :
    ∃ final, markBaseMemberPath wrapped (some ['b']) none 17 uint32Max (emptyState wrapped) 1
        wrapped.types[0] = .ok (final, some 3) ∧
      Records wrapped (emptyState wrapped) final [(1, 1), (2, 0)] := by
  have hnested : NestedWithin wrapped 16 wrapped.types[0] := by
    intro nested hnext
    obtain rfl := wrapped_next hnext
    exact fun nested' hnext' => absurd hnext' (wrapped_inner_not_next nested')
  have hinside : Finds wrapped everyMember ['b'] 2 wrapped.types[1] [(2, 0)] 3 := by
    refine @Finds.own _ _ _ 2 0 wrapped.types[1] { nameOff := 5, type := 3 } ⟨rfl, rfl⟩ rfl ?_
    intro j hj
    cases hj
  have hfinds : Finds wrapped everyMember ['b'] 1 wrapped.types[0] [(1, 1), (2, 0)] 3 := by
    refine .nested wrapped_not_own ⟨rfl, rfl⟩ rfl ⟨.here, rfl, rfl⟩ ?_ hinside
    intro j hj earlier otherId other hearlier hunnamed
    obtain rfl : j = 0 := by omega
    cases hearlier.member_eq
    cases hunnamed
  exact (markBaseMemberPath_exact (.of_types (by decide) (by decide)) (emptyState_good wrapped) rfl
    rfl (by decide) wrapped_byValue hnested).2.1 _ _ hfinds

/-- `struct R { T64; }` behind 64 typedefs of `struct { int a; }`. -/
def typedefTower : Btf :=
  { types :=
      { kind := .struct, nameOff := 1, size := 4, members := [{ type := 2 }] } ::
        (List.range 64).map (fun k => { kind := .typedef, nameOff := 5, type := k + 3 }) ++
      [{ kind := .struct, size := 4, members := [{ nameOff := 3, type := 67 }] },
        { kind := .int, nameOff := 7, size := 4 }]
    strs := [nul, 'R', nul, 'a', nul, 'T', nul, 'i', 'n', 't', nul] }

theorem typedefTower_strips {k : Nat} (h : k ≤ 64) : Strips typedefTower (66 - k) 66 := by
  induction k with
  | zero => exact .here
  | succ k ih =>
      have hget : btfTypeById typedefTower (66 - (k + 1)) =
          some { kind := .typedef, nameOff := 5, type := 66 - k } := by
        obtain ⟨id, hid⟩ : ∃ id, 66 - (k + 1) = id + 2 := ⟨63 - k, by omega⟩
        have hlt : id < 64 := by omega
        have htype : id + 3 = 66 - k := by omega
        rw [hid, ← htype]
        simp [btfTypeById, typedefTower, List.getElem?_append, hlt]
      exact .step hget rfl (ih (by omega))

/-- The 64 lookups of the search end one type before the record. -/
theorem typedefTower_missed :
    (∃ path type, Finds typedefTower everyMember ['a'] 1 typedefTower.types[0] path type) ∧
      markBaseMemberPath typedefTower (some ['a']) none 17 uint32Max (emptyState typedefTower) 1
        typedefTower.types[0] = .ok (emptyState typedefTower, none) := by
  constructor
  · have hname : ∀ j other, KeptMember everyMember 1 typedefTower.types[0] j other →
        btfNameByOffset typedefTower other.nameOff ≠ some ['a'] := by
      intro j other hother
      have hmem := List.mem_of_getElem? hother.member_eq
      cases List.mem_singleton.mp hmem
      decide
    have hinside : Finds typedefTower everyMember ['a'] 66 typedefTower.types[65] [(66, 0)] 67 := by
      refine @Finds.own _ _ _ 66 0 typedefTower.types[65] { nameOff := 3, type := 67 } ⟨rfl, rfl⟩ rfl
        ?_
      intro j hj
      cases hj
    refine ⟨[(1, 0), (66, 0)], 67, .nested hname ⟨rfl, rfl⟩ rfl
      ⟨typedefTower_strips (Nat.le_refl 64), rfl, rfl⟩ ?_ hinside⟩
    intro j hj
    cases hj
  · rfl

end MinCorehdr
