import MinCorehdr.Seeds.MemberLookup
import MinCorehdr.Seeds.Tokens

/-!
# Does the expression of a relocation still resolve?

The names on the object's path, looked up one after the other by C's rule among
the marked members of the base.  The walk follows named members by name and
unnamed ones by position, so the answer rests on the base having an unnamed
record at the same position.
-/

namespace MinCorehdr

open Support.Result

/-- A path through members only, and the names on it; unnamed members are skipped. -/
inductive NamedPath (btf : Btf) : Nat → List Nat → List CString → Prop
  | nil {id : Nat} : NamedPath btf id [] []
  | named {id recordId i : Nat} {record : BtfType} {member : BtfMember} {name : CString}
      {cs : List Nat} {names : List CString} : RecordByValue btf id recordId record →
      record.members[i]? = some member → btfNameByOffset btf member.nameOff = some name →
      name ≠ [] → NamedPath btf member.type cs names → NamedPath btf id (i :: cs) (name :: names)
  | unnamed {id recordId i : Nat} {record : BtfType} {member : BtfMember} {cs : List Nat}
      {names : List CString} : RecordByValue btf id recordId record →
      record.members[i]? = some member → member.isUnnamed btf →
      NamedPath btf member.type cs names → NamedPath btf id (i :: cs) names

/-- Each name is found among the kept members of the record the one before it leads to. -/
inductive Resolves (btf : Btf) (kept : Nat → Nat → Bool) : Nat → List CString → Prop
  | nil {id : Nat} : Resolves btf kept id []
  | cons {id recordId type : Nat} {record : BtfType} {name : CString} {path : List (Nat × Nat)}
      {names : List CString} : RecordByValue btf id recordId record →
      Finds btf kept name recordId record path type → Resolves btf kept type names →
      Resolves btf kept id (name :: names)

/-- C lookup of the name in the whole record goes into its unnamed member `i`, if the name
is there at all: no member and no earlier unnamed member has it. -/
structure LeadsTo (btf : Btf) (name : CString) (recordId : Nat) (record : BtfType) (i : Nat) :
    Prop where
  not_own : ∀ j other, KeptMember everyMember recordId record j other →
    btfNameByOffset btf other.nameOff ≠ some name
  not_earlier : ∀ j < i, ∀ earlier otherId other, KeptMember everyMember recordId record j earlier →
    earlier.isUnnamed btf → RecordByValue btf earlier.type otherId other →
      Misses btf everyMember name otherId other

/-- The base is laid out as the object as far as the path needs it: its records are reached
by value, also those the search for a name enters, and where an unnamed member leads on to a
name, the base has an unnamed record at the same index, into which the lookup of that name
goes. -/
inductive Aligned (base object : Btf) : Nat → Nat → List Nat → Prop
  | done {objectId baseId : Nat} {cs : List Nat} : NamedPath object objectId cs [] →
      Aligned base object objectId baseId cs
  | named {objectId objectRecordId baseId recordId i : Nat} {objectRecord record : BtfType}
      {member : BtfMember} {name : CString} {cs : List Nat} :
      RecordByValue object objectId objectRecordId objectRecord → objectRecord.members[i]? = some member →
      btfNameByOffset object member.nameOff = some name → name ≠ [] →
      RecordByValue base baseId recordId record → EnteredByValue base name record →
      (∀ path type, Finds base everyMember name recordId record path type →
        Aligned base object member.type type cs) →
      Aligned base object objectId baseId (i :: cs)
  | unnamed {objectId objectRecordId baseId recordId i : Nat} {objectRecord record : BtfType}
      {member baseMember : BtfMember} {name : CString} {cs : List Nat} {names : List CString} :
      RecordByValue object objectId objectRecordId objectRecord → objectRecord.members[i]? = some member →
      member.isUnnamed object → NamedPath object member.type cs (name :: names) →
      RecordByValue base baseId recordId record → record.members[i]? = some baseMember →
      baseMember.isUnnamed base → LeadsTo base name recordId record i →
      Aligned base object member.type baseMember.type cs →
      Aligned base object objectId baseId (i :: cs)

section

variable {base object : Btf}

theorem NamedPath.unique {id : Nat} {cs : List Nat} {names : List CString}
    (h : NamedPath object id cs names) :
    ∀ {names' : List CString}, NamedPath object id cs names' → names = names' := by
  induction h with
  | nil =>
      intro names' h'
      cases h'
      rfl
  | named hvalue hmember hname hne _ ih =>
      intro names' h'
      cases h' with
      | named hvalue' hmember' hname' _ hrest' =>
          obtain ⟨rfl, rfl⟩ := hvalue.unique hvalue'
          rw [hmember] at hmember'
          cases hmember'
          rw [hname] at hname'
          cases hname'
          rw [ih hrest']
      | unnamed hvalue' hmember' hunnamed' _ =>
          obtain ⟨rfl, rfl⟩ := hvalue.unique hvalue'
          rw [hmember] at hmember'
          cases hmember'
          obtain ⟨c, text, rfl⟩ := List.exists_cons_of_ne_nil hne
          rw [BtfMember.isUnnamed, hname] at hunnamed'
          cases hunnamed'
  | unnamed hvalue hmember hunnamed _ ih =>
      intro names' h'
      cases h' with
      | named hvalue' hmember' hname' hne' _ =>
          obtain ⟨rfl, rfl⟩ := hvalue.unique hvalue'
          rw [hmember] at hmember'
          cases hmember'
          obtain ⟨c, text, rfl⟩ := List.exists_cons_of_ne_nil hne'
          rw [BtfMember.isUnnamed, hname'] at hunnamed
          cases hunnamed
      | unnamed hvalue' hmember' _ hrest' =>
          obtain ⟨rfl, rfl⟩ := hvalue.unique hvalue'
          rw [hmember] at hmember'
          cases hmember'
          exact ih hrest'

/-- More members kept: what was marked on the way stays. -/
def SeedState.keeps (state : SeedState) (recordId i : Nat) : Bool :=
  state.requirements.holds (.member recordId i)

theorem markBaseMemberPath_grows {memberName : Option CString} {origin : Option RequirementOrigin}
    {levels fallback recordId : Nat} {record : BtfType} {state final : SeedState}
    {found : Option Nat} (hgood : state.Good base)
    (h : markBaseMemberPath base memberName origin levels fallback state recordId record =
      .ok (final, found)) :
    final.Good base ∧ ∀ key, state.requirements.holds key = true →
      final.requirements.holds key = true := by
  obtain ⟨outcome, hfollows⟩ :=
    markBaseMemberPath_follows base memberName origin levels fallback recordId record
  obtain ⟨batch, _, happly⟩ := (hfollows state).sound _ h
  have hjoins := applyRequests_joins hgood happly
  exact ⟨hjoins.good, fun key hkey => (hjoins.holds_iff key).mpr (Or.inl hkey)⟩

variable {objectPath access : CString} {origin : Option RequirementOrigin}

/-- What a turn of the walk that succeeds has done. -/
theorem recordComponent_eq_ok {component objectId baseId objectId' baseId' : Nat}
    {state final : SeedState}
    (h : recordComponent base object objectPath access origin component objectId baseId state =
      .ok (final, objectId', baseId')) :
    ∃ objectRecordId objectRecord recordId record member,
      peelToRecord object objectId = some (objectRecordId, objectRecord) ∧
      peelToRecord base baseId = some (recordId, record) ∧
      objectRecord.members[component]? = some member ∧ objectId' = member.type ∧
      markBaseMemberPath base (btfNameByOffset object member.nameOff) origin 17 component state
        recordId record = .ok (final, some baseId') := by
  unfold recordComponent at h
  cases hobject : peelToRecord object objectId with
  | none =>
      rw [hobject] at h
      cases h
  | some objectFound =>
      cases hbase : peelToRecord base baseId with
      | none =>
          rw [hobject, hbase] at h
          cases h
      | some baseFound =>
          rw [hobject, hbase] at h
          simp only at h
          split at h
          next => cases h
          next member hmember =>
            obtain ⟨⟨mid, found⟩, hmark, h⟩ := bind_eq_ok.mp h
            cases found with
            | none => cases h
            | some type =>
                cases h
                exact ⟨_, _, _, _, member, rfl, rfl, hmember, rfl, onError_eq_ok.mp hmark⟩

theorem recordComponents_grows {cs : List Nat} : ∀ {objectId baseId : Nat} {state final : SeedState},
    state.Good base → recordComponents base object objectPath access origin cs objectId baseId state =
      .ok final → final.Good base ∧
        ∀ key, state.requirements.holds key = true → final.requirements.holds key = true := by
  induction cs with
  | nil =>
      intro objectId baseId state final hgood h
      cases h
      exact ⟨hgood, fun _ hkey => hkey⟩
  | cons component cs ih =>
      intro objectId baseId state final hgood h
      obtain ⟨⟨mid, objectId', baseId'⟩, hstep, hrest⟩ := bind_eq_ok.mp h
      obtain ⟨_, _, _, _, _, _, _, _, _, hmark⟩ := recordComponent_eq_ok hstep
      obtain ⟨hmid, hgrows⟩ := markBaseMemberPath_grows hgood hmark
      obtain ⟨hfinal, hgrows'⟩ := ih hmid hrest
      exact ⟨hfinal, fun key hkey => hgrows' key (hgrows key hkey)⟩

/-- An unnamed member of the object is matched by position. -/
theorem markBaseMemberPath_unnamed {memberName : Option CString} {levels i recordId type : Nat}
    {record : BtfType} {state final : SeedState} (hgood : state.Good base)
    (hunnamed : isNamed memberName = false)
    (h : markBaseMemberPath base memberName origin (levels + 1) i state recordId record =
      .ok (final, some type)) :
    (∃ member, record.members[i]? = some member ∧ type = member.type) ∧
      Records base state final [(recordId, i)] := by
  have hfind : findBaseMember base record memberName i =
      if record.members.length ≤ i then none else some i := by
    unfold findBaseMember
    split
    next => cases hunnamed
    next => rfl
  rw [markBaseMemberPath, hfind] at h
  by_cases hi : record.members.length ≤ i
  · rw [if_pos hi] at h
    simp only [hunnamed, if_true] at h
    cases h
  · rw [if_neg hi] at h
    obtain ⟨mid, hrequire, h⟩ := bind_eq_ok.mp h
    rw [List.getElem?_eq_getElem (Nat.not_le.mp hi)] at h
    cases h
    exact ⟨⟨_, List.getElem?_eq_getElem (Nat.not_le.mp hi), rfl⟩,
      requireMember_records hgood hrequire⟩

/-- The walk over an aligned path leaves members among which its names resolve. -/
theorem recordComponents_resolves {objectId baseId : Nat} {cs : List Nat}
    (h : Aligned base object objectId baseId cs) :
    ∀ {names : List CString} {state final : SeedState}, NamedPath object objectId cs names →
      state.Good base → recordComponents base object objectPath access origin cs objectId baseId
        state = .ok final → Resolves base final.keeps baseId names := by
  induction h with
  | done hpath =>
      intro names state final hnames _ _
      obtain rfl := hpath.unique hnames
      exact .nil
  | @named objectId objectRecordId baseId recordId i objectRecord record member name cs hobject
      hmember hname hne hbase hvalue _ ih =>
      intro names state final hnames hgood hrun
      obtain ⟨⟨mid, objectId', baseId'⟩, hstep, hrest⟩ := bind_eq_ok.mp hrun
      obtain ⟨_, _, _, _, member', hpeel, hpeelBase, hmember', rfl, hmark⟩ :=
        recordComponent_eq_ok hstep
      cases peelToRecord_of_strips hobject.strips hobject.type_eq hobject.isRecord hpeel
      cases peelToRecord_of_strips hbase.strips hbase.type_eq hbase.isRecord hpeelBase
      rw [hmember] at hmember'
      cases hmember'
      rw [hname] at hmark
      obtain ⟨path, hfinds, hrecords⟩ := markBaseMemberPath_entered hne hvalue hgood hmark
      cases hnames with
      | named hobject' hmember' hname' _ hpath =>
          obtain ⟨rfl, rfl⟩ := hobject.unique hobject'
          rw [hmember] at hmember'
          cases hmember'
          rw [hname] at hname'
          cases hname'
          obtain ⟨_, hgrows⟩ := recordComponents_grows hrecords.good hrest
          refine .cons hbase (hfinds.restrict ?_) (ih path baseId' hfinds hpath hrecords.good hrest)
          rintro ⟨recordId', i'⟩ hmem
          exact hgrows _ ((hrecords.holds_iff _).mpr (Or.inr ⟨recordId', i', hmem, rfl⟩))
      | unnamed hobject' hmember' hunnamed _ =>
          obtain ⟨rfl, rfl⟩ := hobject.unique hobject'
          rw [hmember] at hmember'
          cases hmember'
          obtain ⟨c, text, rfl⟩ := List.exists_cons_of_ne_nil hne
          rw [BtfMember.isUnnamed, hname] at hunnamed
          cases hunnamed
  | @unnamed objectId objectRecordId baseId recordId i objectRecord record member baseMember name cs
      names hobject hmember hunnamed hpath hbase hbaseMember hbaseUnnamed hleads _ ih =>
      intro names' state final hnames hgood hrun
      obtain rfl := (NamedPath.unnamed hobject hmember hunnamed hpath).unique hnames
      obtain ⟨⟨mid, objectId', baseId'⟩, hstep, hrest⟩ := bind_eq_ok.mp hrun
      obtain ⟨_, _, _, _, member', hpeel, hpeelBase, hmember', rfl, hmark⟩ :=
        recordComponent_eq_ok hstep
      cases peelToRecord_of_strips hobject.strips hobject.type_eq hobject.isRecord hpeel
      cases peelToRecord_of_strips hbase.strips hbase.type_eq hbase.isRecord hpeelBase
      rw [hmember] at hmember'
      cases hmember'
      obtain ⟨⟨found, hfound, htype⟩, hrecords⟩ := markBaseMemberPath_unnamed hgood hunnamed hmark
      rw [hbaseMember] at hfound
      cases hfound
      rw [htype] at hrest
      obtain ⟨_, hgrows⟩ := recordComponents_grows hrecords.good hrest
      have hkept : final.keeps recordId i = true :=
        hgrows _ ((hrecords.holds_iff _).mpr (Or.inr ⟨recordId, i, List.mem_cons_self, rfl⟩))
      cases ih hpath hrecords.good hrest with
      | cons hnested hfinds hresolves =>
          refine .cons hbase (.nested ?_ ⟨hbaseMember, hkept⟩ hbaseUnnamed hnested ?_ hfinds) hresolves
          · intro j other hother
            exact hleads.not_own j other ⟨hother.member_eq, rfl⟩
          · intro j hj earlier otherId other hearlier hunnamed' hvalue'
            exact (hleads.not_earlier j hj earlier otherId other ⟨hearlier.member_eq, rfl⟩ hunnamed'
              hvalue').restrict

end

/-- A field relocation whose path goes through members only: when it has been recorded, its
expression resolves among the marked members, provided the base is aligned with the object
along the path. -/
theorem recordCoreReloRequirements_resolves {base object : Btf} {objectPath access : CString}
    {origin : Option RequirementOrigin} {relo : CoreRelo} {root baseId : Nat} {cs : List Nat}
    {names : List CString} {state final : SeedState} (hgood : state.Good base)
    (hkind : isFieldReloKind relo.kind = true)
    (haccess : accessComponents access = some (root :: cs))
    (hpath : NamedPath object relo.typeId cs names)
    (hok : recordCoreReloRequirements base object objectPath relo baseId (some access) origin state =
      .ok final)
    (haligned : Aligned base object relo.typeId baseId cs) :
    Resolves base final.keeps baseId names := by
  rw [recordCoreReloRequirements_eq_components hkind haccess] at hok
  exact recordComponents_resolves haligned hpath hgood hok

theorem wrapped_aligned : Aligned wrapped wrapped 1 1 [1, 0] := by
  have hinner : Aligned wrapped wrapped 2 2 [0] :=
    @Aligned.named wrapped wrapped 2 2 2 2 0 wrapped.types[1] wrapped.types[1]
      { nameOff := 5, type := 3 } ['b'] [] ⟨.here, rfl, rfl⟩ rfl rfl (by decide) ⟨.here, rfl, rfl⟩
      (@EnteredByValue.own wrapped ['b'] wrapped.types[1] 0 { nameOff := 5, type := 3 } rfl rfl)
      (fun _ _ _ => .done .nil)
  have hpath : NamedPath wrapped 2 [0] [['b']] :=
    @NamedPath.named wrapped 2 2 0 wrapped.types[1] { nameOff := 5, type := 3 } ['b'] [] []
      ⟨.here, rfl, rfl⟩ rfl rfl (by decide) .nil
  have hleads : LeadsTo wrapped ['b'] 1 wrapped.types[0] 1 := by
    refine ⟨wrapped_not_own, ?_⟩
    intro j hj earlier otherId other hearlier hunnamed
    obtain rfl : j = 0 := by omega
    cases hearlier.member_eq
    cases hunnamed
  exact @Aligned.unnamed wrapped wrapped 1 1 1 1 1 wrapped.types[0] wrapped.types[0]
    { type := 2, offset := 32 } { type := 2, offset := 32 } ['b'] [0] [] ⟨.here, rfl, rfl⟩ rfl rfl
    hpath ⟨.here, rfl, rfl⟩ rfl rfl hleads hinner

theorem wrapped_path : NamedPath wrapped 1 [1, 0] [['b']] := by
  have hinner : NamedPath wrapped 2 [0] [['b']] :=
    @NamedPath.named wrapped 2 2 0 wrapped.types[1] { nameOff := 5, type := 3 } ['b'] [] []
      ⟨.here, rfl, rfl⟩ rfl rfl (by decide) .nil
  exact @NamedPath.unnamed wrapped 1 1 1 wrapped.types[0] { type := 2, offset := 32 } [0] [['b']]
    ⟨.here, rfl, rfl⟩ rfl rfl hinner

theorem recordCoreReloRequirements_resolves_wrapped :
    ∃ final, recordCoreReloRequirements wrapped wrapped [] (byteOffset 1) 1
        (some (accessText [0, 1, 0])) none (emptyState wrapped) = .ok final ∧
      Resolves wrapped final.keeps 1 [['b']] := by
  have hok : ∃ final, recordCoreReloRequirements wrapped wrapped [] (byteOffset 1) 1
      (some (accessText [0, 1, 0])) none (emptyState wrapped) = .ok final := ⟨_, rfl⟩
  obtain ⟨final, hok⟩ := hok
  refine ⟨final, hok, ?_⟩
  exact @recordCoreReloRequirements_resolves wrapped wrapped [] (accessText [0, 1, 0]) none
    (byteOffset 1) 0 1 [1, 0] [['b']] (emptyState wrapped) final (emptyState_good wrapped) rfl rfl
    wrapped_path hok wrapped_aligned

/-- `struct R { struct { int a; }; }`. -/
def wrapper : Btf :=
  { types := [
      { kind := .struct, nameOff := 1, size := 4, members := [{ type := 2 }] },
      { kind := .struct, size := 4, members := [{ nameOff := 3, type := 3 }] },
      { kind := .int, nameOff := 5, size := 4 }]
    strs := [nul, 'R', nul, 'a', nul, 'i', 'n', 't', nul] }

/-- `struct R { struct X hdr; struct { int a; }; }` with `struct X { int a; }`. -/
def shiftedWrapper : Btf :=
  { types := [
      { kind := .struct, nameOff := 1, size := 8
        members := [{ nameOff := 3, type := 2 }, { type := 3, offset := 32 }] },
      { kind := .struct, nameOff := 7, size := 4, members := [{ nameOff := 9, type := 4 }] },
      { kind := .struct, size := 4, members := [{ nameOff := 9, type := 4 }] },
      { kind := .int, nameOff := 11, size := 4 }]
    strs := [nul, 'R', nul, 'h', 'd', 'r', nul, 'X', nul, 'a', nul, 'i', 'n', 't', nul] }

/-- The walk takes `hdr` for the wrapper and marks the `a` of `struct X`; the expression
needs the `a` of the unnamed record. -/
theorem shiftedWrapper_not_resolves :
    NamedPath wrapper 1 [0, 0] [['a']] ∧
      ∃ final, recordCoreReloRequirements shiftedWrapper wrapper [] (byteOffset 1) 1
          (some (accessText [0, 0, 0])) none (emptyState shiftedWrapper) = .ok final ∧
        ¬Resolves shiftedWrapper final.keeps 1 [['a']] := by
  constructor
  · have hinner : NamedPath wrapper 2 [0] [['a']] :=
      @NamedPath.named wrapper 2 2 0 wrapper.types[1] { nameOff := 3, type := 3 } ['a'] [] []
        ⟨.here, rfl, rfl⟩ rfl rfl (by decide) .nil
    exact @NamedPath.unnamed wrapper 1 1 0 wrapper.types[0] { type := 2 } [0] [['a']]
      ⟨.here, rfl, rfl⟩ rfl rfl hinner
  · have hrun : ∃ final, recordCoreReloRequirements shiftedWrapper wrapper [] (byteOffset 1) 1
        (some (accessText [0, 0, 0])) none (emptyState shiftedWrapper) = .ok final ∧
          final.keeps 1 1 = false := ⟨_, rfl, rfl⟩
    obtain ⟨final, hok, hdropped⟩ := hrun
    refine ⟨final, hok, ?_⟩
    intro hresolves
    cases hresolves with
    | @cons _ recordId type record _ path _ hvalue hfinds _ =>
        have hroot : RecordByValue shiftedWrapper 1 1 shiftedWrapper.types[0] := ⟨.here, rfl, rfl⟩
        obtain ⟨rfl, rfl⟩ := hroot.unique hvalue
        cases hfinds with
        | own hmember hname _ =>
            have hall : ∀ other ∈ shiftedWrapper.types[0].members,
                btfNameByOffset shiftedWrapper other.nameOff ≠ some ['a'] := by decide
            exact hall _ (List.mem_of_getElem? hmember.member_eq) hname
        | @nested _ i nestedId _ _ nested member _ _ hmember hunnamed _ _ _ =>
            match i, hmember with
            | 0, hmember =>
                cases hmember.member_eq
                cases hunnamed
            | 1, hmember =>
                rw [hmember.isKept] at hdropped
                cases hdropped
            | _ + 2, hmember => cases hmember.member_eq

end MinCorehdr
