import Mathlib.Order.ConditionallyCompleteLattice.Basic
import MinCorehdr.Demand
import MinCorehdr.Seeds.Candidates
import MinCorehdr.Seeds.Encoding
import MinCorehdr.Seeds.Resolves

/-!
# What an object asks for, read off the object

The demand of a run in terms of its objects' types and relocations: the base matches of the
candidates, and for each relocation its root and the members that C lookup passes on the
access path.
-/

namespace MinCorehdr

open Support.Result

/-! ## Demands that computations add -/

/-- A type and the requirement that it is there. -/
def rootDemand (baseId : Nat) : Demand := ({baseId}, {.root baseId})

/-- Members and their records. -/
def memberDemand (members : List (Nat × Nat)) : Demand :=
  ({ id | ∃ i, (id, i) ∈ members }, { key | ∃ id i, (id, i) ∈ members ∧ key = .member id i })

theorem memberDemand_nil : memberDemand [] = ⊥ := by
  refine Prod.ext (Set.ext fun id => ?_) (Set.ext fun key => ?_)
  · simp [memberDemand]
  · simp [memberDemand]

theorem memberDemand_append (members members' : List (Nat × Nat)) :
    memberDemand (members ++ members') = memberDemand members ⊔ memberDemand members' := by
  refine Prod.ext (Set.ext fun id => ?_) (Set.ext fun key => ?_)
  · simp [memberDemand, exists_or]
  · simp [memberDemand, or_and_right, exists_or]

/-- The state has come to hold the demand as well. -/
structure Adds (base : Btf) (before after : SeedState) (demand : Demand) : Prop where
  good : after.Good base
  demand_eq : after.demand = before.demand ⊔ demand

/-- The computation succeeds where `ok` holds, and then adds the demand. -/
structure AsksExactly {ρ : Type} (base : Btf) (before : SeedState) (x : Except Fault ρ)
    (after : ρ → SeedState) (ok : Prop) (demand : Demand) : Prop where
  succeeds_iff : (∃ r, x = .ok r) ↔ ok
  adds : ∀ r, x = .ok r → Adds base before (after r) demand

section

variable {ρ ρ' α : Type} {base : Btf} {before mid state : SeedState} {demand demand' : Demand}

theorem Adds.refl (h : state.Good base) : Adds base state state ⊥ := ⟨h, (sup_bot_eq _).symm⟩

theorem Adds.trans (h : Adds base before mid demand) (h' : Adds base mid state demand') :
    Adds base before state (demand ⊔ demand') := by
  refine ⟨h'.good, ?_⟩
  rw [h'.demand_eq, h.demand_eq, sup_assoc]

theorem AsksExactly.bind {x : Except Fault ρ} {next : ρ → Except Fault ρ'} {after : ρ → SeedState}
    {after' : ρ' → SeedState} {ok ok' : Prop} (hx : AsksExactly base before x after ok demand)
    (hnext : ∀ r, x = .ok r → (after r).Good base →
      AsksExactly base (after r) (next r) after' ok' demand') :
    AsksExactly base before (x >>= next) after' (ok ∧ ok') (demand ⊔ demand') where
  succeeds_iff := by
    constructor
    · rintro ⟨r', h⟩
      obtain ⟨r, hr, hr'⟩ := bind_eq_ok.mp h
      exact ⟨hx.succeeds_iff.mp ⟨r, hr⟩, (hnext r hr (hx.adds r hr).good).succeeds_iff.mp ⟨r', hr'⟩⟩
    · rintro ⟨hok, hok'⟩
      obtain ⟨r, hr⟩ := hx.succeeds_iff.mpr hok
      obtain ⟨r', hr'⟩ := (hnext r hr (hx.adds r hr).good).succeeds_iff.mpr hok'
      exact ⟨r', bind_eq_ok.mpr ⟨r, hr, hr'⟩⟩
  adds := by
    intro r' h
    obtain ⟨r, hr, hr'⟩ := bind_eq_ok.mp h
    have hadds := hx.adds r hr
    exact hadds.trans ((hnext r hr hadds.good).adds r' hr')

/-- A loop asks for what its turns ask for. -/
theorem AsksExactly.foldlM {step : ρ → α → Except Fault ρ} {after : ρ → SeedState} {as : List α}
    {ok : α → Prop} {demand : α → Demand}
    (h : ∀ a ∈ as, ∀ r, (after r).Good base →
      AsksExactly base (after r) (step r a) after (ok a) (demand a)) :
    ∀ {r : ρ}, (after r).Good base →
      AsksExactly base (after r) (as.foldlM step r) after (∀ a ∈ as, ok a) (⨆ a ∈ as, demand a) := by
  induction as with
  | nil =>
      intro r hgood
      constructor
      · simp [Pure.pure, Except.pure]
      · rintro r' heq
        cases heq
        have hempty : (⨆ a ∈ ([] : List α), demand a) = ⊥ := by simp
        rw [hempty]
        exact Adds.refl hgood
  | cons a as ih =>
      intro r hgood
      have hrest := @ih fun other hother => h other (List.mem_cons_of_mem a hother)
      have hbind := (h a List.mem_cons_self r hgood).bind fun mid _ hmid => hrest hmid
      have hdemand : (⨆ other ∈ a :: as, demand other) = demand a ⊔ ⨆ other ∈ as, demand other := by
        simp [iSup_or, iSup_sup_eq]
      rw [List.foldlM_cons, List.forall_mem_cons, hdemand]
      exact hbind

end

theorem Records.adds {base : Btf} {before after : SeedState} {members : List (Nat × Nat)}
    (h : Records base before after members) : Adds base before after (memberDemand members) := by
  refine ⟨h.good, Prod.ext (Set.ext fun id => ?_) (Set.ext fun key => ?_)⟩
  · exact h.seeds_iff id
  · exact h.holds_iff key

/-! ## The members of an access path -/

/-- Unnamed members of the base's records lead to records by value, at most 16 deep. -/
def Btf.Searchable (base : Btf) : Prop :=
  ∀ id record, btfTypeById base id = some record → record.kind.isRecord = true →
    AnonymousByValue base record ∧ NestedWithin base 16 record

/-- A base whose records have no unnamed members. -/
theorem Btf.Searchable.of_named {base : Btf} (h : ∀ type ∈ base.types, ∀ member ∈ type.members,
    isNamed (btfNameByOffset base member.nameOff) = true) : base.Searchable := by
  intro id record hrecord hkind
  have hmem : record ∈ base.types := by
    cases id with
    | zero =>
        cases hrecord
        cases hkind
    | succ id => exact List.mem_of_getElem? hrecord
  have hnamed : ∀ member ∈ record.members, ¬member.isUnnamed base := by
    intro member hmember hunnamed
    have htrue := h record hmem member hmember
    rw [BtfMember.isUnnamed, htrue] at hunnamed
    cases hunnamed
  have hlast : ∀ nested, ¬AnonNext base record nested := by
    rintro nested ⟨member, hmember, hunnamed, _⟩
    exact hnamed member hmember hunnamed
  constructor
  · intro nested hreach
    rcases Relation.ReflTransGen.cases_head hreach with rfl | ⟨next, hnext, _⟩
    · exact fun member hmember hunnamed => absurd hunnamed (hnamed member hmember)
    · exact absurd hnext (hlast next)
  · exact fun nested hnext => absurd hnext (hlast nested)

/-- What one component passes, as the code follows it: both types are peeled to a record, also
through arrays, and the member is found by name where the object's has one, else by position. -/
inductive FieldStep (base object : Btf) (objectId baseId component : Nat) :
    Nat → Nat → List (Nat × Nat) → Prop
  | named {objectRecordId recordId type : Nat} {objectRecord record : BtfType} {member : BtfMember}
      {name : CString} {members : List (Nat × Nat)}
      (hobject : peelToRecord object objectId = some (objectRecordId, objectRecord))
      (hbase : peelToRecord base baseId = some (recordId, record))
      (hmember : objectRecord.members[component]? = some member)
      (hname : btfNameByOffset object member.nameOff = some name) (hne : name ≠ [])
      (hfinds : Finds base everyMember name recordId record members type) :
      FieldStep base object objectId baseId component member.type type members
  | unnamed {objectRecordId recordId : Nat} {objectRecord record : BtfType}
      {member baseMember : BtfMember}
      (hobject : peelToRecord object objectId = some (objectRecordId, objectRecord))
      (hbase : peelToRecord base baseId = some (recordId, record))
      (hmember : objectRecord.members[component]? = some member)
      (hunnamed : member.isUnnamed object)
      (hbaseMember : record.members[component]? = some baseMember) :
      FieldStep base object objectId baseId component member.type baseMember.type
        [(recordId, component)]

/-- The base members that an access path passes. -/
inductive FieldPath (base object : Btf) : Nat → Nat → List Nat → List (Nat × Nat) → Prop
  | done {objectId baseId : Nat} : FieldPath base object objectId baseId [] []
  | step {objectId baseId component objectId' baseId' : Nat} {rest : List Nat}
      {members members' : List (Nat × Nat)} :
      FieldStep base object objectId baseId component objectId' baseId' members →
      FieldPath base object objectId' baseId' rest members' →
      FieldPath base object objectId baseId (component :: rest) (members ++ members')

theorem isNamed_some {name : CString} (h : name ≠ []) : isNamed (some name) = true := by
  cases name with
  | nil => exact absurd rfl h
  | cons c name => rfl

theorem FieldStep.unique {base object : Btf} {objectId baseId component objectId' baseId' : Nat}
    {members : List (Nat × Nat)}
    (h : FieldStep base object objectId baseId component objectId' baseId' members) :
    ∀ {objectId'' baseId'' : Nat} {members' : List (Nat × Nat)},
      FieldStep base object objectId baseId component objectId'' baseId'' members' →
        objectId' = objectId'' ∧ baseId' = baseId'' ∧ members = members' := by
  intro objectId'' baseId'' members' h'
  cases h with
  | named hobject hbase hmember hname hne hfinds =>
      cases h' with
      | named hobject' hbase' hmember' hname' _ hfinds' =>
          cases hobject.symm.trans hobject'
          cases hbase.symm.trans hbase'
          cases hmember.symm.trans hmember'
          cases hname.symm.trans hname'
          obtain ⟨rfl, rfl⟩ := hfinds.unique hfinds'
          exact ⟨rfl, rfl, rfl⟩
      | unnamed hobject' _ hmember' hunnamed =>
          cases hobject.symm.trans hobject'
          cases hmember.symm.trans hmember'
          rw [BtfMember.isUnnamed, hname, isNamed_some hne] at hunnamed
          cases hunnamed
  | unnamed hobject hbase hmember hunnamed hbaseMember =>
      cases h' with
      | named hobject' _ hmember' hname hne =>
          cases hobject.symm.trans hobject'
          cases hmember.symm.trans hmember'
          rw [BtfMember.isUnnamed, hname, isNamed_some hne] at hunnamed
          cases hunnamed
      | unnamed hobject' hbase' hmember' _ hbaseMember' =>
          cases hobject.symm.trans hobject'
          cases hbase.symm.trans hbase'
          cases hmember.symm.trans hmember'
          cases hbaseMember.symm.trans hbaseMember'
          exact ⟨rfl, rfl, rfl⟩

theorem FieldPath.unique {base object : Btf} {objectId baseId : Nat} {cs : List Nat}
    {members : List (Nat × Nat)} (h : FieldPath base object objectId baseId cs members) :
    ∀ {members' : List (Nat × Nat)}, FieldPath base object objectId baseId cs members' →
      members = members' := by
  induction h with
  | done =>
      intro members' h'
      cases h'
      rfl
  | step hstep _ ih =>
      intro members' h'
      cases h' with
      | step hstep' hrest' =>
          obtain ⟨rfl, rfl, rfl⟩ := hstep.unique hstep'
          rw [ih hrest']

section

variable {base object : Btf} {objectPath access : CString} {origin : Option RequirementOrigin}

/-- A component is followed where it passes members, and then adds them. -/
theorem recordComponent_asks (hformat : base.InFormat) (hsearch : base.Searchable)
    {component objectId baseId : Nat} {state : SeedState} (hgood : state.Good base) :
    (∀ final objectId' baseId',
      recordComponent base object objectPath access origin component objectId baseId state =
        .ok (final, objectId', baseId') →
      ∃ members, FieldStep base object objectId baseId component objectId' baseId' members ∧
        Adds base state final (memberDemand members)) ∧
    ∀ objectId' baseId' members,
      FieldStep base object objectId baseId component objectId' baseId' members →
      ∃ final, recordComponent base object objectPath access origin component objectId baseId state =
        .ok (final, objectId', baseId') := by
  constructor
  · intro final objectId' baseId' h
    obtain ⟨_, _, recordId, record, member, hobject, hbase, hmember, rfl, hmark⟩ :=
      recordComponent_eq_ok h
    obtain ⟨hrecord, hkind⟩ := btfTypeById_of_peelToRecord hbase
    obtain ⟨hvalue, _⟩ := hsearch recordId record hrecord hkind
    by_cases hunnamed : member.isUnnamed object
    · obtain ⟨⟨baseMember, hbaseMember, rfl⟩, hrecords⟩ :=
        markBaseMemberPath_unnamed hgood hunnamed hmark
      exact ⟨_, .unnamed hobject hbase hmember hunnamed hbaseMember, hrecords.adds⟩
    · obtain ⟨name, hname, hne⟩ : ∃ name, btfNameByOffset object member.nameOff = some name ∧
          name ≠ [] := by
        unfold BtfMember.isUnnamed at hunnamed
        cases hfound : btfNameByOffset object member.nameOff with
        | none => exact absurd (by rw [hfound]; rfl) hunnamed
        | some name =>
            refine ⟨name, rfl, ?_⟩
            rintro rfl
            exact hunnamed (by rw [hfound]; rfl)
      rw [hname] at hmark
      obtain ⟨members, hfinds, hrecords⟩ := markBaseMemberPath_ok hne hvalue hgood hmark
      exact ⟨members, .named hobject hbase hmember hname hne hfinds, hrecords.adds⟩
  · intro objectId' baseId' members h
    cases h with
    | @named _ recordId _ _ record _ name _ hobject hbase hmember hname hne hfinds =>
        obtain ⟨hrecord, hkind⟩ := btfTypeById_of_peelToRecord hbase
        obtain ⟨hvalue, hnested⟩ := hsearch recordId record hrecord hkind
        obtain ⟨final, hmark, _⟩ := (@markBaseMemberPath_exact base name origin component recordId
          record state hformat hgood hrecord hkind hne hvalue hnested).2.1 _ _ hfinds
        refine ⟨final, ?_⟩
        simp only [recordComponent, hobject, hbase, hmember, hname, hmark]
        rfl
    | @unnamed _ recordId _ record member baseMember hobject hbase hmember hunnamed hbaseMember =>
        obtain ⟨hrecord, hkind⟩ := btfTypeById_of_peelToRecord hbase
        obtain ⟨final, hrequire⟩ := @requireMember_total base origin record recordId component
          baseMember state hformat hgood hrecord hkind hbaseMember
        have hroom : ¬record.members.length ≤ component :=
          Nat.not_le.mpr (List.getElem?_eq_some_iff.mp hbaseMember).1
        have hfind : findBaseMember base record (btfNameByOffset object member.nameOff) component =
            some component := by
          unfold BtfMember.isUnnamed at hunnamed
          unfold findBaseMember
          split
          next hnamed =>
            rw [hnamed] at hunnamed
            cases hunnamed
          next => rw [if_neg hroom]
        refine ⟨final, ?_⟩
        simp only [recordComponent, hobject, hbase, hmember, markBaseMemberPath, hfind, hrequire,
          hbaseMember]
        rfl

/-- So is a list of components. -/
theorem recordComponents_asks (hformat : base.InFormat) (hsearch : base.Searchable) {cs : List Nat} :
    ∀ {objectId baseId : Nat} {state : SeedState}, state.Good base →
      (∀ final, recordComponents base object objectPath access origin cs objectId baseId state =
          .ok final →
        ∃ members, FieldPath base object objectId baseId cs members ∧
          Adds base state final (memberDemand members)) ∧
      ∀ members, FieldPath base object objectId baseId cs members →
        ∃ final, recordComponents base object objectPath access origin cs objectId baseId state =
          .ok final := by
  induction cs with
  | nil =>
      intro objectId baseId state hgood
      constructor
      · intro final h
        cases h
        refine ⟨[], .done, ?_⟩
        rw [memberDemand_nil]
        exact Adds.refl hgood
      · exact fun members _ => ⟨state, rfl⟩
  | cons component cs ih =>
      intro objectId baseId state hgood
      obtain ⟨hsound, hcomplete⟩ := @recordComponent_asks base object objectPath access origin hformat
        hsearch component objectId baseId state hgood
      constructor
      · intro final h
        obtain ⟨⟨mid, objectId', baseId'⟩, hstep, hrest⟩ := bind_eq_ok.mp h
        obtain ⟨members, hfield, hadds⟩ := hsound mid objectId' baseId' hstep
        obtain ⟨members', hpath, hadds'⟩ := (ih hadds.good).1 final hrest
        refine ⟨members ++ members', .step hfield hpath, ?_⟩
        rw [memberDemand_append]
        exact hadds.trans hadds'
      · intro members h
        cases h with
        | step hfield hpath =>
            obtain ⟨mid, hstep⟩ := hcomplete _ _ _ hfield
            obtain ⟨_, _, hadds⟩ := hsound mid _ _ hstep
            obtain ⟨final, hrest⟩ := (ih hadds.good).2 _ hpath
            exact ⟨final, bind_eq_ok.mpr ⟨_, hstep, hrest⟩⟩

end

/-! ## The access string -/

/-- The string lists the components, with or without a colon behind the last. -/
def ListsComponents (access : CString) (components : List Nat) : Prop :=
  AccessRuns access components ∨ ∃ body, access = body ++ [':'] ∧ AccessRuns body components

/-- The members that a relocation asks for, its root resolved. -/
inductive AccessAsks (base object : Btf) (relo : CoreRelo) (baseId : Nat) : List (Nat × Nat) → Prop
  | none (h : isFieldReloKind relo.kind = false ∨
      (btfStrByOffset object relo.accessStrOff).getD [] = []) : AccessAsks base object relo baseId []
  | field {access : CString} {root : Nat} {components : List Nat} {members : List (Nat × Nat)}
      (hkind : isFieldReloKind relo.kind = true)
      (haccess : btfStrByOffset object relo.accessStrOff = some access)
      (hlists : ListsComponents access (root :: components))
      (hpath : FieldPath base object relo.typeId baseId components members) :
      AccessAsks base object relo baseId members

theorem ListsComponents.ne_nil {access : CString} {components : List Nat}
    (h : ListsComponents access components) : access ≠ [] := by
  rcases h with hruns | ⟨body, rfl, _⟩
  · exact hruns.ne_nil
  · simp

theorem ListsComponents.unique {access : CString} {components components' : List Nat}
    (h : ListsComponents access components) (h' : ListsComponents access components') :
    components = components' := by
  have hsome := accessComponents_eq_some_iff.mpr h
  exact Option.some.inj (hsome.symm.trans (accessComponents_eq_some_iff.mpr h'))

section

variable {base object : Btf} {objectPath access : CString} {origin : Option RequirementOrigin}

/-- A walk that ends has read its string to the end. -/
theorem accessComponents_of_recordAccessPath {fuel : Nat} :
    ∀ {cursor : CString} {objectId baseId : Nat} {state final : SeedState}, cursor ≠ [] →
      recordAccessPath base object objectPath access origin fuel cursor objectId baseId state =
        .ok final → ∃ components, accessComponentsFrom fuel cursor = some components := by
  induction fuel with
  | zero =>
      intro cursor objectId baseId state final _ h
      cases h
  | succ fuel ih =>
      intro cursor objectId baseId state final hcursor h
      cases hparse : parseAccessComponent cursor with
      | none =>
          rw [recordAccessPath, if_neg hcursor, hparse] at h
          exact absurd h onError_fail_ne_ok
      | some parsed =>
          obtain ⟨value, rest⟩ := parsed
          rw [recordAccessPath_succ hparse] at h
          obtain ⟨⟨mid, objectId', baseId'⟩, _, hrest⟩ := bind_eq_ok.mp h
          by_cases hnil : rest = []
          · exact ⟨[value], accessComponentsFrom_succ_eq_some.mpr
              ⟨value, rest, hparse, Or.inl ⟨hnil, rfl⟩⟩⟩
          · obtain ⟨others, hothers⟩ := ih hnil hrest
            exact ⟨value :: others, accessComponentsFrom_succ_eq_some.mpr
              ⟨value, rest, hparse, Or.inr ⟨hnil, others, hothers, rfl⟩⟩⟩

theorem listsComponents_of_recordCoreReloRequirements {relo : CoreRelo} {baseId : Nat}
    {state final : SeedState} (hkind : isFieldReloKind relo.kind = true) (hne : access ≠ [])
    (h : recordCoreReloRequirements base object objectPath relo baseId (some access) origin state =
      .ok final) : ∃ root components, ListsComponents access (root :: components) := by
  have hguard : ¬(isFieldReloKind relo.kind = false ∨ access = []) := by
    rw [hkind]
    rintro (hfalse | hnil)
    · cases hfalse
    · exact hne hnil
  rw [recordCoreReloRequirements, if_neg hguard] at h
  cases hparse : parseAccessComponent access with
  | none =>
      rw [hparse] at h
      exact absurd h onError_fail_ne_ok
  | some parsed =>
      obtain ⟨root, rest⟩ := parsed
      rw [hparse] at h
      have hread : ∃ components, accessComponentsFrom (access.length + 1 + 1) access =
          some (root :: components) := by
        by_cases hnil : rest = []
        · exact ⟨[], accessComponentsFrom_succ_eq_some.mpr
            ⟨root, rest, hparse, Or.inl ⟨hnil, rfl⟩⟩⟩
        · obtain ⟨others, hothers⟩ := accessComponents_of_recordAccessPath hnil h
          exact ⟨others, accessComponentsFrom_succ_eq_some.mpr
            ⟨root, rest, hparse, Or.inr ⟨hnil, others, hothers, rfl⟩⟩⟩
      obtain ⟨components, hcomponents⟩ := hread
      exact ⟨root, components, accessRuns_of_accessComponentsFrom hcomponents⟩

theorem AccessAsks.unique {relo : CoreRelo} {baseId : Nat} {members members' : List (Nat × Nat)}
    (h : AccessAsks base object relo baseId members)
    (h' : AccessAsks base object relo baseId members') : members = members' := by
  have hapart : ∀ {text : CString} {components : List Nat}, isFieldReloKind relo.kind = true →
      btfStrByOffset object relo.accessStrOff = some text → ListsComponents text components →
      ¬(isFieldReloKind relo.kind = false ∨
        (btfStrByOffset object relo.accessStrOff).getD [] = []) := by
    intro text components hkind haccess hlists
    rw [hkind, haccess]
    rintro (hfalse | hnil)
    · cases hfalse
    · exact hlists.ne_nil hnil
  cases h with
  | none hnone =>
      cases h' with
      | none _ => rfl
      | field hkind haccess hlists _ => exact absurd hnone (hapart hkind haccess hlists)
  | field hkind haccess hlists hpath =>
      cases h' with
      | none hnone => exact absurd hnone (hapart hkind haccess hlists)
      | field _ haccess' hlists' hpath' =>
          cases haccess.symm.trans haccess'
          cases hlists.unique hlists'
          exact hpath.unique hpath'

/-- The walk succeeds where the relocation asks for members, and then adds them. -/
theorem recordCoreReloRequirements_asks (hformat : base.InFormat) (hsearch : base.Searchable)
    {relo : CoreRelo} {baseId : Nat} {state : SeedState} (hgood : state.Good base) :
    (∀ final, recordCoreReloRequirements base object objectPath relo baseId
        (btfStrByOffset object relo.accessStrOff) origin state = .ok final →
      ∃ members, AccessAsks base object relo baseId members ∧
        Adds base state final (memberDemand members)) ∧
    ∀ members, AccessAsks base object relo baseId members →
      ∃ final, recordCoreReloRequirements base object objectPath relo baseId
        (btfStrByOffset object relo.accessStrOff) origin state = .ok final := by
  have hskip : isFieldReloKind relo.kind = false ∨
      (btfStrByOffset object relo.accessStrOff).getD [] = [] →
      recordCoreReloRequirements base object objectPath relo baseId
        (btfStrByOffset object relo.accessStrOff) origin state = .ok state := by
    intro hnone
    unfold recordCoreReloRequirements
    cases haccess : btfStrByOffset object relo.accessStrOff with
    | none => rfl
    | some text =>
        rw [haccess] at hnone
        exact if_pos hnone
  constructor
  · intro final h
    by_cases hnone : isFieldReloKind relo.kind = false ∨
        (btfStrByOffset object relo.accessStrOff).getD [] = []
    · rw [hskip hnone] at h
      cases h
      refine ⟨[], .none hnone, ?_⟩
      rw [memberDemand_nil]
      exact Adds.refl hgood
    · obtain ⟨hkind, hne⟩ := not_or.mp hnone
      cases haccess : btfStrByOffset object relo.accessStrOff with
      | none => exact absurd (by rw [haccess]; rfl) hne
      | some text =>
          rw [haccess] at h
          have hfield : isFieldReloKind relo.kind = true := by simpa using hkind
          have htext : text ≠ [] := by simpa [haccess] using hne
          obtain ⟨root, components, hlists⟩ :=
            listsComponents_of_recordCoreReloRequirements hfield htext h
          rw [recordCoreReloRequirements_eq_components hfield
            (accessComponents_eq_some_iff.mpr hlists)] at h
          obtain ⟨members, hpath, hadds⟩ :=
            (recordComponents_asks hformat hsearch hgood).1 final h
          exact ⟨members, .field hfield haccess hlists hpath, hadds⟩
  · intro members h
    cases h with
    | none hnone => exact ⟨state, hskip hnone⟩
    | field hkind haccess hlists hpath =>
        rw [haccess, recordCoreReloRequirements_eq_components hkind
          (accessComponents_eq_some_iff.mpr hlists)]
        exact (recordComponents_asks hformat hsearch hgood).2 members hpath

end

/-! ## Roots -/

section

variable {base object : Btf} {index : BtfIndex} {objectPath reference : CString}

/-- Where program-local types are not allowed the same roots are found. -/
theorem resolveObjectTypeFrom_strict {objectTypeId : Nat} (depth : Nat) :
    ∀ {id : Nat} {rootName : Option CString} {query : ResolutionQuery} {baseId : Nat},
      resolveObjectTypeFrom index object objectTypeId objectPath reference false depth id rootName
          query = .ok (some baseId) ↔
        resolveObjectTypeFrom index object objectTypeId objectPath reference true depth id rootName
          query = .ok (some baseId) := by
  induction depth with
  | zero => exact Iff.rfl
  | succ depth ih =>
      intro id rootName query baseId
      rw [resolveObjectTypeFrom, resolveObjectTypeFrom]
      by_cases hrange : id = 0 ∨ btfTypeCnt object ≤ id
      · rw [if_pos hrange, if_pos hrange]
      · rw [if_neg hrange, if_neg hrange]
        cases btfTypeById object id with
        | none => exact Iff.rfl
        | some type =>
            have hmissing : ∀ {rootName query query' text baseResult hint},
                (if isChainKind type.kind = true then
                    resolveObjectTypeFrom index object objectTypeId objectPath reference false depth
                      type.type rootName query
                  else if false = true then .ok none
                  else resolutionFailure object objectTypeId objectPath reference query' text
                    baseResult hint) = .ok (some baseId) ↔
                  (if isChainKind type.kind = true then
                    resolveObjectTypeFrom index object objectTypeId objectPath reference true depth
                      type.type rootName query
                  else if true = true then .ok none
                  else resolutionFailure object objectTypeId objectPath reference query' text
                    baseResult hint) = .ok (some baseId) := by
              intro rootName query query' text baseResult hint
              by_cases hchain : isChainKind type.kind = true
              · rw [if_pos hchain, if_pos hchain]
                exact ih
              · rw [if_neg hchain, if_neg hchain, if_neg Bool.false_ne_true, if_pos rfl]
                exact iff_of_false (fun h => by cases h) (fun h => by cases h)
            simp only
            by_cases hseed : isSeedableKind type.kind = true ∧ mchBtfTypeName object type ≠ []
            · rw [if_pos hseed, if_pos hseed]
              cases mchBtfIndexLookup index (mchBtfTypeName object type) type.kind with
              | missing => exact hmissing
              | unique found => exact Iff.rfl
              | ambiguous => exact Iff.rfl
            · rw [if_neg hseed, if_neg hseed]
              by_cases henum : (type.kind = .enum ∨ type.kind = .enum64) ∧
                  mchBtfTypeName object type = []
              · rw [if_pos henum, if_pos henum]
                cases mchBtfIndexLookupAnonymousEnum index object type with
                | missing => exact hmissing
                | unique found => exact Iff.rfl
                | ambiguous => exact Iff.rfl
              · rw [if_neg henum, if_neg henum]
                exact hmissing

/-- The root of a relocation is the base type that its chain comes to. -/
theorem resolveObjectTypeToBase_eq_root (hindex : mchBtfIndexInit base = .ok index)
    (hrefs : object.RefsInRange) {id baseId : Nat} :
    resolveObjectTypeToBase index object id objectPath reference false = .ok (some baseId) ↔
      ChainEnds base object 32 id (.base baseId) := by
  unfold resolveObjectTypeToBase
  rw [resolveObjectTypeFrom_strict]
  by_cases hid : id < btfTypeCnt object
  · obtain ⟨last, hends, hresult⟩ := @resolveObjectTypeFrom_ends base object index id objectPath
      reference hindex hrefs 32 id none { id } hid
    constructor
    · intro h
      rw [h] at hresult
      cases last with
      | base found =>
          cases hresult
          exact hends
      | programLocal => cases hresult
      | ambiguous =>
          obtain ⟨fault, hfault⟩ := hresult
          cases hfault
      | void =>
          obtain ⟨fault, hfault⟩ := hresult
          cases hfault
      | tooLong =>
          obtain ⟨fault, hfault⟩ := hresult
          cases hfault
    · intro h
      obtain rfl := hends.unique h
      exact hresult
  · have hrange : id = 0 ∨ btfTypeCnt object ≤ id := by omega
    constructor
    · intro h
      rw [resolveObjectTypeFrom, if_pos hrange] at h
      exact absurd h onError_fail_ne_ok
    · intro h
      have hfound : ∃ type, btfTypeById object id = some type := by
        cases h with
        | found _ htype _ _ => exact ⟨_, htype⟩
        | step _ htype _ _ _ => exact ⟨_, htype⟩
      obtain ⟨type, htype⟩ := hfound
      exact absurd (btfTypeById_eq_some_lt htype) hid

end

section

variable {base : Btf} {state final : SeedState}

/-- Requests that have been granted are in the demand. -/
theorem applyRequests_adds {requests : List Request} (hgood : state.Good base)
    (h : applyRequests base state requests = .ok final) :
    Adds base state final (requestedDemand base requests) := by
  have hjoins := applyRequests_joins hgood h
  refine ⟨hjoins.good, Prod.ext (Set.ext fun id => ?_) (Set.ext fun key => ?_)⟩
  · exact hjoins.seeds_iff id
  · exact hjoins.holds_iff key

theorem requestedDemand_root {baseId : Nat} {requests : List Request}
    {origin : Option RequirementOrigin} (hid : baseId < btfTypeCnt base)
    (h : ∀ request, request ∈ requests ↔
      request = .seed baseId ∨ request = .need (.root baseId) origin) :
    requestedDemand base requests = rootDemand baseId := by
  refine Prod.ext (Set.ext fun id => ?_) (Set.ext fun key => ?_)
  · simp only [requestedDemand, rootDemand, h, Set.mem_ofPred_eq, Set.mem_singleton_iff]
    constructor
    · rintro ⟨heq | heq, _⟩
      · cases heq
        rfl
      · cases heq
    · rintro rfl
      exact ⟨Or.inl rfl, hid⟩
  · simp only [requestedDemand, rootDemand, h, Set.mem_ofPred_eq, Set.mem_singleton_iff]
    constructor
    · rintro ⟨_, heq | heq⟩
      · cases heq
      · cases heq
        rfl
    · rintro rfl
      exact ⟨origin, Or.inr rfl⟩

theorem addSeed_good (hgood : state.Good base) (baseId : Nat) : (addSeed state baseId).1.Good base :=
  ⟨(count_mchTypeSetAdd state.seeds baseId).trans hgood.count_eq, hgood.consistent⟩

/-- The seed, then the root. -/
theorem seedThenRoot_adds {baseId : Nat} {origin : Option RequirementOrigin} (hgood : state.Good base)
    (hid : baseId < btfTypeCnt base)
    (h : requireTypeRoot (addSeed state baseId).1 baseId origin = .ok final) :
    Adds base state final (rootDemand baseId) := by
  have happly : applyRequests base state [.seed baseId, .need (.root baseId) origin] = .ok final :=
    foldlM_cons_eq_ok.mpr ⟨_, rfl, foldlM_cons_eq_ok.mpr ⟨final, h, rfl⟩⟩
  have hadds := applyRequests_adds hgood happly
  rw [requestedDemand_root hid fun request => List.mem_pair] at hadds
  exact hadds

/-- The root, then the seed. -/
theorem rootThenSeed_adds {baseId : Nat} {origin : Option RequirementOrigin} {mid : SeedState}
    (hgood : state.Good base) (hid : baseId < btfTypeCnt base)
    (h : requireTypeRoot state baseId origin = .ok mid) :
    Adds base state (addSeed mid baseId).1 (rootDemand baseId) := by
  have happly : applyRequests base state [.need (.root baseId) origin, .seed baseId] =
      .ok (addSeed mid baseId).1 :=
    foldlM_cons_eq_ok.mpr ⟨mid, h, foldlM_cons_eq_ok.mpr ⟨_, rfl, rfl⟩⟩
  have hadds := applyRequests_adds hgood happly
  rw [requestedDemand_root hid fun request => List.mem_pair.trans or_comm] at hadds
  exact hadds

end

/-! ## Relocations -/

/-- What a relocation puts its requirements down to. -/
def ExtDocument.origin (doc : ExtDocument) (object : Btf) (objectPath : CString)
    (placed : PlacedRelo) : RequirementOrigin where
  source := .coreRelo
  objectPath := some objectPath
  detail := some (coreReloKindName placed.relo.kind)
  access := btfStrByOffset object placed.relo.accessStrOff
  location := some (doc.location object placed)

/-- The root that a relocation asks for, and the members. -/
def ReloAsks (base object : Btf) (relo : CoreRelo) (baseId : Nat) (members : List (Nat × Nat)) :
    Prop :=
  ChainEnds base object 32 relo.typeId (.base baseId) ∧ AccessAsks base object relo baseId members

def reloDemand (base object : Btf) (relo : CoreRelo) : Demand :=
  ⨆ (baseId) (members) (_ : ReloAsks base object relo baseId members),
    rootDemand baseId ⊔ memberDemand members

theorem reloDemand_eq {base object : Btf} {relo : CoreRelo} {baseId : Nat}
    {members : List (Nat × Nat)} (h : ReloAsks base object relo baseId members) :
    reloDemand base object relo = rootDemand baseId ⊔ memberDemand members := by
  apply le_antisymm
  · refine iSup_le fun baseId' => iSup_le fun members' => iSup_le fun h' => ?_
    cases h.1.unique h'.1
    rw [h.2.unique h'.2]
  · exact le_iSup_of_le baseId (le_iSup_of_le members (le_iSup_of_le h (le_refl _)))

section

variable {base object : Btf} {index : BtfIndex} {objectPath : CString} {doc : ExtDocument}

/-- A relocation that succeeds: its seed, its root, then its members. -/
theorem extractRelo_eq_ok (hindex : mchBtfIndexInit base = .ok index) (hrefs : object.RefsInRange)
    {state final : SeedState × SeedStats} {placed : PlacedRelo}
    (h : doc.extractRelo index object objectPath state placed = .ok final) :
    ∃ baseId rooted, ChainEnds base object 32 placed.relo.typeId (.base baseId) ∧
      requireTypeRoot (addSeed state.1 baseId).1 baseId (some (doc.origin object objectPath placed)) =
        .ok rooted ∧
      recordCoreReloRequirements base object objectPath placed.relo baseId
        (btfStrByOffset object placed.relo.accessStrOff) (some (doc.origin object objectPath placed))
        rooted = .ok final.1 ∧
      final.2 = if (addSeed state.1 baseId).2 then
          { state.2 with
            coreRelocations := state.2.coreRelocations + 1
            coreKernelTypes := state.2.coreKernelTypes + 1 }
        else { state.2 with coreRelocations := state.2.coreRelocations + 1 } := by
  have hsound := mchBtfIndexInit_sound hindex
  obtain ⟨resolved, hresolve, h⟩ := bind_eq_ok.mp h
  obtain ⟨rooted, hrooted, h⟩ := bind_eq_ok.mp h
  obtain ⟨recorded, hrecorded, h⟩ := bind_eq_ok.mp h
  rw [onError_eq_ok] at hresolve hrooted hrecorded
  cases resolved with
  | none =>
      obtain ⟨hallow, _⟩ := resolveObjectTypeToBase_eq_ok hsound hresolve
      cases hallow rfl
  | some baseId =>
      rw [hsound.btf_eq] at hrecorded
      have hroot := (resolveObjectTypeToBase_eq_root hindex hrefs).mp hresolve
      cases h
      exact ⟨baseId, rooted, hroot, hrooted, hrecorded, rfl⟩

theorem extractRelo_asks (hindex : mchBtfIndexInit base = .ok index) (hformat : base.InFormat)
    (hsearch : base.Searchable) (hrefs : object.RefsInRange) {state : SeedState × SeedStats}
    {placed : PlacedRelo} (hgood : state.1.Good base) :
    AsksExactly base state.1 (doc.extractRelo index object objectPath state placed) Prod.fst
      (∃ baseId members, ReloAsks base object placed.relo baseId members)
      (reloDemand base object placed.relo) := by
  have hbtf := (mchBtfIndexInit_sound hindex).btf_eq
  have hsound : ∀ final, doc.extractRelo index object objectPath state placed = .ok final →
      ∃ baseId members, ReloAsks base object placed.relo baseId members ∧
        Adds base state.1 final.1 (rootDemand baseId ⊔ memberDemand members) := by
    intro final h
    obtain ⟨baseId, rooted, hroot, hrooted, hrecorded, _⟩ := extractRelo_eq_ok hindex hrefs h
    have hadds := seedThenRoot_adds hgood (hroot.base_lt rfl) hrooted
    obtain ⟨members, hasks, hadds'⟩ :=
      (recordCoreReloRequirements_asks hformat hsearch hadds.good).1 _ hrecorded
    exact ⟨baseId, members, ⟨hroot, hasks⟩, hadds.trans hadds'⟩
  constructor
  · constructor
    · rintro ⟨final, h⟩
      obtain ⟨baseId, members, hasks, _⟩ := hsound final h
      exact ⟨baseId, members, hasks⟩
    · rintro ⟨baseId, members, hroot, hasks⟩
      have hresolve := (@resolveObjectTypeToBase_eq_root base object index objectPath
        "CO-RE relocation".toList hindex hrefs placed.relo.typeId baseId).mpr hroot
      obtain ⟨rooted, hrooted, _, _⟩ := @requireTypeRoot_total base (addSeed state.1 baseId).1 baseId
        (some (doc.origin object objectPath placed)) hformat (addSeed_good hgood baseId)
        (hroot.base_lt rfl)
      have hadds := seedThenRoot_adds hgood (hroot.base_lt rfl) hrooted
      obtain ⟨recorded, hrecorded⟩ := (@recordCoreReloRequirements_asks base object objectPath
        (some (doc.origin object objectPath placed)) hformat hsearch placed.relo baseId rooted
        hadds.good).2 members hasks
      unfold ExtDocument.origin at hrooted hrecorded
      have hrun : ∃ stats, doc.extractRelo index object objectPath state placed =
          .ok (recorded, stats) := by
        unfold ExtDocument.extractRelo
        dsimp only
        rw [hbtf, onError_eq_ok.mpr hresolve, ok_bind, Option.getD_some]
        rw [onError_eq_ok.mpr hrooted, ok_bind, onError_eq_ok.mpr hrecorded, ok_bind]
        exact ⟨_, rfl⟩
      obtain ⟨stats, hrun⟩ := hrun
      exact ⟨_, hrun⟩
  · intro final h
    obtain ⟨baseId, members, hasks, hadds⟩ := hsound final h
    rw [reloDemand_eq hasks]
    exact hadds

/-- What the relocations of a section ask for. -/
theorem extract_asks (hindex : mchBtfIndexInit base = .ok index) (hformat : base.InFormat)
    (hsearch : base.Searchable) (hrefs : object.RefsInRange) {state : SeedState × SeedStats}
    (hgood : state.1.Good base) :
    AsksExactly base state.1 (doc.extract index object objectPath state) Prod.fst
      (∀ placed ∈ doc.placed, ∃ baseId members, ReloAsks base object placed.relo baseId members)
      (⨆ placed ∈ doc.placed, reloDemand base object placed.relo) := by
  unfold ExtDocument.extract
  refine AsksExactly.foldlM (fun placed _ state hstate => ?_) hgood
  exact extractRelo_asks hindex hformat hsearch hrefs hstate

/-! ## Candidates -/

/-- What a candidate puts its requirement down to. -/
def seedOrigin (objectPath : CString) : RequirementOrigin where
  source := .objectBtf
  objectPath := some objectPath
  detail := some "seed".toList

def typeDemand (base object : Btf) (id : Nat) : Demand :=
  ⨆ (baseId) (_ : Seeded base object id baseId), rootDemand baseId

theorem typeDemand_eq {id baseId : Nat} (h : Seeded base object id baseId) :
    typeDemand base object id = rootDemand baseId := by
  apply le_antisymm
  · refine iSup_le fun baseId' => iSup_le fun h' => ?_
    cases h.2.unique h'.2
    exact le_refl _
  · exact le_iSup_of_le baseId (le_iSup_of_le h (le_refl _))

theorem typeDemand_eq_bot {id : Nat} (h : ∀ baseId, ¬Seeded base object id baseId) :
    typeDemand base object id = ⊥ := by
  simp [typeDemand, h]

/-- What a type of the object that is passed has done: nothing as it is no candidate, nothing
but count as it is local to the program, or its root and its seed. -/
theorem seedObjectType_eq_ok (hindex : mchBtfIndexInit base = .ok index)
    (hrefs : object.RefsInRange) {state final : SeedState × SeedStats} {pair : BtfType × Nat}
    (hzero : pair.2 ≠ 0) (htype : btfTypeById object pair.2 = some pair.1)
    (h : seedObjectType index object objectPath state pair = .ok final) :
    ¬IsCandidate object pair.2 ∧ final = state ∨
      (IsCandidate object pair.2 ∧ (∀ baseId, ¬Seeded base object pair.2 baseId) ∧
        final = (state.1, { state.2 with
          candidates := state.2.candidates + 1
          programLocalTypes := state.2.programLocalTypes + 1 })) ∨
      ∃ baseId mid, Seeded base object pair.2 baseId ∧
        requireTypeRoot state.1 baseId (some (seedOrigin objectPath)) = .ok mid ∧
        final = ((addSeed mid baseId).1,
          if (addSeed mid baseId).2 then
            { state.2 with
              candidates := state.2.candidates + 1
              kernelTypes := state.2.kernelTypes + 1 }
          else { state.2 with candidates := state.2.candidates + 1 }) := by
  obtain ⟨type, id⟩ := pair
  simp only [seedObjectType] at h
  by_cases hseed : isSeedableKind type.kind = false
  · rw [if_pos hseed] at h
    cases h
    refine Or.inl ⟨fun hcandidate => ?_, rfl⟩
    have hseedable := ((isCandidate_iff hzero htype).mp hcandidate).1
    rw [hseed] at hseedable
    cases hseedable
  · rw [if_neg hseed] at h
    by_cases hnamed : mchBtfTypeName object type = [] ∧ type.kind ≠ .enum ∧ type.kind ≠ .enum64
    · rw [if_pos hnamed] at h
      cases h
      exact Or.inl ⟨fun hcandidate => ((isCandidate_iff hzero htype).mp hcandidate).2 hnamed, rfl⟩
    · rw [if_neg hnamed] at h
      have hcandidate : IsCandidate object id :=
        (isCandidate_iff hzero htype).mpr ⟨by simpa using hseed, hnamed⟩
      obtain ⟨resolved, hresolve, h⟩ := bind_eq_ok.mp h
      obtain ⟨last, hends, hresult⟩ := @resolveObjectTypeFrom_ends base object index id objectPath
        "object BTF seed".toList hindex hrefs 32 id none { id } (btfTypeById_eq_some_lt htype)
      change resolveObjectTypeFrom index object id objectPath "object BTF seed".toList true 32 id
        none { id } = .ok resolved at hresolve
      rw [hresolve] at hresult
      right
      cases resolved with
      | none =>
          cases h
          refine Or.inl ⟨hcandidate, ?_, rfl⟩
          rintro baseId ⟨_, hbase⟩
          obtain rfl := hends.unique hbase
          cases hresult
      | some baseId =>
          obtain ⟨mid, hrequire, h⟩ := bind_eq_ok.mp h
          have hbase : last = .base baseId := by
            cases last with
            | base found =>
                cases hresult
                rfl
            | programLocal => cases hresult
            | ambiguous =>
                obtain ⟨fault, hfault⟩ := hresult
                cases hfault
            | void =>
                obtain ⟨fault, hfault⟩ := hresult
                cases hfault
            | tooLong =>
                obtain ⟨fault, hfault⟩ := hresult
                cases hfault
          rw [hbase] at hends
          exact Or.inr ⟨baseId, mid, ⟨hcandidate, hends⟩, hrequire, (Except.ok.inj h).symm⟩

theorem seedObjectType_asks (hindex : mchBtfIndexInit base = .ok index) (hformat : base.InFormat)
    (hrefs : object.RefsInRange) {state : SeedState × SeedStats} {pair : BtfType × Nat}
    (hzero : pair.2 ≠ 0) (htype : btfTypeById object pair.2 = some pair.1)
    (hgood : state.1.Good base) :
    AsksExactly base state.1 (seedObjectType index object objectPath state pair) Prod.fst
      (¬(HasCause base object pair.2 ∨ EndsAtVoid base object pair.2))
      (typeDemand base object pair.2) := by
  constructor
  · rcases @seedObjectType_spec base object pair.1 index objectPath state pair.2 hindex hformat hrefs
      hgood hzero htype with ⟨hfails, hcause⟩ | ⟨final, hrun, _, hnone, _⟩
    · exact iff_of_false hfails (not_not.mpr hcause)
    · exact iff_of_true ⟨final, hrun⟩ hnone
  · intro final h
    rcases seedObjectType_eq_ok hindex hrefs hzero htype h with
      ⟨hnot, rfl⟩ | ⟨_, hnone, rfl⟩ | ⟨baseId, mid, hseeded, hrequire, rfl⟩
    · rw [typeDemand_eq_bot fun baseId hseeded => hnot hseeded.1]
      exact Adds.refl hgood
    · rw [typeDemand_eq_bot hnone]
      exact Adds.refl hgood
    · rw [typeDemand_eq hseeded]
      exact rootThenSeed_adds hgood (hseeded.2.base_lt rfl) hrequire

theorem mchExtractObjectSeedsWithRequirements_asks (hindex : mchBtfIndexInit base = .ok index)
    (hformat : base.InFormat) (hrefs : object.RefsInRange) {state : SeedState} {stats : SeedStats}
    (hgood : state.Good base) :
    AsksExactly base state (mchExtractObjectSeedsWithRequirements index object objectPath state stats)
      Prod.fst (∀ id, ¬(HasCause base object id ∨ EndsAtVoid base object id))
      (⨆ id, typeDemand base object id) := by
  have hloop : AsksExactly base state
      (mchExtractObjectSeedsWithRequirements index object objectPath state stats) Prod.fst
      (∀ pair ∈ object.types.zipIdx 1, ¬(HasCause base object pair.2 ∨ EndsAtVoid base object pair.2))
      (⨆ pair ∈ object.types.zipIdx 1, typeDemand base object pair.2) := by
    refine @AsksExactly.foldlM (SeedState × SeedStats) (BtfType × Nat) base
      (seedObjectType index object objectPath) Prod.fst _ _ _ (fun pair hpair state hstate => ?_)
      (state, stats) hgood
    obtain ⟨hzero, htype⟩ := mem_types_zipIdx hpair
    exact seedObjectType_asks hindex hformat hrefs hzero htype hstate
  have hok : (∀ pair ∈ object.types.zipIdx 1,
      ¬(HasCause base object pair.2 ∨ EndsAtVoid base object pair.2)) ↔
        ∀ id, ¬(HasCause base object id ∨ EndsAtVoid base object id) := by
    have hexists := @exists_typed_iff object
      (fun id => HasCause base object id ∨ EndsAtVoid base object id) fun id h => h.elim And.left And.left
    have hnot := not_congr hexists
    simp only [not_exists, not_and] at hnot
    exact hnot
  have hdemand : (⨆ pair ∈ object.types.zipIdx 1, typeDemand base object pair.2) =
      ⨆ id, typeDemand base object id := by
    apply le_antisymm
    · exact iSup_le fun pair => iSup_le fun _ => le_iSup (typeDemand base object) pair.2
    · refine iSup_le fun id => iSup_le fun baseId => iSup_le fun h => ?_
      obtain ⟨pair, hpair, hseeded⟩ := (@exists_typed_iff object
        (fun id => Seeded base object id baseId) fun id h => h.1).mpr ⟨id, h⟩
      refine le_iSup_of_le pair (le_iSup_of_le hpair ?_)
      rw [typeDemand_eq hseeded]
  rw [hok, hdemand] at hloop
  exact hloop

end

/-! ## Objects -/

/-- The types and the relocations of an object. -/
structure ObjectContent where
  btf : Btf
  relos : List CoreRelo

/-- The object that is loaded has this content. -/
inductive HasContent (load : CString → Except Fault ObjectDoc) (path : CString)
    (content : ObjectContent) : Prop
  | noExt (hload : load path = .ok { btf := content.btf, ext := none })
      (hrelos : content.relos = [])
  | ext {ext : BtfExt} {doc : ExtDocument}
      (hload : load path = .ok { btf := content.btf, ext := some ext }) (hholds : ext.Holds doc)
      (hrelos : content.relos = doc.placed.map PlacedRelo.relo)

/-- Every chain of a candidate has an end that is none of the causes to fail, and every
relocation has a root and its members. -/
def ObjectContent.Answerable (base : Btf) (content : ObjectContent) : Prop :=
  (∀ id, ¬(HasCause base content.btf id ∨ EndsAtVoid base content.btf id)) ∧
    ∀ relo ∈ content.relos, ∃ baseId members, ReloAsks base content.btf relo baseId members

def ObjectContent.demand (base : Btf) (content : ObjectContent) : Demand :=
  (⨆ id, typeDemand base content.btf id) ⊔ ⨆ relo ∈ content.relos, reloDemand base content.btf relo

section

variable {load : CString → Except Fault ObjectDoc} {base : Btf} {index : BtfIndex}

theorem demand_initialSeedState (base : Btf) : (initialSeedState base).demand = ⊥ := by
  have hnone : (initialSeedState base).demand = requestedDemand base [] :=
    demand_of_applyRequests rfl
  rw [hnone]
  refine Prod.ext (Set.ext fun id => ?_) (Set.ext fun key => ?_)
  · simp [requestedDemand]
  · simp [requestedDemand]

theorem relocations_asks (hindex : mchBtfIndexInit base = .ok index) (hformat : base.InFormat)
    (hsearch : base.Searchable) {path : CString} {content : ObjectContent} {object : ObjectDoc}
    (hcontent : HasContent load path content) (hload : load path = .ok object)
    (hrefs : content.btf.RefsInRange) {state : SeedState} {stats : SeedStats}
    (hgood : state.Good base) :
    object.btf = content.btf ∧ AsksExactly base state
      (mchExtractCoreReloSeedsWithRequirements index object.btf object.ext path state stats) Prod.fst
      (∀ relo ∈ content.relos, ∃ baseId members, ReloAsks base content.btf relo baseId members)
      (⨆ relo ∈ content.relos, reloDemand base content.btf relo) := by
  cases hcontent with
  | noExt hload' hrelos =>
      cases hload.symm.trans hload'
      refine ⟨rfl, ?_⟩
      have hempty : (⨆ relo ∈ content.relos, reloDemand base content.btf relo) = ⊥ := by
        simp [hrelos]
      rw [hempty, hrelos]
      constructor
      · exact iff_of_true ⟨_, rfl⟩ (by simp)
      · intro final h
        cases h
        exact Adds.refl hgood
  | @ext ext doc hload' hholds hrelos =>
      cases hload.symm.trans hload'
      refine ⟨rfl, ?_⟩
      have hasks := @extract_asks base content.btf index path doc hindex hformat hsearch hrefs
        (state, stats) hgood
      have hok : (∀ relo ∈ content.relos, ∃ baseId members,
          ReloAsks base content.btf relo baseId members) ↔
            ∀ placed ∈ doc.placed, ∃ baseId members,
              ReloAsks base content.btf placed.relo baseId members := by
        rw [hrelos, List.forall_mem_map]
      have hdemand : (⨆ relo ∈ content.relos, reloDemand base content.btf relo) =
          ⨆ placed ∈ doc.placed, reloDemand base content.btf placed.relo := by
        rw [hrelos]
        simp only [List.mem_map, iSup_exists, iSup_and]
        apply le_antisymm
        · refine iSup_le fun relo => iSup_le fun placed => iSup_le fun hmem => iSup_le fun heq => ?_
          rw [← heq]
          exact le_iSup_of_le placed (le_iSup_of_le hmem (le_refl _))
        · refine iSup_le fun placed => iSup_le fun hmem => ?_
          exact le_iSup_of_le placed.relo (le_iSup_of_le placed (le_iSup_of_le hmem
            (le_iSup_of_le rfl (le_refl _))))
      rw [hok, hdemand, mchExtractCoreReloSeedsWithRequirements_of_holds hholds]
      exact hasks

theorem extractObject_asks (hindex : mchBtfIndexInit base = .ok index) (hformat : base.InFormat)
    (hsearch : base.Searchable) {path : CString} {content : ObjectContent}
    (hcontent : HasContent load path content) (hrefs : content.btf.RefsInRange)
    {state : SeedState × SeedStats} (hgood : state.1.Good base) :
    AsksExactly base state.1 (extractObject load index state path) Prod.fst
      (content.Answerable base) (content.demand base) := by
  obtain ⟨object, hload⟩ : ∃ object, load path = .ok object := by
    cases hcontent with
    | noExt hload _ => exact ⟨_, hload⟩
    | ext hload _ _ => exact ⟨_, hload⟩
  have hbtf := (@relocations_asks load base index hindex hformat hsearch path content object hcontent
    hload hrefs state.1 {} hgood).1
  unfold extractObject
  rw [hload, ok_bind, hbtf]
  refine (mchExtractObjectSeedsWithRequirements_asks hindex hformat hrefs hgood).bind
    fun mid _ hmid => ?_
  have hrelos := (@relocations_asks load base index hindex hformat hsearch path content object
    hcontent hload hrefs mid.1 mid.2 hmid).2
  rw [hbtf] at hrelos
  -- the statistics that are added up at the end are no part of the demand
  constructor
  · rw [← hrelos.succeeds_iff]
    constructor
    · rintro ⟨final, h⟩
      obtain ⟨last, hlast, _⟩ := bind_eq_ok.mp h
      exact ⟨last, hlast⟩
    · rintro ⟨last, hlast⟩
      exact ⟨_, bind_eq_ok.mpr ⟨last, hlast, rfl⟩⟩
  · intro final h
    obtain ⟨last, hlast, h⟩ := bind_eq_ok.mp h
    cases h
    exact hrelos.adds last hlast

end

section

variable {load : CString → Except Fault ObjectDoc} {base : Btf} {content : CString → ObjectContent}
  {paths : List CString}

/-- The loop over the objects asks for what they ask for. -/
theorem objectLoop_asks {index : BtfIndex} (hindex : mchBtfIndexInit base = .ok index)
    (hformat : base.InFormat) (hsearch : base.Searchable)
    (hcontent : ∀ path ∈ paths, HasContent load path (content path))
    (hrefs : ∀ path ∈ paths, (content path).btf.RefsInRange) :
    AsksExactly base (initialSeedState base)
      (paths.foldlM (extractObject load index) (initialSeedState base, {})) Prod.fst
      (∀ path ∈ paths, (content path).Answerable base)
      (⨆ path ∈ paths, (content path).demand base) := by
  refine @AsksExactly.foldlM (SeedState × SeedStats) CString base (extractObject load index) Prod.fst
    _ _ _ (fun path hpath state hstate => ?_) (initialSeedState base, {}) (initialSeedState_good base)
  exact extractObject_asks hindex hformat hsearch (hcontent path hpath) (hrefs path hpath) hstate

theorem extractObjects_succeeds_iff (hformat : base.InFormat) (hsearch : base.Searchable)
    (hcontent : ∀ path ∈ paths, HasContent load path (content path))
    (hrefs : ∀ path ∈ paths, (content path).btf.RefsInRange) :
    (∃ final, extractObjects load base paths = .ok final) ↔
      (∃ index, mchBtfIndexInit base = .ok index) ∧
        ∀ path ∈ paths, (content path).Answerable base := by
  constructor
  · rintro ⟨final, h⟩
    obtain ⟨index, hindex, hrun⟩ := bind_eq_ok.mp h
    have hloop := objectLoop_asks hindex hformat hsearch hcontent hrefs
    exact ⟨⟨index, hindex⟩, hloop.succeeds_iff.mp ⟨final, hrun⟩⟩
  · rintro ⟨⟨index, hindex⟩, hall⟩
    have hloop := objectLoop_asks hindex hformat hsearch hcontent hrefs
    obtain ⟨final, hrun⟩ := hloop.succeeds_iff.mpr hall
    exact ⟨final, bind_eq_ok.mpr ⟨index, hindex, hrun⟩⟩

theorem extractObjects_demand_eq (hformat : base.InFormat) (hsearch : base.Searchable)
    (hcontent : ∀ path ∈ paths, HasContent load path (content path))
    (hrefs : ∀ path ∈ paths, (content path).btf.RefsInRange) {final : SeedState × SeedStats}
    (h : extractObjects load base paths = .ok final) :
    final.1.demand = ⨆ path ∈ paths, (content path).demand base := by
  obtain ⟨index, hindex, hrun⟩ := bind_eq_ok.mp h
  have hadds := (objectLoop_asks hindex hformat hsearch hcontent hrefs).adds final hrun
  rw [hadds.demand_eq, demand_initialSeedState, bot_sup_eq]

end

/-- What a run asks for is read off its objects: it succeeds where all their candidates and
relocations can be answered, and asks for the base matches, the roots and the members. -/
theorem extractObjects_asks {load : CString → Except Fault ObjectDoc} {base : Btf}
    {content : CString → ObjectContent} {paths : List CString} (hformat : base.InFormat)
    (hsearch : base.Searchable)
    (hcontent : ∀ path ∈ paths, HasContent load path (content path))
    (hrefs : ∀ path ∈ paths, (content path).btf.RefsInRange) :
    ((∃ final, extractObjects load base paths = .ok final) ↔
      (∃ index, mchBtfIndexInit base = .ok index) ∧
        ∀ path ∈ paths, (content path).Answerable base) ∧
    ∀ final, extractObjects load base paths = .ok final →
      final.1.demand = ⨆ path ∈ paths, (content path).demand base := by
  constructor
  · exact extractObjects_succeeds_iff hformat hsearch hcontent hrefs
  · exact fun final h => extractObjects_demand_eq hformat hsearch hcontent hrefs h

/-- Reads `R.x`. -/
def readsX : CoreRelo := { insnOff := 0, typeId := 1, accessStrOff := 11, kind := 0 }

def readsXDocument : ExtDocument where
  functions := []
  lines := []
  relos := [{ name := 0, records := [{ value := readsX, rest := [] }] }]

theorem readsXDocument_encodable : readsXDocument.Encodable askedAtLineStrides where
  functions := by simp [readsXDocument]
  lines := by simp [readsXDocument]
  relos := by
    intro part hpart
    obtain rfl := List.mem_singleton.mp hpart
    refine ⟨by decide, by decide, fun record hrecord => ?_⟩
    obtain rfl := List.mem_singleton.mp hrecord
    have hvalid : 0 < 2 ^ 32 ∧ 1 < 2 ^ 32 ∧ 11 < 2 ^ 32 ∧ 0 < 2 ^ 32 := by decide
    exact ⟨hvalid, rfl⟩
  functionStride := by decide
  lineStride := by decide
  reloStride := by decide
  length_lt := by decide

/-- The object `a` names `struct R`, any other also reads `R.x`. -/
def loadWritten (path : CString) : Except Fault ObjectDoc :=
  .ok { btf := smallBase
        ext := if path = ['a'] then none else some (readsXDocument.encode askedAtLineStrides) }

def writtenContent (path : CString) : ObjectContent :=
  { btf := smallBase, relos := if path = ['a'] then [] else [readsX] }

theorem smallBase_refsInRange : smallBase.RefsInRange := by
  decide

theorem hasContent_written :
    ∀ path ∈ [['a'], ['b']], HasContent loadWritten path (writtenContent path) := by
  intro path hpath
  rcases List.mem_pair.mp hpath with rfl | rfl
  · exact .noExt rfl rfl
  · exact .ext rfl readsXDocument_encodable.holds rfl

theorem extractObjects_asks_written :
    ((∃ final, extractObjects loadWritten smallBase [['a'], ['b']] = .ok final) ↔
      (∃ index, mchBtfIndexInit smallBase = .ok index) ∧
        ∀ path ∈ [['a'], ['b']], (writtenContent path).Answerable smallBase) ∧
    ∀ final, extractObjects loadWritten smallBase [['a'], ['b']] = .ok final →
      final.1.demand = ⨆ path ∈ [['a'], ['b']], (writtenContent path).demand smallBase :=
  extractObjects_asks (.of_types (by decide) (by decide)) (.of_named (by decide)) hasContent_written
    fun _ _ => smallBase_refsInRange

end MinCorehdr
