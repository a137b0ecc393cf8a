import MinCorehdr.Generate
import MinCorehdr.Store

/-!
# What the extraction asks for

The extraction reads the shared state nowhere: what an object asks for depends
on the object and the base only.  A batch of requests is what one computation
adds to the state, and `Follows` says that the computation is the application of
its batch.
-/

namespace MinCorehdr

open Support.Result

inductive Request
  | seed (id : Nat)
  | need (key : RequirementKey) (origin : Option RequirementOrigin)
  deriving DecidableEq, Repr

def RequirementKey.typeId : RequirementKey → Nat
  | .root typeId => typeId
  | .member typeId _ => typeId

def applyRequest (base : Btf) (state : SeedState) : Request → Except Fault SeedState
  | .seed id => .ok { state with seeds := (mchTypeSetAdd state.seeds id).1 }
  | .need key origin =>
      state.withRequirements (addRequirement base state.requirements origin key)

def applyRequests (base : Btf) (state : SeedState) (requests : List Request) :
    Except Fault SeedState :=
  requests.foldlM (applyRequest base) state

/-- A root requirement is about a type that can be one. -/
def RequirementKey.Rooted (base : Btf) : RequirementKey → Prop
  | .root typeId => IsRootType base typeId
  | .member _ _ => True

/-- Requests of which every requirement comes with the seed of its type. -/
structure Batch (base : Btf) where
  requests : List Request
  covered : ∀ key origin, .need key origin ∈ requests → .seed key.typeId ∈ requests
  rooted : ∀ key origin, .need key origin ∈ requests → key.Rooted base

def Batch.empty {base : Btf} : Batch base where
  requests := []
  covered := by simp
  rooted := by simp

def Batch.append {base : Btf} (first second : Batch base) : Batch base where
  requests := first.requests ++ second.requests
  covered := by
    intro key origin h
    rw [List.mem_append] at h ⊢
    rcases h with h | h
    · exact Or.inl (first.covered key origin h)
    · exact Or.inr (second.covered key origin h)
  rooted := by
    intro key origin h
    rcases List.mem_append.mp h with h | h
    · exact first.rooted key origin h
    · exact second.rooted key origin h

/-- A requirement, then its seed. -/
def Batch.need {base : Btf} (key : RequirementKey) (origin : Option RequirementOrigin)
    (hkey : key.Rooted base) : Batch base where
  requests := [.need key origin, .seed key.typeId]
  covered := by simp
  rooted := by simp [hkey]

/-- The seed, then the requirement. -/
def Batch.seedFirst {base : Btf} (key : RequirementKey) (origin : Option RequirementOrigin)
    (hkey : key.Rooted base) : Batch base where
  requests := [.seed key.typeId, .need key origin]
  covered := by simp
  rooted := by simp [hkey]

/-- From `s`, the computation `x` succeeds exactly when there is an outcome whose
batch can be applied, and then yields that outcome. -/
structure Follows {ρ β : Type} (base : Btf) (s : SeedState) (x : Except Fault ρ)
    (view : ρ → SeedState × β) (outcome : Option (Batch base × β)) : Prop where
  sound : ∀ r, x = .ok r → ∃ batch, outcome = some (batch, (view r).2) ∧
    applyRequests base s batch.requests = .ok (view r).1
  complete : ∀ batch b s', outcome = some (batch, b) →
    applyRequests base s batch.requests = .ok s' → ∃ r, x = .ok r ∧ view r = (s', b)

/-- The outcome of two computations in a row. -/
def andThen {base : Btf} {β γ : Type} (first : Option (Batch base × β))
    (second : β → Option (Batch base × γ)) : Option (Batch base × γ) :=
  first.bind fun result =>
    (second result.2).map fun result' => (result.1.append result'.1, result'.2)

section

variable {ρ ρ' β γ : Type} {base : Btf} {s : SeedState}

theorem applyRequests_append {first second : List Request} {s' : SeedState} :
    applyRequests base s (first ++ second) = .ok s' ↔
      ∃ mid, applyRequests base s first = .ok mid ∧ applyRequests base mid second = .ok s' := by
  unfold applyRequests
  rw [List.foldlM_append, bind_eq_ok]

theorem Follows.ok {r : ρ} {view : ρ → SeedState × β} {b : β} (h : view r = (s, b)) :
    Follows base s (.ok r) view (some (Batch.empty, b)) where
  sound := by
    intro r' heq
    cases heq
    exact ⟨Batch.empty, by rw [h], by rw [h]; rfl⟩
  complete := by
    intro batch b' s' houtcome happly
    cases houtcome
    cases happly
    exact ⟨r, rfl, h⟩

theorem Follows.error {fault : Fault} {view : ρ → SeedState × β} :
    Follows base s (.error fault) view none where
  sound := by
    intro r h
    cases h
  complete := by
    intro batch b s' h
    cases h

theorem Follows.of_fails {x : Except Fault ρ} {view : ρ → SeedState × β} (h : ∀ r, x ≠ .ok r) :
    Follows base s x view none where
  sound := fun r hr => absurd hr (h r)
  complete := by
    intro batch b s' h
    cases h

theorem Follows.congr {x y : Except Fault ρ} {view : ρ → SeedState × β}
    {outcome : Option (Batch base × β)} (h : Follows base s x view outcome)
    (hxy : ∀ r, y = .ok r ↔ x = .ok r) : Follows base s y view outcome where
  sound := fun r hr => h.sound r ((hxy r).mp hr)
  complete := by
    intro batch b s' houtcome happly
    obtain ⟨r, hr, hview⟩ := h.complete batch b s' houtcome happly
    exact ⟨r, (hxy r).mpr hr, hview⟩

theorem Follows.bind {x : Except Fault ρ} {next : ρ → Except Fault ρ'}
    {view : ρ → SeedState × β} {view' : ρ' → SeedState × γ} {first : Option (Batch base × β)}
    {second : β → Option (Batch base × γ)} (hx : Follows base s x view first)
    (hnext : ∀ r, Follows base (view r).1 (next r) view' (second (view r).2)) :
    Follows base s (x >>= next) view' (andThen first second) where
  sound := by
    intro r' h
    obtain ⟨r, hr, hr'⟩ := bind_eq_ok.mp h
    obtain ⟨batch, hfirst, happly⟩ := hx.sound r hr
    obtain ⟨batch', hsecond, happly'⟩ := (hnext r).sound r' hr'
    refine ⟨batch.append batch', ?_, ?_⟩
    · rw [andThen, hfirst, Option.bind_some, hsecond, Option.map_some]
    · exact applyRequests_append.mpr ⟨_, happly, happly'⟩
  complete := by
    intro both c s'' houtcome happly
    obtain ⟨⟨batch, b⟩, hfirst, hmap⟩ := Option.bind_eq_some_iff.mp houtcome
    obtain ⟨⟨batch', c'⟩, hsecond, heq⟩ := Option.map_eq_some_iff.mp hmap
    cases heq
    obtain ⟨mid, hmid, hlast⟩ := applyRequests_append.mp happly
    obtain ⟨r, hr, hview⟩ := hx.complete batch b mid hfirst hmid
    have hsecond' : second (view r).2 = some (batch', c') := by
      rw [hview]
      exact hsecond
    have hlast' : applyRequests base (view r).1 batch'.requests = .ok s'' := by
      rw [hview]
      exact hlast
    obtain ⟨r', hr', hview'⟩ := (hnext r).complete batch' c' s'' hsecond' hlast'
    exact ⟨r', bind_eq_ok.mpr ⟨r, hr, hr'⟩, hview'⟩

/-- What is computed first does not depend on the state. -/
theorem exists_follows_bind {α σ : Type} {seedOf : σ → SeedState} {view : ρ → SeedState × β}
    (x : Except Fault α) {next : α → σ → Except Fault ρ}
    (h : ∀ a, x = .ok a → ∃ outcome, ∀ state, Follows base (seedOf state) (next a state) view outcome) :
    ∃ outcome, ∀ state, Follows base (seedOf state) (x >>= fun a => next a state) view outcome := by
  cases hx : x with
  | error fault => exact ⟨none, fun state => Follows.error⟩
  | ok a => exact h a hx

end

/-! ## The members of a field relocation -/

/-- The view of a computation that returns the state alone. -/
def stateView (state : SeedState) : SeedState × Unit := (state, ())

/-- The view of a computation that returns the state and a value. -/
def pairView {β : Type} (result : SeedState × β) : SeedState × β := result

theorem Follows.okState (base : Btf) (s : SeedState) :
    Follows base s (.ok s) stateView (some (Batch.empty, ())) :=
  Follows.ok rfl

theorem Follows.okPair {β : Type} (base : Btf) (s : SeedState) (b : β) :
    Follows base s (.ok (s, b)) pairView (some (Batch.empty, b)) :=
  Follows.ok rfl

theorem requireMember_follows (base : Btf) (s : SeedState) (recordId i : Nat)
    (origin : Option RequirementOrigin) :
    Follows base s (requireMember base s recordId i origin) stateView
      (some (Batch.need (.member recordId i) origin trivial, ())) where
  sound := by
    intro r hr
    obtain ⟨mid, hmid, heq⟩ := bind_eq_ok.mp hr
    cases heq
    refine ⟨_, rfl, ?_⟩
    exact bind_eq_ok.mpr ⟨mid, hmid, rfl⟩
  complete := by
    intro batch b s' houtcome happly
    cases houtcome
    obtain ⟨mid, hmid, hlast⟩ := foldlM_cons_eq_ok.mp happly
    obtain ⟨last, hseed, hnil⟩ := foldlM_cons_eq_ok.mp hlast
    cases hseed
    cases hnil
    exact ⟨_, bind_eq_ok.mpr ⟨mid, hmid, rfl⟩, rfl⟩

theorem searchAnonymousMembers_follows (base : Btf) (recordId : Nat)
    (origin : Option RequirementOrigin)
    {search : SeedState → Nat → BtfType → Except Fault (SeedState × Option Nat)}
    (hsearch : ∀ id record, ∃ outcome, ∀ s, Follows base s (search s id record) pairView outcome)
    (members : List (BtfMember × Nat)) :
    ∃ outcome, ∀ s, Follows base s (searchAnonymousMembers base recordId origin search members s)
      pairView outcome := by
  induction members with
  | nil => exact ⟨some (Batch.empty, none), fun s => Follows.okPair base s none⟩
  | cons member rest ih =>
      obtain ⟨member, i⟩ := member
      simp only [searchAnonymousMembers]
      split
      next => exact ih
      next =>
        split
        next => exact ih
        next nestedId nested _ =>
          obtain ⟨found, hfound⟩ := hsearch nestedId nested
          obtain ⟨restOutcome, hrest⟩ := ih
          let marked (memberType : Nat) :=
            andThen (some (@Batch.need base (.member recordId i) origin trivial, ()))
              fun _ => some (Batch.empty, some memberType)
          refine ⟨andThen found fun memberType => memberType.elim restOutcome marked, fun s => ?_⟩
          apply (hfound s).bind
          rintro ⟨mid, memberType⟩
          cases memberType with
          | none => exact hrest mid
          | some memberType =>
              change Follows base mid (requireMember base mid recordId i origin >>= fun state =>
                .ok (state, some memberType)) pairView (marked memberType)
              exact (requireMember_follows base mid recordId i origin).bind
                fun state => Follows.okPair base state (some memberType)

theorem markBaseMemberPath_follows (base : Btf) (memberName : Option CString)
    (origin : Option RequirementOrigin) (levels : Nat) :
    ∀ fallbackIndex recordId record, ∃ outcome, ∀ s,
      Follows base s (markBaseMemberPath base memberName origin levels fallbackIndex s recordId record)
        pairView outcome := by
  induction levels with
  | zero =>
      intro fallbackIndex recordId record
      exact ⟨none, fun s => Follows.error⟩
  | succ levels ih =>
      intro fallbackIndex recordId record
      simp only [markBaseMemberPath]
      split
      next memberIndex _ =>
        exact ⟨andThen (some (Batch.need (.member recordId memberIndex) origin trivial, ()))
            fun _ => some (Batch.empty, (record.members[memberIndex]?).map BtfMember.type),
          fun s => (requireMember_follows base s recordId memberIndex origin).bind
            fun state => Follows.okPair base state _⟩
      next =>
        split
        next => exact ⟨_, fun s => Follows.okPair base s none⟩
        next =>
          exact searchAnonymousMembers_follows base recordId origin (ih uint32Max) _

theorem Follows.onError {ρ β : Type} {base : Btf} {s : SeedState} {x : Except Fault ρ}
    {view : ρ → SeedState × β} {outcome : Option (Batch base × β)} {amend : MchError → MchError}
    (h : Follows base s x view outcome) : Follows base s (onError amend x) view outcome :=
  h.congr fun _ => onError_eq_ok

theorem recordAccessPath_follows (base object : Btf) (path access : CString)
    (origin : Option RequirementOrigin) (fuel : Nat) :
    ∀ cursor objectId baseId, ∃ outcome, ∀ s,
      Follows base s (recordAccessPath base object path access origin fuel cursor objectId baseId s)
        stateView outcome := by
  induction fuel with
  | zero =>
      intro cursor objectId baseId
      exact ⟨none, fun s => Follows.error⟩
  | succ fuel ih =>
      intro cursor objectId baseId
      simp only [recordAccessPath]
      split
      next => exact ⟨_, fun s => Follows.okState base s⟩
      next =>
        split
        next => exact ⟨none, fun s => Follows.error⟩
        next objectMemberIndex cursor _ =>
          split
          next objectId objectRecord baseId baseRecord _ _ =>
            split
            next => exact ⟨none, fun s => Follows.error⟩
            next objectMember _ =>
              obtain ⟨found, hfound⟩ := markBaseMemberPath_follows base
                (btfNameByOffset object objectMember.nameOff) origin 17 objectMemberIndex baseId
                baseRecord
              choose restOutcome hrest using ih cursor objectMember.type
              refine ⟨andThen found fun memberMatch => memberMatch.elim none restOutcome,
                fun s => ?_⟩
              apply (hfound s).onError.bind
              rintro ⟨mid, memberMatch⟩
              cases memberMatch with
              | none => exact Follows.error
              | some baseMemberType => exact hrest baseMemberType mid
          next => exact ⟨none, fun s => Follows.error⟩

theorem recordCoreReloRequirements_follows (base object : Btf) (path : CString) (relo : CoreRelo)
    (baseId : Nat) (access : Option CString) (origin : Option RequirementOrigin) :
    ∃ outcome, ∀ s, Follows base s
      (recordCoreReloRequirements base object path relo baseId access origin s) stateView outcome := by
  simp only [recordCoreReloRequirements]
  split
  next => exact ⟨_, fun s => Follows.okState base s⟩
  next access =>
    split
    next => exact ⟨_, fun s => Follows.okState base s⟩
    next =>
      split
      next => exact ⟨none, fun s => Follows.error⟩
      next cursor _ => exact recordAccessPath_follows base object path access origin _ _ _ _

/-! ## Objects -/

/-- The view that leaves the statistics out. -/
def statsView (result : SeedState × SeedStats) : SeedState × Unit := (result.1, ())

theorem foldlM_follows {α : Type} {base : Btf}
    {step : SeedState × SeedStats → α → Except Fault (SeedState × SeedStats)}
    (h : ∀ a, ∃ outcome, ∀ state, Follows base state.1 (step state a) statsView outcome)
    (as : List α) :
    ∃ outcome, ∀ state : SeedState × SeedStats,
      Follows base state.1 (as.foldlM step state) statsView outcome := by
  induction as with
  | nil => exact ⟨_, fun state => Follows.ok rfl⟩
  | cons a as ih =>
      obtain ⟨first, hfirst⟩ := h a
      obtain ⟨rest, hrest⟩ := ih
      refine ⟨andThen first fun _ => rest, fun state => ?_⟩
      rw [List.foldlM_cons]
      exact (hfirst state).bind fun mid => hrest mid

theorem requireTypeRoot_follows {base : Btf} {baseId : Nat} (hroot : IsRootType base baseId)
    (s : SeedState) (origin : Option RequirementOrigin) (stats : Bool → SeedStats) :
    Follows base s
      (do
        let seedState ← requireTypeRoot s baseId origin
        .ok ((addSeed seedState baseId).1, stats (addSeed seedState baseId).2))
      statsView (some (Batch.need (.root baseId) origin hroot, ())) where
  sound := by
    intro r hr
    obtain ⟨mid, hmid, heq⟩ := bind_eq_ok.mp hr
    cases heq
    exact ⟨_, rfl, bind_eq_ok.mpr ⟨mid, hmid, rfl⟩⟩
  complete := by
    intro batch b s' houtcome happly
    cases houtcome
    obtain ⟨mid, hmid, hlast⟩ := foldlM_cons_eq_ok.mp happly
    obtain ⟨last, hseed, hnil⟩ := foldlM_cons_eq_ok.mp hlast
    cases hseed
    cases hnil
    exact ⟨_, bind_eq_ok.mpr ⟨mid, hmid, rfl⟩, rfl⟩

theorem seedThenRoot_follows {base : Btf} {baseId : Nat} (hroot : IsRootType base baseId)
    (s : SeedState) (origin : Option RequirementOrigin) :
    Follows base s (requireTypeRoot (addSeed s baseId).1 baseId origin) stateView
      (some (Batch.seedFirst (.root baseId) origin hroot, ())) where
  sound := by
    intro r hr
    exact ⟨_, rfl, bind_eq_ok.mpr ⟨_, rfl, bind_eq_ok.mpr ⟨r, hr, rfl⟩⟩⟩
  complete := by
    intro batch b s' houtcome happly
    cases houtcome
    obtain ⟨mid, hseed, hlast⟩ := foldlM_cons_eq_ok.mp happly
    cases hseed
    obtain ⟨last, hneed, hnil⟩ := foldlM_cons_eq_ok.mp hlast
    cases hnil
    exact ⟨_, hneed, rfl⟩

theorem withReloContext_eq_ok {α : Type} {parts : CoreReloParts} {object : Btf}
    {secNameOff reloIndex i : Nat} {relo : CoreRelo} {x : Except Fault α} {a : α} :
    withReloContext parts object secNameOff relo reloIndex i x = .ok a ↔ x = .ok a := by
  unfold withReloContext
  split
  next err =>
    constructor
    · intro h
      obtain ⟨_, _, h⟩ := bind_eq_ok.mp h
      cases h
    · intro h
      cases h
  next => exact Iff.rfl

section

variable {base : Btf} {index : BtfIndex} (hindex : index.Sound base) (object : Btf) (path : CString)

include hindex

theorem seedObjectType_follows (typed : BtfType × Nat) :
    ∃ outcome, ∀ state, Follows base state.1 (seedObjectType index object path state typed) statsView
      outcome := by
  obtain ⟨type, id⟩ := typed
  simp only [seedObjectType]
  split
  next => exact ⟨_, fun state => Follows.ok rfl⟩
  next =>
    split
    next => exact ⟨_, fun state => Follows.ok rfl⟩
    next =>
      apply exists_follows_bind
      intro resolved hresolved
      cases resolved with
      | none => exact ⟨_, fun state => Follows.ok rfl⟩
      | some baseId =>
          have hroot := (resolveObjectTypeToBase_eq_ok hindex hresolved).2 baseId rfl
          exact ⟨_, fun state => requireTypeRoot_follows hroot state.1 _ fun fresh =>
            if fresh then
              { state.2 with
                candidates := state.2.candidates + 1
                kernelTypes := state.2.kernelTypes + 1 }
            else { state.2 with candidates := state.2.candidates + 1 }⟩

theorem extractCoreRelo_follows (parts : CoreReloParts) (secNameOff i : Nat) (relo : CoreRelo) :
    ∃ outcome, ∀ state : SeedState × SeedStats, Follows base state.1
      (extractCoreRelo index object path parts secNameOff i relo state.1 state.2) statsView
      outcome := by
  let access := btfStrByOffset object relo.accessStrOff
  unfold extractCoreRelo
  apply exists_follows_bind
  intro location _
  let origin : RequirementOrigin :=
    { source := .coreRelo, objectPath := some path
      detail := some (coreReloKindName relo.kind), access, location := some location }
  cases hresolve : resolveObjectTypeToBase index object relo.typeId path
      "CO-RE relocation".toList false with
  | error fault =>
      refine ⟨none, fun state => Follows.of_fails fun r hr => ?_⟩
      obtain ⟨resolved, hresolved, _⟩ := bind_eq_ok.mp hr
      cases withReloContext_eq_ok.mp hresolved
  | ok resolved =>
      obtain ⟨hsome, hroots⟩ := resolveObjectTypeToBase_eq_ok hindex hresolve
      cases resolved with
      | none => cases hsome rfl
      | some baseId =>
          have hroot := hroots baseId rfl
          obtain ⟨members, hmembers⟩ := recordCoreReloRequirements_follows base object path relo
            baseId access (some origin)
          refine ⟨andThen (some (Batch.seedFirst (.root baseId) (some origin) hroot, ()))
            fun _ => andThen members fun _ => some (Batch.empty, ()), fun state => ?_⟩
          apply Follows.bind
            ((seedThenRoot_follows hroot state.1 (some origin)).congr fun _ => withReloContext_eq_ok)
          intro rooted
          rw [hindex.btf_eq]
          apply Follows.bind ((hmembers rooted).congr fun _ => withReloContext_eq_ok)
          intro last
          exact Follows.ok rfl

/-- The view of the loop over a section, which also returns its position. -/
def positionView (result : Nat × SeedState × SeedStats) : SeedState × Nat :=
  (result.2.1, result.1)

theorem extractSectionRelos_follows (parts : CoreReloParts) (secNameOff left : Nat) :
    ∀ i pos, ∃ outcome, ∀ state : SeedState × SeedStats, Follows base state.1
      (extractSectionRelos index object path parts secNameOff left i pos state) positionView
      outcome := by
  induction left with
  | zero =>
      intro i pos
      exact ⟨_, fun state => Follows.ok rfl⟩
  | succ left ih =>
      intro i pos
      simp only [extractSectionRelos]
      split
      next => exact ⟨none, fun state => Follows.error⟩
      next =>
        apply exists_follows_bind
        intro relo _
        obtain ⟨outcome, houtcome⟩ :=
          extractCoreRelo_follows hindex object path parts secNameOff i relo
        obtain ⟨rest, hrest⟩ := ih (i + 1) (pos + parts.coreInfo.recSize)
        exact ⟨andThen outcome fun _ => rest, fun state => (houtcome state).bind fun mid => hrest mid⟩

theorem extractReloSections_follows (parts : CoreReloParts) (fuel : Nat) :
    ∀ pos, ∃ outcome, ∀ state : SeedState × SeedStats, Follows base state.1
      (extractReloSections index object path parts fuel pos state) statsView outcome := by
  induction fuel with
  | zero =>
      intro pos
      exact ⟨none, fun state => Follows.error⟩
  | succ fuel ih =>
      intro pos
      simp only [extractReloSections]
      split
      next =>
        split
        next => exact ⟨none, fun state => Follows.error⟩
        next =>
          apply exists_follows_bind
          intro secNameOff _
          apply exists_follows_bind
          intro numInfo _
          obtain ⟨outcome, houtcome⟩ := extractSectionRelos_follows hindex object path parts
            secNameOff numInfo 0 (pos + sectionHeaderSize)
          choose rest hrest using ih
          exact ⟨andThen outcome rest, fun state =>
            (houtcome state).bind fun mid => hrest mid.1 mid.2⟩
      next =>
        split
        next => exact ⟨none, fun state => Follows.error⟩
        next => exact ⟨_, fun state => Follows.ok rfl⟩

theorem mchExtractObjectSeedsWithRequirements_follows :
    ∃ outcome, ∀ state : SeedState × SeedStats, Follows base state.1
      (mchExtractObjectSeedsWithRequirements index object path state.1 state.2) statsView outcome :=
  foldlM_follows (seedObjectType_follows hindex object path) _

theorem mchExtractCoreReloSeedsWithRequirements_follows (ext : Option BtfExt) :
    ∃ outcome, ∀ state : SeedState × SeedStats, Follows base state.1
      (mchExtractCoreReloSeedsWithRequirements index object ext path state.1 state.2) statsView
      outcome := by
  unfold mchExtractCoreReloSeedsWithRequirements
  split
  next => exact ⟨_, fun state => Follows.ok rfl⟩
  next ext =>
    split
    next => exact ⟨none, fun state => Follows.error⟩
    next =>
      split
      next => exact ⟨none, fun state => Follows.error⟩
      next =>
        split
        next => exact ⟨none, fun state => Follows.error⟩
        next =>
          apply exists_follows_bind
          intro hdrLen _
          apply exists_follows_bind
          intro funcInfoOff _
          apply exists_follows_bind
          intro funcInfoLen _
          apply exists_follows_bind
          intro lineInfoOff _
          apply exists_follows_bind
          intro lineInfoLen _
          apply exists_follows_bind
          intro coreReloOff _
          apply exists_follows_bind
          intro coreReloLen _
          split
          next => exact ⟨none, fun state => Follows.error⟩
          next =>
            split
            next => exact ⟨_, fun state => Follows.ok rfl⟩
            next =>
              apply exists_follows_bind
              intro coreInfo _
              apply exists_follows_bind
              intro funcInfo _
              apply exists_follows_bind
              intro lineInfo _
              exact extractReloSections_follows hindex object path _ _ _

omit object path in
/-- One object asks for the same whatever the state it finds. -/
theorem extractObject_follows (load : CString → Except Fault ObjectDoc) (path : CString) :
    ∃ outcome, ∀ state : SeedState × SeedStats, Follows base state.1
      (extractObject load index state path) statsView outcome := by
  unfold extractObject
  apply exists_follows_bind
  intro object _
  obtain ⟨seeds, hseeds⟩ := mchExtractObjectSeedsWithRequirements_follows hindex object.btf path
  obtain ⟨relos, hrelos⟩ :=
    mchExtractCoreReloSeedsWithRequirements_follows hindex object.btf path object.ext
  refine ⟨andThen seeds fun _ => andThen relos fun _ => some (Batch.empty, ()), fun state => ?_⟩
  apply (hseeds (state.1, {})).bind
  intro mid
  apply (hrelos mid).bind
  intro last
  exact Follows.ok rfl

end

end MinCorehdr
