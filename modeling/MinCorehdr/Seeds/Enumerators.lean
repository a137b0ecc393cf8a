import MinCorehdr.Emitter.Layout
import MinCorehdr.Seeds.Join
import MinCorehdr.Seeds.Tiling

/-!
# Enumerator relocations

A relocation about an enumerator asks for its enum as a root type.  The enum is
printed whole; which enumerator the access string selects is not looked at.
-/

namespace MinCorehdr

open Relation Support.Result

/-- `BPF_CORE_ENUMVAL_EXISTS` and `BPF_CORE_ENUMVAL_VALUE`. -/
def isEnumReloKind (kind : Nat) : Bool :=
  match kind with
  | 10 | 11 => true
  | _ => false

/-- The relocation part of the section is well formed and has the record. -/
def BtfExt.HasRelo (ext : BtfExt) (relo : CoreRelo) : Prop :=
  ∃ header recSize sections, ext.HasHeader header ∧ header.coreReloLen ≠ 0 ∧
    ReloPartTiles ext.raw header recSize sections ∧
    ∃ visit ∈ sections.flatMap (ReloSection.visits recSize),
      readCoreRelo ext.raw visit.pos = .ok relo

/-- `b` is what the typedef or qualifier `a` is about. -/
def ChainStep (btf : Btf) (a b : Nat) : Prop :=
  ∃ type, btfTypeById btf a = some type ∧ isChainKind type.kind = true ∧ b = type.type

def enumeratorNames (btf : Btf) (type : BtfType) : List CString :=
  if type.kind = .enum then type.enums.map fun value => enumeratorName btf value.nameOff
  else type.enum64s.map fun value => enumeratorName btf value.nameOff

/-- `name` is the enumerator of the object's enum that the relocation selects. -/
def CoreRelo.Selects (object : Btf) (relo : CoreRelo) (name : CString) : Prop :=
  ∃ id type access index, ReflTransGen (ChainStep object) relo.typeId id ∧
    btfTypeById object id = some type ∧ isEnumKind type = true ∧
    btfStrByOffset object relo.accessStrOff = some access ∧
    parseAccessComponent access = some (index, []) ∧
    (enumeratorNames object type)[index]? = some name

theorem isFieldReloKind_of_enum {kind : Nat} (h : isEnumReloKind kind = true) :
    isFieldReloKind kind = false := by
  unfold isEnumReloKind at h
  split at h
  · rfl
  · rfl
  · cases h

theorem names_enumerators (btf : Btf) (type : BtfType) :
    (enumerators btf type).map Enumerator.name = enumeratorNames btf type := by
  unfold enumerators enumeratorNames
  split
  · rw [List.map_map]
    rfl
  · rw [List.map_map]
    rfl

/-! ## The root of the relocation is a seed -/

section

variable {base : Btf} {index : BtfIndex} (hindex : index.Sound base) {object : Btf}
  {path : CString} {parts : CoreReloParts}
include hindex

/-- No record takes a seed away. -/
theorem visitRelo_grows {state state' : SeedState × SeedStats} {visit : ReloVisit}
    (hgood : state.1.Good base)
    (h : visitRelo index object path parts state visit = .ok state') :
    state'.1.Good base ∧ ∀ id, mchTypeSetContains state.1.seeds id = true →
      mchTypeSetContains state'.1.seeds id = true := by
  obtain ⟨relo, _, hrelo⟩ := bind_eq_ok.mp h
  obtain ⟨outcome, hfollows⟩ := extractCoreRelo_follows hindex object path parts visit.secNameOff
    visit.index relo
  obtain ⟨batch, _, happly⟩ := (hfollows state).sound state' hrelo
  have hjoins := applyRequests_joins hgood happly
  exact ⟨hjoins.good, fun id hid => (hjoins.seeds_iff id).mpr (Or.inl hid)⟩

/-- A record that is not about a field leaves its root as a seed. -/
theorem visitRelo_seeds {state state' : SeedState × SeedStats} {visit : ReloVisit}
    {relo : CoreRelo} (hgood : state.1.Good base)
    (hread : readCoreRelo parts.raw visit.pos = .ok relo)
    (hkind : isFieldReloKind relo.kind = false)
    (h : visitRelo index object path parts state visit = .ok state') :
    ∃ baseId, resolveObjectTypeToBase index object relo.typeId path "CO-RE relocation".toList false =
        .ok (some baseId) ∧ mchTypeSetContains state'.1.seeds baseId = true := by
  unfold visitRelo at h
  rw [hread, ok_bind] at h
  obtain ⟨location, _, h⟩ := bind_eq_ok.mp h
  obtain ⟨resolved, hresolved, h⟩ := bind_eq_ok.mp h
  obtain ⟨rooted, hrooted, h⟩ := bind_eq_ok.mp h
  obtain ⟨recorded, hrecorded, h⟩ := bind_eq_ok.mp h
  have hresolve := withReloContext_eq_ok.mp hresolved
  have hroot := withReloContext_eq_ok.mp hrooted
  have hrecord := withReloContext_eq_ok.mp hrecorded
  obtain ⟨hsome, htype⟩ := resolveObjectTypeToBase_eq_ok hindex hresolve
  cases resolved with
  | none => cases hsome rfl
  | some baseId =>
      refine ⟨baseId, hresolve, ?_⟩
      have hnothing : recorded = rooted := by
        unfold recordCoreReloRequirements at hrecord
        split at hrecord
        · cases hrecord
          rfl
        · rw [if_pos (Or.inl hkind)] at hrecord
          cases hrecord
          rfl
      obtain ⟨requirements, _, hseeds⟩ := withRequirements_eq_ok.mp hroot
      obtain ⟨_, type, hbase, _⟩ := htype baseId rfl
      have hlt := btfTypeById_eq_some_lt hbase
      cases h
      rw [hnothing, hseeds]
      have hadded := (contains_mchTypeSetAdd state.1.seeds baseId baseId).mpr
        (Or.inr ⟨rfl, by rw [hgood.count_eq]; exact hlt⟩)
      exact hadded

/-- After a run over the records of an object its roots are seeds. -/
theorem mchExtractCoreReloSeedsWithRequirements_seeds {ext : BtfExt} {relo : CoreRelo}
    {state final : SeedState × SeedStats} (hgood : state.1.Good base) (hrelo : ext.HasRelo relo)
    (hkind : isFieldReloKind relo.kind = false)
    (h : mchExtractCoreReloSeedsWithRequirements index object (some ext) path state.1 state.2 =
      .ok final) :
    ∃ baseId, resolveObjectTypeToBase index object relo.typeId path "CO-RE relocation".toList false =
        .ok (some baseId) ∧ mchTypeSetContains final.1.seeds baseId = true := by
  obtain ⟨header, recSize, sections, hheader, hlen, htiles, visit, hvisit, hread⟩ := hrelo
  obtain ⟨parts, hparts, hrun, _⟩ := @mchExtractCoreReloSeedsWithRequirements_of_tiles index object
    path ext header state.1 state.2 hheader hlen recSize sections htiles
  obtain ⟨hraw, _, _⟩ := coreReloParts_eq_ok hparts
  rw [hrun] at h
  obtain ⟨pre, post, before, after, _, hpre, hstep, hpost⟩ := foldlM_at h hvisit
  have hbefore : before.1.Good base := foldlM_keeps (I := fun state => state.1.Good base)
    (fun _ _ _ _ hstate hok => (visitRelo_grows hindex hstate hok).1) hgood hpre
  obtain ⟨baseId, hresolve, hseed⟩ := visitRelo_seeds hindex hbefore (by rw [hraw]; exact hread)
    hkind hstep
  have hafter := (visitRelo_grows hindex hbefore hstep).1
  have hfinal := foldlM_keeps
    (I := fun state => state.1.Good base ∧ mchTypeSetContains state.1.seeds baseId = true)
    (fun _ _ _ _ hstate hok => ⟨(visitRelo_grows hindex hstate.1 hok).1,
      (visitRelo_grows hindex hstate.1 hok).2 baseId hstate.2⟩) ⟨hafter, hseed⟩ hpost
  exact ⟨baseId, hresolve, hfinal.2⟩

end

theorem extractObjects_seeds {load : CString → Except Fault ObjectDoc} {base : Btf}
    {paths : List CString} {final : SeedState × SeedStats}
    (h : extractObjects load base paths = .ok final) {path : CString} (hpath : path ∈ paths)
    {object : ObjectDoc} (hload : load path = .ok object) {ext : BtfExt}
    (hext : object.ext = some ext) {relo : CoreRelo} (hrelo : ext.HasRelo relo)
    (hkind : isFieldReloKind relo.kind = false) :
    ∃ index baseId, mchBtfIndexInit base = .ok index ∧
      resolveObjectTypeToBase index object.btf relo.typeId path "CO-RE relocation".toList false =
        .ok (some baseId) ∧ mchTypeSetContains final.1.seeds baseId = true := by
  -- the object alone is a run of its own, and what it seeds is there in the longer run
  have hsub : ∀ other ∈ [path], other ∈ paths := by
    intro other hother
    rw [List.mem_singleton.mp hother]
    exact hpath
  obtain ⟨last, hlast, _, hgrows⟩ := extractObjects_of_subset hsub h
  obtain ⟨index, hindex, hrun⟩ := bind_eq_ok.mp hlast
  have hsound := mchBtfIndexInit_sound hindex
  obtain ⟨single, hsingle, hnil⟩ := foldlM_cons_eq_ok.mp hrun
  cases hnil
  unfold extractObject at hsingle
  rw [hload, ok_bind] at hsingle
  obtain ⟨seeded, hseeded, hsingle⟩ := bind_eq_ok.mp hsingle
  obtain ⟨relocated, hrelocated, hsingle⟩ := bind_eq_ok.mp hsingle
  obtain ⟨outcome, hfollows⟩ := mchExtractObjectSeedsWithRequirements_follows hsound object.btf path
  obtain ⟨batch, _, happly⟩ := (hfollows (initialSeedState base, {})).sound seeded hseeded
  have hgood := (applyRequests_joins (initialSeedState_good base) happly).good
  rw [hext] at hrelocated
  obtain ⟨baseId, hresolve, hseed⟩ := mchExtractCoreReloSeedsWithRequirements_seeds hsound hgood
    hrelo hkind hrelocated
  refine ⟨index, baseId, hindex, hresolve, hgrows baseId ?_⟩
  cases hsingle
  exact hseed

/-! ## The enum is in the header -/

theorem closureNext_of_chainStep {btf : Btf} {options : ClosureOptions} {a b : Nat}
    (h : ChainStep btf a b) (hb : b ≠ 0) : ClosureNext btf options a b := by
  obtain ⟨type, htype, hchain, rfl⟩ := h
  refine ⟨type, htype, ?_, hb⟩
  unfold typeDeps
  unfold isChainKind at hchain
  split at hchain <;> simp_all

/-- A chain that ends at a type other than void passes none. -/
theorem closureReaches_of_chain {btf : Btf} {options : ClosureOptions} {a b : Nat}
    (h : ReflTransGen (ChainStep btf) a b) (hb : b ≠ 0) :
    ReflTransGen (ClosureNext btf options) a b := by
  induction h with
  | refl => exact .refl
  | @tail mid last _ hstep ih =>
      have hmid : mid ≠ 0 := by
        rintro rfl
        obtain ⟨type, htype, hchain, _⟩ := hstep
        cases htype
        cases hchain
      exact (ih hmid).tail (closureNext_of_chainStep hstep hb)

/-- The definition of an enum that a seed leads to is in the header, and it is the base's. -/
theorem closeAndEmit_enumDef_iff {fuel : Nat} {base : Btf} {seeds : TypeSet} {options : ClosureOptions}
    {header : List Item} {added : Nat} (hcount : seeds.count = btfTypeCnt base)
    (h : closeAndEmit fuel base seeds options = .ok (header, added)) {baseId enumId : Nat}
    (hseed : mchTypeSetContains seeds baseId = true)
    (hchain : ReflTransGen (ChainStep base) baseId enumId) {type : BtfType}
    (htype : btfTypeById base enumId = some type) (hkind : isEnumKind type = true)
    {constants : List Enumerator} :
    .enumDef enumId (mchBtfTypeName base type) constants ∈ header ↔
      constants = enumerators base type := by
  obtain ⟨⟨required, addedTypes⟩, hclose, h⟩ := bind_eq_ok.mp h
  obtain ⟨items, hemit, h⟩ := bind_eq_ok.mp h
  cases h
  have hne : enumId ≠ 0 := by
    rintro rfl
    cases htype
    cases hkind
  have hbase : baseId ≠ 0 := by
    rintro rfl
    rcases hchain.cases_head with heq | ⟨next, ⟨void, hvoid, hstep, _⟩, _⟩
    · exact hne heq.symm
    · cases hvoid
      cases hstep
  have hreach : enumId ∈ required.ids := ((contains_closure_iff hcount hclose).2 enumId).mpr
    ⟨baseId, ⟨hbase, hseed⟩, closureReaches_of_chain hchain hne⟩
  obtain ⟨fwds, enums, defs, rfl, hlayout⟩ := emitHeader_layout hemit
  rw [hlayout.enumDef_mem_iff]
  constructor
  · rintro ⟨_, type', htype', _, _, rfl⟩
    cases htype.symm.trans htype'
    rfl
  · rintro rfl
    exact ⟨hreach, type, htype, hkind, rfl, rfl⟩

/-! ## The access string plays no part -/

/-- Whether a root can be recorded does not depend on where it comes from. -/
theorem requireTypeRoot_succeeds {state : SeedState} {baseId : Nat}
    {origin : Option RequirementOrigin} (other : Option RequirementOrigin)
    (h : Succeeds (requireTypeRoot state baseId origin)) :
    Succeeds (requireTypeRoot state baseId other) := by
  obtain ⟨after, hafter⟩ := h
  obtain ⟨requirements, hadd, _⟩ := withRequirements_eq_ok.mp hafter
  have hother : ∃ requirements, mchRequirementsAddTypeRoot allGranted state.requirements baseId other =
      (requirements, .ok ()) := by
    unfold mchRequirementsAddTypeRoot at hadd ⊢
    by_cases hrange : state.requirements.typeCount ≤ baseId
    · rw [if_pos hrange] at hadd
      cases hadd
    · rw [if_neg hrange] at hadd ⊢
      by_cases hold : mchRequirementsContainsTypeRoot state.requirements baseId = true
      · rw [if_pos hold]
        exact ⟨_, rfl⟩
      · rw [if_neg hold] at hadd ⊢
        cases happend : appendTrace allGranted state.requirements .typeRoot baseId 0 origin with
        | error fault =>
            rw [happend] at hadd
            cases hadd
        | ok appended =>
            obtain ⟨hid, hzero, capacity, trace, hroom, _⟩ := appendTrace_eq_ok happend
            obtain ⟨appended', happended⟩ := @appendTrace_succeeds state.requirements .typeRoot
              baseId 0 capacity other hid hzero hroom
            rw [happended]
            exact ⟨_, rfl⟩
  obtain ⟨recorded, hrecorded⟩ := hother
  exact ⟨_, withRequirements_eq_ok.mpr ⟨recorded, hrecorded, rfl⟩⟩

/-- A record about an enumerator succeeds or fails as it does with any other
access string. -/
theorem extractCoreRelo_anyAccess {index : BtfIndex} {object : Btf} {path : CString}
    {parts : CoreReloParts} {secNameOff i : Nat} {relo : CoreRelo} {state : SeedState}
    {stats : SeedStats} (hkind : isFieldReloKind relo.kind = false) (accessStrOff : Nat)
    (h : Succeeds (extractCoreRelo index object path parts secNameOff i relo state stats)) :
    Succeeds (extractCoreRelo index object path parts secNameOff i { relo with accessStrOff } state
      stats) := by
  obtain ⟨result, h⟩ := h
  obtain ⟨location, hlocation, h⟩ := bind_eq_ok.mp h
  obtain ⟨resolved, hresolved, h⟩ := bind_eq_ok.mp h
  obtain ⟨rooted, hrooted, h⟩ := bind_eq_ok.mp h
  have hresolve := withReloContext_eq_ok.mp hresolved
  have hother : Succeeds (requireTypeRoot (addSeed state (resolved.getD 0)).1 (resolved.getD 0) (some
      { source := .coreRelo, objectPath := some path, detail := some (coreReloKindName relo.kind)
        access := btfStrByOffset object accessStrOff, location := some location })) :=
    requireTypeRoot_succeeds _ ⟨rooted, withReloContext_eq_ok.mp hrooted⟩
  obtain ⟨rooted', hrooted'⟩ := hother
  have hrecord : ∀ access origin, recordCoreReloRequirements index.btf object path
      { relo with accessStrOff } (resolved.getD 0) access origin rooted' = .ok rooted' := by
    intro access origin
    unfold recordCoreReloRequirements
    split
    · rfl
    · rw [if_pos (Or.inl hkind)]
  have hformat : formatCoreReloLocation parts.raw object parts.funcInfo parts.lineInfo secNameOff
      { relo with accessStrOff } = .ok location := hlocation
  unfold Succeeds extractCoreRelo
  rw [hformat, ok_bind]
  simp only [withReloContext_eq_ok.mpr hresolve, withReloContext_eq_ok.mpr hrooted',
    withReloContext_eq_ok.mpr (hrecord _ _), ok_bind]
  exact ⟨_, rfl⟩

/-! ## What a successful run says of an enumerator -/

/-- The enum a relocation was resolved to is in the header with all its
enumerators and no others, and so with the selected one if the base has it;
whether the relocation is accepted does not depend on its access string. -/
theorem generate_enumRelocation {load : CString → Except Fault ObjectDoc} {fuel : Nat} {base : Btf}
    {options : Options} {paths : List CString} {out : Output}
    (h : generate load fuel base options paths = .ok out) {path : CString} (hpath : path ∈ paths)
    {object : ObjectDoc} (hload : load path = .ok object) {ext : BtfExt}
    (hext : object.ext = some ext) {relo : CoreRelo} (hrelo : ext.HasRelo relo)
    (hkind : isEnumReloKind relo.kind = true) :
    ∃ index baseId, mchBtfIndexInit base = .ok index ∧
      resolveObjectTypeToBase index object.btf relo.typeId path "CO-RE relocation".toList false =
        .ok (some baseId) ∧
      (∀ enumId type, ReflTransGen (ChainStep base) baseId enumId →
        btfTypeById base enumId = some type → isEnumKind type = true →
          (∃ constants, .enumDef enumId (mchBtfTypeName base type) constants ∈ out.header ∧
            constants.map Enumerator.name = enumeratorNames base type) ∧
          ∀ name, relo.Selects object.btf name →
            ((∃ constants, .enumDef enumId (mchBtfTypeName base type) constants ∈ out.header ∧
              name ∈ constants.map Enumerator.name) ↔ name ∈ enumeratorNames base type)) ∧
      ∀ parts secNameOff i state stats accessStrOff,
        Succeeds (extractCoreRelo index object.btf path parts secNameOff i
          { relo with accessStrOff } state stats) ↔
        Succeeds (extractCoreRelo index object.btf path parts secNameOff i relo state stats) := by
  obtain ⟨⟨state, seedTotal⟩, hextract, h⟩ := bind_eq_ok.mp h
  obtain ⟨⟨header, addedTypes⟩, hemit, h⟩ := bind_eq_ok.mp h
  obtain ⟨explanation, _, h⟩ := bind_eq_ok.mp h
  cases h
  have hfield := isFieldReloKind_of_enum hkind
  obtain ⟨index, baseId, hindex, hresolve, hseed⟩ := extractObjects_seeds hextract hpath hload hext
    hrelo hfield
  refine ⟨index, baseId, hindex, hresolve, fun enumId type hchain htype henum => ?_, ?_⟩
  · have hcount := (extractObjects_extracted hextract).good.count_eq
    have hdef := fun constants => @closeAndEmit_enumDef_iff fuel base state.seeds
      (closureOptions options state.requirements) header addedTypes hcount hemit baseId enumId hseed
      hchain type htype henum constants
    refine ⟨⟨_, (hdef _).mpr rfl, names_enumerators base type⟩, fun name _ => ?_⟩
    rw [← names_enumerators]
    constructor
    · rintro ⟨constants, hitem, hname⟩
      exact (hdef constants).mp hitem ▸ hname
    · exact fun hname => ⟨_, (hdef _).mpr rfl, hname⟩
  · intro parts secNameOff i state stats accessStrOff
    constructor
    · exact @extractCoreRelo_anyAccess index object.btf path parts secNameOff i
        { relo with accessStrOff } state stats hfield relo.accessStrOff
    · exact extractCoreRelo_anyAccess hfield accessStrOff

/-- `enum E { A }` in the base, `enum E { A, B }` in the object. -/
def enumOf (names : List Nat) : BtfType :=
  { nameOff := 1, kind := .enum, size := 4,
    enums := names.map fun nameOff => { nameOff, val := 0 } }

def enumOnly (names : List Nat) : Btf where
  types := [enumOf names]
  strs := "\x00E\x00A\x00B\x001\x00".toList

/-- The object asks whether its second enumerator exists. -/
def secondEnumerator : CoreRelo := { insnOff := 0, typeId := 1, accessStrOff := 7, kind := 10 }

def secondEnumeratorExt : BtfExt :=
  extOfPart ([16, 0, 0, 0, 0, 0, 0, 0, 1, 0, 0, 0] ++
    [0, 0, 0, 0, 1, 0, 0, 0, 7, 0, 0, 0, 10, 0, 0, 0]) 28

def loadSecondEnumerator (_ : CString) : Except Fault ObjectDoc :=
  .ok { btf := enumOnly [3, 5], ext := some secondEnumeratorExt }

theorem secondEnumeratorExt_hasRelo : secondEnumeratorExt.HasRelo secondEnumerator :=
  ⟨soleReloHeader 28, 16, [{ secNameOff := 0, records := 44, numInfo := 1 }],
    by constructor <;> decide, by decide,
    ⟨by decide, by decide, by decide, by decide, .cons rfl rfl (by decide) .done⟩,
    { secNameOff := 0, index := 0, pos := 44 }, by decide, rfl⟩

theorem secondEnumerator_selects : secondEnumerator.Selects (enumOnly [3, 5]) ['B'] :=
  ⟨1, enumOf [3, 5], ['1'], 1, .refl, rfl, rfl, by decide, by decide, by decide⟩

theorem secondEnumerator_runs :
    ∃ out, generate loadSecondEnumerator 10 (enumOnly [3]) {} [['a']] = .ok out :=
  exists_ok_of_isSome (by decide)

theorem generate_enumRelocation_secondEnumerator :
    ∃ out, generate loadSecondEnumerator 10 (enumOnly [3]) {} [['a']] = .ok out ∧
      ∃ index baseId, mchBtfIndexInit (enumOnly [3]) = .ok index ∧
        resolveObjectTypeToBase index (enumOnly [3, 5]) 1 ['a'] "CO-RE relocation".toList false =
          .ok (some baseId) ∧
        ∀ enumId type, ReflTransGen (ChainStep (enumOnly [3])) baseId enumId →
          btfTypeById (enumOnly [3]) enumId = some type → isEnumKind type = true →
            (∃ constants,
              .enumDef enumId (mchBtfTypeName (enumOnly [3]) type) constants ∈ out.header ∧
              constants.map Enumerator.name = enumeratorNames (enumOnly [3]) type) ∧
            ((∃ constants,
              .enumDef enumId (mchBtfTypeName (enumOnly [3]) type) constants ∈ out.header ∧
              ['B'] ∈ constants.map Enumerator.name) ↔
                ['B'] ∈ enumeratorNames (enumOnly [3]) type) := by
  obtain ⟨out, hout⟩ := secondEnumerator_runs
  obtain ⟨index, baseId, hindex, hresolve, hprinted, _⟩ := generate_enumRelocation hout
    List.mem_cons_self rfl rfl secondEnumeratorExt_hasRelo rfl
  refine ⟨out, hout, index, baseId, hindex, hresolve, fun enumId type hchain htype hkind => ?_⟩
  obtain ⟨hdefined, hselected⟩ := hprinted enumId type hchain htype hkind
  exact ⟨hdefined, hselected ['B'] secondEnumerator_selects⟩

/-- The base enum lacks the enumerator that is selected, and the run succeeds. -/
theorem missingEnumerator_succeeds :
    secondEnumeratorExt.HasRelo secondEnumerator ∧ isEnumReloKind secondEnumerator.kind = true ∧
      secondEnumerator.Selects (enumOnly [3, 5]) ['B'] ∧
      ['B'] ∉ enumeratorNames (enumOnly [3]) (enumOf [3]) ∧
      Succeeds (generate loadSecondEnumerator 10 (enumOnly [3]) {} [['a']]) :=
  ⟨secondEnumeratorExt_hasRelo, rfl, secondEnumerator_selects, by decide, secondEnumerator_runs⟩

end MinCorehdr
