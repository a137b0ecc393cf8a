import MinCorehdr.IndexLookup
import MinCorehdr.Seeds.Join

/-!
# What an object's own types become

A candidate's chain is followed until a type has a match in the base.  `ChainEnds`
says what the chain comes to, without the index and without the diagnostics; the
seeds of an object are what the chains of its candidates end at.
-/

namespace MinCorehdr

open Support.Result

/-- Enums without a name that have the same enumerators. -/
structure SameAnonymousEnum (base object : Btf) (baseType type : BtfType) : Prop where
  unnamed : mchBtfTypeName base baseType = []
  kind_eq : baseType.kind = type.kind
  size_eq : baseType.size = type.size
  kflag_eq : baseType.kflag = type.kflag
  enums : type.kind = .enum → List.Forall₂ (fun left right =>
    sameName (btfNameByOffset base left.nameOff) (btfNameByOffset object right.nameOff) = true ∧
      left.val = right.val) baseType.enums type.enums
  enum64s : type.kind = .enum64 → List.Forall₂ (fun left right =>
    sameName (btfNameByOffset base left.nameOff) (btfNameByOffset object right.nameOff) = true ∧
      left.valLo32 = right.valLo32 ∧ left.valHi32 = right.valHi32) baseType.enum64s type.enum64s

def IsAnonymousEnum (object : Btf) (type : BtfType) : Prop :=
  (type.kind = .enum ∨ type.kind = .enum64) ∧ mchBtfTypeName object type = []

/-- The base type `id` is a match of an object type: by name and kind, or, for an enum
without a name, by its body. -/
inductive BaseMatch (base object : Btf) (type : BtfType) (id : Nat) : Prop
  | named : isSeedableKind type.kind = true → mchBtfTypeName object type ≠ [] →
      HasNamed base id (mchBtfTypeName object type) type.kind → BaseMatch base object type id
  | anonymous {baseType : BtfType} : IsAnonymousEnum object type → id ≠ 0 →
      btfTypeById base id = some baseType →
      SameAnonymousEnum base object baseType type → BaseMatch base object type id

/-- What a chain comes to. -/
inductive ChainEnd
  | base (id : Nat)
  | ambiguous
  | programLocal
  | void
  | tooLong

/-- What the chain from an object type comes to within so many types. -/
inductive ChainEnds (base object : Btf) : Nat → Nat → ChainEnd → Prop
  | tooLong {id : Nat} : ChainEnds base object 0 id .tooLong
  | void {depth : Nat} : ChainEnds base object (depth + 1) 0 .void
  | found {depth id baseId : Nat} {type : BtfType} : id ≠ 0 → btfTypeById object id = some type →
      BaseMatch base object type baseId → (∀ other, BaseMatch base object type other → other = baseId) →
      ChainEnds base object (depth + 1) id (.base baseId)
  | ambiguous {depth id baseId other : Nat} {type : BtfType} : id ≠ 0 →
      btfTypeById object id = some type → BaseMatch base object type baseId →
      BaseMatch base object type other → baseId ≠ other →
      ChainEnds base object (depth + 1) id .ambiguous
  | programLocal {depth id : Nat} {type : BtfType} : id ≠ 0 → btfTypeById object id = some type →
      (∀ baseId, ¬BaseMatch base object type baseId) → isChainKind type.kind = false →
      ChainEnds base object (depth + 1) id .programLocal
  | step {depth id : Nat} {type : BtfType} {last : ChainEnd} : id ≠ 0 →
      btfTypeById object id = some type → (∀ baseId, ¬BaseMatch base object type baseId) →
      isChainKind type.kind = true → ChainEnds base object depth type.type last →
      ChainEnds base object (depth + 1) id last

/-- The object types that are looked up. -/
def IsCandidate (object : Btf) (id : Nat) : Prop :=
  id ≠ 0 ∧ ∃ type, btfTypeById object id = some type ∧ isSeedableKind type.kind = true ∧
    (mchBtfTypeName object type ≠ [] ∨ IsAnonymousEnum object type)

/-! ## The search for an enum without a name -/

/-- A test at every index of two lists of one length. -/
theorem all_range_iff_forall₂ {α β : Type} {P : α → β → Prop} {f : Nat → Bool} {as : List α}
    {bs : List β} (hlen : as.length = bs.length)
    (hf : ∀ i (h : i < as.length) (h' : i < bs.length), f i = true ↔ P as[i] bs[i]) :
    (List.range bs.length).all f = true ↔ List.Forall₂ P as bs := by
  rw [List.all_eq_true, List.forall₂_iff_get]
  constructor
  · intro hall
    refine ⟨hlen, fun i h h' => ?_⟩
    exact (hf i h h').mp (hall i (List.mem_range.mpr h'))
  · rintro ⟨_, hall⟩ i hi
    have h' := List.mem_range.mp hi
    exact (hf i (by omega) h').mpr (hall i (by omega) h')

section

variable {base object : Btf} {type : BtfType}

theorem vlen_of_enum (h : type.kind = .enum) : type.vlen = type.enums.length := by
  rw [BtfType.vlen, h]

theorem vlen_of_enum64 (h : type.kind = .enum64) : type.vlen = type.enum64s.length := by
  rw [BtfType.vlen, h]

theorem all_enumValueMatches_enum {baseType : BtfType} (hbase : baseType.kind = .enum)
    (hkind : type.kind = .enum) (hlen : baseType.vlen = type.vlen) :
    (List.range type.vlen).all (enumValueMatches base baseType object type) = true ↔
      List.Forall₂ (fun left right =>
        sameName (btfNameByOffset base left.nameOff) (btfNameByOffset object right.nameOff) = true ∧
          left.val = right.val) baseType.enums type.enums := by
  rw [vlen_of_enum hbase, vlen_of_enum hkind] at hlen
  rw [vlen_of_enum hkind]
  refine all_range_iff_forall₂ hlen fun i h h' => ?_
  rw [enumValueMatches, if_pos hbase, List.getElem?_eq_getElem h, List.getElem?_eq_getElem h']
  simp only [Bool.and_eq_true, decide_eq_true_eq]

theorem all_enumValueMatches_enum64 {baseType : BtfType} (hbase : baseType.kind = .enum64)
    (hkind : type.kind = .enum64) (hlen : baseType.vlen = type.vlen) :
    (List.range type.vlen).all (enumValueMatches base baseType object type) = true ↔
      List.Forall₂ (fun left right =>
        sameName (btfNameByOffset base left.nameOff) (btfNameByOffset object right.nameOff) = true ∧
          left.valLo32 = right.valLo32 ∧ left.valHi32 = right.valHi32)
        baseType.enum64s type.enum64s := by
  rw [vlen_of_enum64 hbase, vlen_of_enum64 hkind] at hlen
  have hnot : baseType.kind ≠ .enum := by
    rw [hbase]
    exact Kind.noConfusion
  rw [vlen_of_enum64 hkind]
  refine all_range_iff_forall₂ hlen fun i h h' => ?_
  rw [enumValueMatches, if_neg hnot, List.getElem?_eq_getElem h, List.getElem?_eq_getElem h']
  simp only [Bool.and_eq_true, decide_eq_true_eq, and_assoc]

/-- Bodies that agree have as many enumerators. -/
theorem SameAnonymousEnum.vlen_eq {baseType : BtfType} (h : SameAnonymousEnum base object baseType type)
    (henum : IsAnonymousEnum object type) : baseType.vlen = type.vlen := by
  rcases henum.1 with hkind | hkind
  · rw [vlen_of_enum hkind, vlen_of_enum (h.kind_eq.trans hkind)]
    exact (h.enums hkind).length_eq
  · rw [vlen_of_enum64 hkind, vlen_of_enum64 (h.kind_eq.trans hkind)]
    exact (h.enum64s hkind).length_eq

theorem anonymousEnumMatches_iff {baseType : BtfType} (henum : IsAnonymousEnum object type) :
    anonymousEnumMatches base baseType object type = true ↔
      SameAnonymousEnum base object baseType type := by
  unfold anonymousEnumMatches
  split
  next hdiffer =>
    refine iff_of_false Bool.false_ne_true fun hsame => ?_
    rcases hdiffer with hkind | hsize | hkflag | hvlen | hname
    · exact hkind hsame.kind_eq
    · exact hsize hsame.size_eq
    · exact hkflag hsame.kflag_eq
    · exact hvlen (hsame.vlen_eq henum)
    · exact hname hsame.unnamed
  next hagree =>
    simp only [not_or, not_not] at hagree
    obtain ⟨hkind, hsize, hkflag, hvlen, hname⟩ := hagree
    rcases henum.1 with henumKind | henumKind
    · rw [all_enumValueMatches_enum (hkind.trans henumKind) henumKind hvlen]
      refine ⟨fun hbody => ⟨hname, hkind, hsize, hkflag, fun _ => hbody, ?_⟩,
        fun hsame => hsame.enums henumKind⟩
      intro hother
      rw [henumKind] at hother
      cases hother
    · rw [all_enumValueMatches_enum64 (hkind.trans henumKind) henumKind hvlen]
      refine ⟨fun hbody => ⟨hname, hkind, hsize, hkflag, ?_, fun _ => hbody⟩,
        fun hsame => hsame.enum64s henumKind⟩
      intro hother
      rw [henumKind] at hother
      cases hother

/-! ## A lookup -/

/-- The base types the search counts. -/
def anonymousIds (base object : Btf) (type : BtfType) (typed : List (BtfType × Nat)) : List Nat :=
  (typed.filter (fun pair => anonymousEnumMatches base pair.1 object type)).map Prod.snd

theorem findAnonymousEnum_eq (typed : List (BtfType × Nat)) : ∀ found : Option Nat,
    findAnonymousEnum base object type typed found =
      linearLookup (found.toList ++ anonymousIds base object type typed) := by
  induction typed with
  | nil =>
      intro found
      cases found <;> rfl
  | cons pair rest ih =>
      intro found
      obtain ⟨baseType, id⟩ := pair
      unfold findAnonymousEnum
      by_cases hmatch : anonymousEnumMatches base baseType object type = true
      · have hids : anonymousIds base object type ((baseType, id) :: rest) =
            id :: anonymousIds base object type rest := by
          simp [anonymousIds, hmatch]
        rw [if_neg (by simp [hmatch]), hids]
        cases found with
        | none => exact ih (some id)
        | some other => rfl
      · have hids : anonymousIds base object type ((baseType, id) :: rest) =
            anonymousIds base object type rest := by
          simp [anonymousIds, hmatch]
        rw [if_pos (by simpa using hmatch), hids]
        exact ih found

theorem nodup_anonymousIds : (anonymousIds base object type (base.types.zipIdx 1)).Nodup := by
  have hsub : List.Sublist (anonymousIds base object type (base.types.zipIdx 1))
      ((base.types.zipIdx 1).map Prod.snd) := List.filter_sublist.map Prod.snd
  rw [List.zipIdx_map_snd] at hsub
  exact hsub.nodup List.nodup_range'

theorem mem_anonymousIds {id : Nat} (h : IsAnonymousEnum object type) :
    id ∈ anonymousIds base object type (base.types.zipIdx 1) ↔ BaseMatch base object type id := by
  unfold anonymousIds
  simp only [List.mem_map, List.mem_filter, Prod.exists, exists_eq_right,
    anonymousEnumMatches_iff h]
  constructor
  · rintro ⟨baseType, hmem, hsame⟩
    obtain ⟨hzero, htype⟩ := mem_types_zipIdx hmem
    exact .anonymous h hzero htype hsame
  · intro hmatch
    cases hmatch with
    | named _ hname _ => exact absurd h.2 hname
    | @anonymous baseType _ hzero htype hsame =>
        obtain ⟨id, rfl⟩ := Nat.exists_eq_succ_of_ne_zero hzero
        have hmem : (baseType, id + 1) ∈ base.types.zipIdx 1 :=
          List.mk_mem_zipIdx_iff_le_and_getElem?_sub.mpr ⟨by omega, htype⟩
        exact ⟨baseType, hmem, hsame⟩

/-- How a turn of the loop looks a type up. -/
def lookupType (index : BtfIndex) (object : Btf) (type : BtfType) : Lookup :=
  if isSeedableKind type.kind ∧ mchBtfTypeName object type ≠ [] then
    mchBtfIndexLookup index (mchBtfTypeName object type) type.kind
  else if (type.kind = .enum ∨ type.kind = .enum64) ∧ mchBtfTypeName object type = [] then
    mchBtfIndexLookupAnonymousEnum index object type
  else .missing

/-- What a lookup says about the matches of a type. -/
inductive Answers (base object : Btf) (type : BtfType) : Lookup → Prop
  | missing : (∀ id, ¬BaseMatch base object type id) → Answers base object type .missing
  | unique {id : Nat} : BaseMatch base object type id →
      (∀ other, BaseMatch base object type other → other = id) →
      Answers base object type (.unique id)
  | ambiguous {id other : Nat} : BaseMatch base object type id →
      BaseMatch base object type other → id ≠ other → Answers base object type .ambiguous

theorem Answers.of_ids {ids : List Nat} (hnodup : ids.Nodup)
    (hmem : ∀ id, id ∈ ids ↔ BaseMatch base object type id) :
    Answers base object type (linearLookup ids) := by
  cases hlookup : linearLookup ids with
  | missing =>
      refine .missing fun id hmatch => ?_
      exact linearLookup_eq_missing_iff.mp hlookup id ((hmem id).mpr hmatch)
  | unique id =>
      obtain ⟨hid, honly⟩ := (linearLookup_eq_unique_iff hnodup).mp hlookup
      exact .unique ((hmem id).mp hid) fun other hother => honly other ((hmem other).mpr hother)
  | ambiguous =>
      obtain ⟨id, hid, other, hother, hne⟩ := (linearLookup_eq_ambiguous_iff hnodup).mp hlookup
      exact .ambiguous ((hmem id).mp hid) ((hmem other).mp hother) hne

theorem lookupType_answers {index : BtfIndex} (hindex : mchBtfIndexInit base = .ok index) :
    Answers base object type (lookupType index object type) := by
  unfold lookupType
  split
  next hnamed =>
    rw [mchBtfIndexLookup_eq_linearLookup hindex hnamed.2 hnamed.1]
    refine .of_ids (nodup_namedIds base _ _) fun id => ?_
    rw [mem_namedIds]
    constructor
    · exact .named hnamed.1 hnamed.2
    · intro hmatch
      cases hmatch with
      | named _ _ hid => exact hid
      | anonymous henum _ _ _ => exact absurd henum.2 hnamed.2
  next hnot =>
    split
    next henum =>
      have hsearch : mchBtfIndexLookupAnonymousEnum index object type =
          linearLookup (anonymousIds base object type (base.types.zipIdx 1)) := by
        have hguard : ¬((type.kind ≠ .enum ∧ type.kind ≠ .enum64) ∨
            mchBtfTypeName object type ≠ []) := by
          rintro (⟨hne, hne'⟩ | hname)
          · exact henum.1.elim hne hne'
          · exact hname henum.2
        rw [mchBtfIndexLookupAnonymousEnum, if_neg hguard, (mchBtfIndexInit_sound hindex).btf_eq]
        exact findAnonymousEnum_eq _ none
      rw [hsearch]
      exact .of_ids nodup_anonymousIds fun id => mem_anonymousIds henum
    next hnotEnum =>
      refine .missing fun id hmatch => ?_
      cases hmatch with
      | named hseed hname _ => exact hnot ⟨hseed, hname⟩
      | anonymous henum _ _ _ => exact hnotEnum henum

/-! ## A chain -/

theorem ChainEnds.unique {depth id : Nat} {last : ChainEnd}
    (h : ChainEnds base object depth id last) :
    ∀ {last' : ChainEnd}, ChainEnds base object depth id last' → last = last' := by
  induction h with
  | tooLong =>
      intro last' h'
      cases h'
      rfl
  | void =>
      intro last' h'
      cases h' with
      | void => rfl
      | found hzero _ _ _ => exact absurd rfl hzero
      | ambiguous hzero _ _ _ _ => exact absurd rfl hzero
      | programLocal hzero _ _ _ => exact absurd rfl hzero
      | step hzero _ _ _ _ => exact absurd rfl hzero
  | found hzero htype hmatch honly =>
      intro last' h'
      cases h' with
      | void => exact absurd rfl hzero
      | found _ htype' hmatch' _ =>
          cases htype.symm.trans htype'
          rw [honly _ hmatch']
      | ambiguous _ htype' hmatch' hother' hne =>
          cases htype.symm.trans htype'
          exact absurd ((honly _ hmatch').trans (honly _ hother').symm) hne
      | programLocal _ htype' hnone _ =>
          cases htype.symm.trans htype'
          exact absurd hmatch (hnone _)
      | step _ htype' hnone _ _ =>
          cases htype.symm.trans htype'
          exact absurd hmatch (hnone _)
  | ambiguous hzero htype hmatch hother hne =>
      intro last' h'
      cases h' with
      | void => exact absurd rfl hzero
      | found _ htype' _ honly =>
          cases htype.symm.trans htype'
          exact absurd ((honly _ hmatch).trans (honly _ hother).symm) hne
      | ambiguous _ _ _ _ _ => rfl
      | programLocal _ htype' hnone _ =>
          cases htype.symm.trans htype'
          exact absurd hmatch (hnone _)
      | step _ htype' hnone _ _ =>
          cases htype.symm.trans htype'
          exact absurd hmatch (hnone _)
  | programLocal hzero htype hnone hkind =>
      intro last' h'
      cases h' with
      | void => exact absurd rfl hzero
      | found _ htype' hmatch' _ =>
          cases htype.symm.trans htype'
          exact absurd hmatch' (hnone _)
      | ambiguous _ htype' hmatch' _ _ =>
          cases htype.symm.trans htype'
          exact absurd hmatch' (hnone _)
      | programLocal _ _ _ _ => rfl
      | step _ htype' _ hkind' _ =>
          cases htype.symm.trans htype'
          rw [hkind] at hkind'
          cases hkind'
  | step hzero htype hnone hkind _ ih =>
      intro last' h'
      cases h' with
      | void => exact absurd rfl hzero
      | found _ htype' hmatch' _ =>
          cases htype.symm.trans htype'
          exact absurd hmatch' (hnone _)
      | ambiguous _ htype' hmatch' _ _ =>
          cases htype.symm.trans htype'
          exact absurd hmatch' (hnone _)
      | programLocal _ htype' _ hkind' =>
          cases htype.symm.trans htype'
          rw [hkind] at hkind'
          cases hkind'
      | step _ htype' _ _ hrest' =>
          cases htype.symm.trans htype'
          exact ih hrest'

/-- What the resolution of a chain returns. -/
def ChainEnd.IsResult : ChainEnd → Except Fault (Option Nat) → Prop
  | .base id, result => result = .ok (some id)
  | .programLocal, result => result = .ok none
  | .ambiguous, result | .void, result | .tooLong, result => ∃ fault, result = .error fault

theorem mem_references_of_isChainKind (h : isChainKind type.kind = true) :
    type.type ∈ type.references := by
  unfold BtfType.references
  cases hkind : type.kind <;> rw [hkind] at h <;>
    first | exact List.mem_cons_self | cases h

theorem Btf.RefsInRange.chain_lt (h : object.RefsInRange) {id : Nat}
    (htype : btfTypeById object id = some type) (hkind : isChainKind type.kind = true) :
    type.type < btfTypeCnt object := by
  cases id with
  | zero =>
      cases htype
      cases hkind
  | succ id =>
      exact h type (List.mem_of_getElem? htype) _ (mem_references_of_isChainKind hkind)

theorem resolveObjectTypeFrom_ends {index : BtfIndex} {objectTypeId : Nat}
    {path reference : CString} (hindex : mchBtfIndexInit base = .ok index)
    (hrefs : object.RefsInRange) (depth : Nat) :
    ∀ {id : Nat} {rootName : Option CString} {query : ResolutionQuery}, id < btfTypeCnt object →
      ∃ last, ChainEnds base object depth id last ∧ last.IsResult
        (resolveObjectTypeFrom index object objectTypeId path reference true depth id rootName
          query) := by
  induction depth with
  | zero => exact fun _ => ⟨.tooLong, .tooLong, _, rfl⟩
  | succ depth ih =>
      intro id rootName query hid
      rw [resolveObjectTypeFrom]
      by_cases hzero : id = 0
      · subst hzero
        exact ⟨.void, .void, _, rfl⟩
      · obtain ⟨type, htype⟩ := exists_btfTypeById hid
        have hrange : ¬(id = 0 ∨ btfTypeCnt object ≤ id) := by omega
        have hanswers := @lookupType_answers base object type index hindex
        -- the end of a turn without a match, whichever lookup was made
        have hmissing : (∀ baseId, ¬BaseMatch base object type baseId) →
            ∀ {rootName query}, ∃ last, ChainEnds base object (depth + 1) id last ∧
              last.IsResult (if isChainKind type.kind = true then
                resolveObjectTypeFrom index object objectTypeId path reference true depth type.type
                  rootName query
              else .ok none) := by
          intro hnone rootName query
          by_cases hkind : isChainKind type.kind = true
          · obtain ⟨last, hends, hresult⟩ :=
              @ih type.type rootName query (hrefs.chain_lt htype hkind)
            rw [if_pos hkind]
            exact ⟨last, .step hzero htype hnone hkind hends, hresult⟩
          · rw [if_neg hkind]
            exact ⟨.programLocal, .programLocal hzero htype hnone (by simpa using hkind), rfl⟩
        rw [if_neg hrange, htype]
        simp only [if_true]
        unfold lookupType at hanswers
        split at hanswers
        next hnamed =>
          rw [if_pos hnamed]
          cases hlookup : mchBtfIndexLookup index (mchBtfTypeName object type) type.kind with
          | missing =>
              rw [hlookup] at hanswers
              cases hanswers with
              | missing hnone => exact hmissing hnone
          | unique baseId =>
              rw [hlookup] at hanswers
              cases hanswers with
              | unique hmatch honly => exact ⟨.base baseId, .found hzero htype hmatch honly, rfl⟩
          | ambiguous =>
              rw [hlookup] at hanswers
              cases hanswers with
              | ambiguous hmatch hother hne =>
                  exact ⟨.ambiguous, .ambiguous hzero htype hmatch hother hne, _, rfl⟩
        next hnot =>
          rw [if_neg hnot]
          split at hanswers
          next henum =>
            rw [if_pos henum]
            cases hlookup : mchBtfIndexLookupAnonymousEnum index object type with
            | missing =>
                rw [hlookup] at hanswers
                cases hanswers with
                | missing hnone => exact hmissing hnone
            | unique baseId =>
                rw [hlookup] at hanswers
                cases hanswers with
                | unique hmatch honly => exact ⟨.base baseId, .found hzero htype hmatch honly, rfl⟩
            | ambiguous =>
                rw [hlookup] at hanswers
                cases hanswers with
                | ambiguous hmatch hother hne =>
                    exact ⟨.ambiguous, .ambiguous hzero htype hmatch hother hne, _, rfl⟩
          next hnotEnum =>
            rw [if_neg hnotEnum]
            cases hanswers with
            | missing hnone => exact hmissing hnone

/-! ## A turn of the loop over the object's types -/

/-- The candidate's chain gives this seed. -/
def Seeded (base object : Btf) (id baseId : Nat) : Prop :=
  IsCandidate object id ∧ ChainEnds base object 32 id (.base baseId)

/-- A cause to fail: the candidate's chain is ambiguous or too long. -/
def HasCause (base object : Btf) (id : Nat) : Prop :=
  IsCandidate object id ∧
    (ChainEnds base object 32 id .ambiguous ∨ ChainEnds base object 32 id .tooLong)

/-- The candidate's chain comes to void, and no type on it has a match. -/
def EndsAtVoid (base object : Btf) (id : Nat) : Prop :=
  IsCandidate object id ∧ ChainEnds base object 32 id .void

theorem BaseMatch.lt {id : Nat} (h : BaseMatch base object type id) : id < btfTypeCnt base := by
  cases h with
  | named _ _ hnamed =>
      obtain ⟨_, baseType, htype, _⟩ := hnamed
      exact btfTypeById_eq_some_lt htype
  | anonymous _ _ htype _ => exact btfTypeById_eq_some_lt htype

theorem ChainEnds.base_lt {depth id : Nat} {last : ChainEnd}
    (h : ChainEnds base object depth id last) :
    ∀ {baseId : Nat}, last = .base baseId → baseId < btfTypeCnt base := by
  induction h with
  | tooLong => exact nofun
  | void => exact nofun
  | found _ _ hmatch _ =>
      intro baseId heq
      cases heq
      exact hmatch.lt
  | ambiguous _ _ _ _ _ => exact nofun
  | programLocal _ _ _ _ => exact nofun
  | step _ _ _ _ _ ih => exact ih

theorem requireTypeRoot_total {state : SeedState} {baseId : Nat}
    {origin : Option RequirementOrigin} (hformat : base.InFormat) (hgood : state.Good base)
    (hid : baseId < btfTypeCnt base) :
    ∃ mid, requireTypeRoot state baseId origin = .ok mid ∧ mid.seeds = state.seeds ∧
      mid.Good base := by
  have hcount := hformat.count_le
  have hmax : uint32Max = 2 ^ 32 - 1 := rfl
  have hvalid : (RequirementKey.root baseId).Valid base := ⟨hid, by omega⟩
  have hadd := @addRequirement_succeeds base state.requirements (.root baseId) origin
    hgood.consistent hvalid (Or.inr (hgood.consistent.exists_capacity hformat))
  have hok : ∃ mid, applyRequest base state (.need (.root baseId) origin) = .ok mid :=
    ⟨_, withRequirements_eq_ok.mpr ⟨_, Prod.ext rfl hadd, rfl⟩⟩
  obtain ⟨mid, hmid⟩ := hok
  obtain ⟨hseeds, _, hconsistent, _⟩ := applyRequest_need hgood hmid
  exact ⟨mid, hmid, hseeds, by rw [hseeds]; exact hgood.count_eq, hconsistent⟩

theorem isCandidate_iff {id : Nat} (hzero : id ≠ 0) (htype : btfTypeById object id = some type) :
    IsCandidate object id ↔ isSeedableKind type.kind = true ∧
      ¬(mchBtfTypeName object type = [] ∧ type.kind ≠ .enum ∧ type.kind ≠ .enum64) := by
  constructor
  · rintro ⟨_, type', htype', hseed, hlookup⟩
    cases htype.symm.trans htype'
    refine ⟨hseed, fun ⟨hname, hne, hne'⟩ => ?_⟩
    rcases hlookup with hnamed | ⟨henum, _⟩
    · exact hnamed hname
    · exact henum.elim hne hne'
  · rintro ⟨hseed, hnot⟩
    refine ⟨hzero, type, htype, hseed, ?_⟩
    by_cases hname : mchBtfTypeName object type = []
    · right
      refine ⟨?_, hname⟩
      by_contra henum
      exact hnot ⟨hname, not_or.mp henum⟩
    · exact Or.inl hname

/-- A type that is no candidate is passed over; a candidate fails, is passed over or gives
its one seed. -/
theorem seedObjectType_spec {index : BtfIndex} {path : CString} {state : SeedState × SeedStats}
    {id : Nat} (hindex : mchBtfIndexInit base = .ok index) (hformat : base.InFormat)
    (hrefs : object.RefsInRange) (hgood : state.1.Good base) (hzero : id ≠ 0)
    (htype : btfTypeById object id = some type) :
    (¬Succeeds (seedObjectType index object path state (type, id)) ∧
      (HasCause base object id ∨ EndsAtVoid base object id)) ∨
    ∃ final, seedObjectType index object path state (type, id) = .ok final ∧ final.1.Good base ∧
      ¬(HasCause base object id ∨ EndsAtVoid base object id) ∧
      ∀ baseId, mchTypeSetContains final.1.seeds baseId = true ↔
        mchTypeSetContains state.1.seeds baseId = true ∨ Seeded base object id baseId := by
  by_cases hcandidate : IsCandidate object id
  · obtain ⟨hseed, hnamed⟩ := (isCandidate_iff hzero htype).mp hcandidate
    obtain ⟨last, hends, hresult⟩ := @resolveObjectTypeFrom_ends base object index id path
      "object BTF seed".toList hindex hrefs 32 id none { id } (btfTypeById_eq_some_lt htype)
    have hguard : ¬isSeedableKind type.kind = false := by simp [hseed]
    have hfails : (∃ fault, resolveObjectTypeFrom index object id path "object BTF seed".toList true
        32 id none { id } = .error fault) →
          ¬Succeeds (seedObjectType index object path state (type, id)) := by
      rintro ⟨fault, hfault⟩ ⟨final, hfinal⟩
      simp only [seedObjectType, if_neg hguard, if_neg hnamed, resolveObjectTypeToBase, hfault] at hfinal
      cases hfinal
    have hfinds : ∀ baseId, Seeded base object id baseId ↔ last = .base baseId := by
      intro baseId
      constructor
      · exact fun hseeded => hends.unique hseeded.2
      · rintro rfl
        exact ⟨hcandidate, hends⟩
    have hcause : ∀ {other : ChainEnd}, last ≠ other → ¬ChainEnds base object 32 id other :=
      fun hne hother => hne (hends.unique hother)
    cases last with
    | ambiguous => exact Or.inl ⟨hfails hresult, Or.inl ⟨hcandidate, Or.inl hends⟩⟩
    | tooLong => exact Or.inl ⟨hfails hresult, Or.inl ⟨hcandidate, Or.inr hends⟩⟩
    | void => exact Or.inl ⟨hfails hresult, Or.inr ⟨hcandidate, hends⟩⟩
    | programLocal =>
        right
        refine ⟨(state.1, { state.2 with
          candidates := state.2.candidates + 1
          programLocalTypes := state.2.programLocalTypes + 1 }), ?_, hgood, ?_, fun baseId => ?_⟩
        · simp only [seedObjectType, if_neg hguard, if_neg hnamed, resolveObjectTypeToBase]
          rw [hresult]
          rfl
        · rintro (⟨_, hambiguous | htooLong⟩ | ⟨_, hvoid⟩)
          · exact hcause ChainEnd.noConfusion hambiguous
          · exact hcause ChainEnd.noConfusion htooLong
          · exact hcause ChainEnd.noConfusion hvoid
        · rw [hfinds]
          simp
    | base found =>
        right
        obtain ⟨mid, hrequire, hseeds, hmid⟩ := @requireTypeRoot_total base state.1 found (some
          { source := .objectBtf, objectPath := some path, detail := some "seed".toList })
          hformat hgood (hends.base_lt rfl)
        have hstep : ∃ stats, seedObjectType index object path state (type, id) =
            .ok ((addSeed mid found).1, stats) := by
          simp only [seedObjectType, if_neg hguard, if_neg hnamed, resolveObjectTypeToBase]
          rw [hresult]
          simp only [ok_bind, hrequire]
          exact ⟨_, rfl⟩
        obtain ⟨stats, hstep⟩ := hstep
        refine ⟨_, hstep, ?_, ?_, fun baseId => ?_⟩
        · exact ⟨(count_mchTypeSetAdd mid.seeds found).trans hmid.count_eq, hmid.consistent⟩
        · rintro (⟨_, hambiguous | htooLong⟩ | ⟨_, hvoid⟩)
          · exact hcause ChainEnd.noConfusion hambiguous
          · exact hcause ChainEnd.noConfusion htooLong
          · exact hcause ChainEnd.noConfusion hvoid
        · rw [hfinds]
          have hlt : found < mid.seeds.count := by
            rw [hmid.count_eq]
            exact hends.base_lt rfl
          have hadded := contains_mchTypeSetAdd mid.seeds found baseId
          rw [hseeds] at hadded hlt
          have heq : ChainEnd.base found = .base baseId ↔ baseId = found ∧ found < state.1.seeds.count := by
            rw [ChainEnd.base.injEq]
            exact ⟨fun heq => ⟨heq.symm, hlt⟩, fun heq => heq.1.symm⟩
          rw [heq]
          simpa [addSeed, hseeds] using hadded
  · right
    refine ⟨state, ?_, hgood, ?_, fun baseId => ?_⟩
    · have hskip := mt (isCandidate_iff hzero htype).mpr hcandidate
      rw [seedObjectType]
      simp only
      split
      next => rfl
      next hseed =>
        split
        next => rfl
        next hnamed => exact absurd ⟨by simpa using hseed, hnamed⟩ hskip
    · rintro (⟨hother, _⟩ | ⟨hother, _⟩)
      · exact hcandidate hother
      · exact hcandidate hother
    · constructor
      · exact Or.inl
      · rintro (hold | ⟨hother, _⟩)
        · exact hold
        · exact absurd hother hcandidate

/-! ## The loop -/

theorem seedObjectTypes_spec {index : BtfIndex} {path : CString}
    (hindex : mchBtfIndexInit base = .ok index) (hformat : base.InFormat)
    (hrefs : object.RefsInRange) {typed : List (BtfType × Nat)}
    (htyped : ∀ pair ∈ typed, pair.2 ≠ 0 ∧ btfTypeById object pair.2 = some pair.1) :
    ∀ {state : SeedState × SeedStats}, state.1.Good base →
      (¬Succeeds (typed.foldlM (seedObjectType index object path) state) ∧
        ∃ pair ∈ typed, HasCause base object pair.2 ∨ EndsAtVoid base object pair.2) ∨
      ∃ final, typed.foldlM (seedObjectType index object path) state = .ok final ∧
        (∀ pair ∈ typed, ¬(HasCause base object pair.2 ∨ EndsAtVoid base object pair.2)) ∧
        ∀ baseId, mchTypeSetContains final.1.seeds baseId = true ↔
          mchTypeSetContains state.1.seeds baseId = true ∨
            ∃ pair ∈ typed, Seeded base object pair.2 baseId := by
  induction typed with
  | nil =>
      intro state _
      right
      refine ⟨state, rfl, by simp, by simp⟩
  | cons pair rest ih =>
      intro state hgood
      obtain ⟨hzero, htype⟩ := htyped pair List.mem_cons_self
      have hrest := @ih (fun other hother => htyped other (List.mem_cons_of_mem pair hother))
      rcases @seedObjectType_spec base object pair.1 index path state pair.2 hindex hformat hrefs
        hgood hzero htype with ⟨hfails, hcause⟩ | ⟨mid, hstep, hmid, hnone, hseeds⟩
      · left
        refine ⟨?_, pair, List.mem_cons_self, hcause⟩
        rintro ⟨final, hfinal⟩
        obtain ⟨mid, hmid, _⟩ := foldlM_cons_eq_ok.mp hfinal
        exact hfails ⟨mid, hmid⟩
      · rcases hrest hmid with ⟨hfails, other, hother, hcause⟩ | ⟨final, hrun, hnone', hseeds'⟩
        · left
          refine ⟨?_, other, List.mem_cons_of_mem pair hother, hcause⟩
          rintro ⟨final, hfinal⟩
          obtain ⟨mid', hmid', hrun⟩ := foldlM_cons_eq_ok.mp hfinal
          cases hstep.symm.trans hmid'
          exact hfails ⟨final, hrun⟩
        · right
          refine ⟨final, foldlM_cons_eq_ok.mpr ⟨mid, hstep, hrun⟩, ?_, fun baseId => ?_⟩
          · intro other hother
            rcases List.mem_cons.mp hother with rfl | hother
            · exact hnone
            · exact hnone' other hother
          · rw [hseeds', hseeds, or_assoc, List.exists_mem_cons_iff]

theorem exists_typed_iff {P : Nat → Prop} (hP : ∀ id, P id → IsCandidate object id) :
    (∃ pair ∈ object.types.zipIdx 1, P pair.2) ↔ ∃ id, P id := by
  constructor
  · rintro ⟨pair, _, h⟩
    exact ⟨pair.2, h⟩
  · rintro ⟨id, h⟩
    obtain ⟨hzero, type, htype, _⟩ := hP id h
    obtain ⟨id, rfl⟩ := Nat.exists_eq_succ_of_ne_zero hzero
    exact ⟨(type, id + 1), List.mk_mem_zipIdx_iff_le_and_getElem?_sub.mpr ⟨by omega, htype⟩, h⟩

end

/-- The extraction fails exactly for the causes, and otherwise adds exactly the first unique
matches: this holds of an object unless a chain of it comes to void and no other chain is a
cause to fail. -/
theorem mchExtractObjectSeedsWithRequirements_exact_iff {base object : Btf} {index : BtfIndex}
    {path : CString} {state : SeedState} {stats : SeedStats}
    (hindex : mchBtfIndexInit base = .ok index) (hformat : base.InFormat)
    (hrefs : object.RefsInRange) (hgood : state.Good base) :
    ((¬Succeeds (mchExtractObjectSeedsWithRequirements index object path state stats) ↔
        ∃ id, HasCause base object id) ∧
      ∀ final, mchExtractObjectSeedsWithRequirements index object path state stats = .ok final →
        ∀ baseId, mchTypeSetContains final.1.seeds baseId = true ↔
          mchTypeSetContains state.seeds baseId = true ∨ ∃ id, Seeded base object id baseId) ↔
      ((∃ id, HasCause base object id) ∨ ∀ id, ¬EndsAtVoid base object id) := by
  have hspec := @seedObjectTypes_spec base object index path hindex hformat hrefs
    (object.types.zipIdx 1) (fun pair hpair => mem_types_zipIdx hpair) (state, stats) hgood
  have hcandidate : ∀ id, HasCause base object id ∨ EndsAtVoid base object id →
      IsCandidate object id := fun id h => h.elim And.left And.left
  rw [← mchExtractObjectSeedsWithRequirements] at hspec
  rcases hspec with ⟨hfails, hwhy⟩ | ⟨final, hrun, hnone, hseeds⟩
  · obtain ⟨id, hwhy⟩ := (exists_typed_iff hcandidate).mp hwhy
    constructor
    · rintro ⟨hexact, _⟩
      exact Or.inl (hexact.mp hfails)
    · intro hcond
      refine ⟨iff_of_true hfails ?_, fun final hfinal => absurd ⟨final, hfinal⟩ hfails⟩
      rcases hcond with hcause | hnoVoid
      · exact hcause
      · exact ⟨id, hwhy.resolve_right (hnoVoid id)⟩
  · have hnowhere : ∀ id, ¬(HasCause base object id ∨ EndsAtVoid base object id) := by
      intro id hid
      obtain ⟨pair, hpair, hwhy⟩ := (exists_typed_iff hcandidate).mpr ⟨id, hid⟩
      exact hnone pair hpair hwhy
    have hcond : ∀ id, ¬EndsAtVoid base object id := fun id hvoid => hnowhere id (Or.inr hvoid)
    refine iff_of_true ⟨iff_of_false (not_not.mpr ⟨final, hrun⟩) ?_, ?_⟩ (Or.inr hcond)
    · rintro ⟨id, hcause⟩
      exact hnowhere id (Or.inl hcause)
    · intro final' hrun' baseId
      cases hrun.symm.trans hrun'
      have hids := @exists_typed_iff object (fun id => Seeded base object id baseId) fun id h => h.1
      rw [hseeds, hids]

/-- `struct S`. -/
def oneStruct : Btf where
  types := [{ kind := .struct, nameOff := 1 }]
  strs := [nul, 'S', nul]

/-- `struct S` and `typedef const struct S T`. -/
def structBehindTypedef : Btf where
  types := [{ kind := .typedef, nameOff := 3, type := 2 }, { kind := .const, type := 3 },
    { kind := .struct, nameOff := 1 }]
  strs := [nul, 'S', nul, 'T', nul]

theorem oneStruct_named {object : Btf} {type : BtfType} {id : Nat}
    (h : BaseMatch oneStruct object type id) : id = 1 := by
  have hlt : id < 2 := h.lt
  have hzero : id ≠ 0 := by
    cases h with
    | named _ _ hnamed => exact hnamed.1
    | anonymous _ hzero _ _ => exact hzero
  omega

theorem oneStruct_noTypedef {object : Btf} {type : BtfType} {id : Nat}
    (hkind : isChainKind type.kind = true) : ¬BaseMatch oneStruct object type id := by
  intro h
  obtain rfl := oneStruct_named h
  cases h with
  | named _ _ hnamed =>
      obtain ⟨_, _, ⟨⟩, hsame, _⟩ := hnamed
      rw [← hsame] at hkind
      cases hkind
  | anonymous henum _ _ _ =>
      rcases henum.1 with henum | henum
      · rw [henum] at hkind
        cases hkind
      · rw [henum] at hkind
        cases hkind

/-- The base does not name `T`: the chains of all three types come to its `struct S`. -/
theorem structBehindTypedef_ends {id : Nat} (hzero : id ≠ 0) (hid : id < 4) :
    ChainEnds oneStruct structBehindTypedef 32 id (.base 1) := by
  have hstruct : ∀ depth, ChainEnds oneStruct structBehindTypedef (depth + 1) 3 (.base 1) := by
    intro depth
    have hmatch : BaseMatch oneStruct structBehindTypedef { kind := .struct, nameOff := 1 } 1 :=
      .named rfl (by decide) ⟨by decide, _, rfl, rfl, rfl⟩
    exact .found (by decide) rfl hmatch fun _ hother => oneStruct_named hother
  have hconst : ∀ depth, ChainEnds oneStruct structBehindTypedef (depth + 2) 2 (.base 1) :=
    fun depth => .step (by decide) rfl (fun _ => oneStruct_noTypedef rfl) rfl (hstruct depth)
  obtain rfl | rfl | rfl : id = 1 ∨ id = 2 ∨ id = 3 := by omega
  · exact .step (by decide) rfl (fun _ => oneStruct_noTypedef rfl) rfl (hconst 29)
  · exact hconst 30
  · exact hstruct 31

theorem mchExtractObjectSeedsWithRequirements_exact_iff_structBehindTypedef :
    ∃ index final, mchBtfIndexInit oneStruct = .ok index ∧
      mchExtractObjectSeedsWithRequirements index structBehindTypedef ['o']
        (initialSeedState oneStruct) {} = .ok final ∧
      ∀ baseId, mchTypeSetContains final.1.seeds baseId = true ↔ baseId = 1 := by
  have hends : ∀ id, IsCandidate structBehindTypedef id →
      ChainEnds oneStruct structBehindTypedef 32 id (.base 1) := by
    rintro id ⟨hzero, type, htype, _⟩
    exact structBehindTypedef_ends hzero (btfTypeById_eq_some_lt htype)
  have hnoVoid : ∀ id, ¬EndsAtVoid oneStruct structBehindTypedef id := by
    rintro id ⟨hcandidate, hvoid⟩
    cases (hends id hcandidate).unique hvoid
  obtain ⟨hfails, hseeds⟩ := (@mchExtractObjectSeedsWithRequirements_exact_iff oneStruct
    structBehindTypedef _ ['o'] (initialSeedState oneStruct) {} rfl
    (.of_types (by decide) (by decide)) (by decide) (initialSeedState_good oneStruct)).mpr
      (Or.inr hnoVoid)
  have hnone : ∀ id, ¬HasCause oneStruct structBehindTypedef id := by
    rintro id ⟨hcandidate, hambiguous | htooLong⟩
    · cases (hends id hcandidate).unique hambiguous
    · cases (hends id hcandidate).unique htooLong
  obtain ⟨final, hfinal⟩ := not_not.mp (mt hfails.mp (not_exists.mpr hnone))
  refine ⟨_, final, rfl, hfinal, fun baseId => ?_⟩
  rw [hseeds final hfinal]
  constructor
  · rintro (hold | ⟨id, hcandidate, hseeded⟩)
    · rw [initialSeedState, contains_mchTypeSetInit] at hold
      cases hold
    · cases (hends id hcandidate).unique hseeded
      rfl
  · rintro rfl
    have htypedef : IsCandidate structBehindTypedef 1 :=
      ⟨by decide, _, rfl, rfl, Or.inl (by decide)⟩
    exact Or.inr ⟨1, htypedef, hends 1 htypedef⟩

/-- `typedef void foo_t;`. -/
def voidTypedef : Btf where
  types := [{ kind := .typedef, nameOff := 1, type := 0 }]
  strs := [nul, 'f', 'o', 'o', '_', 't', nul]

theorem voidTypedef_ends : ChainEnds oneStruct voidTypedef 32 1 .void := by
  have hnone : ∀ id, ¬BaseMatch oneStruct voidTypedef { kind := .typedef, nameOff := 1, type := 0 } id := by
    intro id hmatch
    cases hmatch with
    | named _ _ hnamed =>
        obtain ⟨hzero, type, htype, hkind, _⟩ := hnamed
        have hlt : id < 2 := btfTypeById_eq_some_lt htype
        obtain rfl : id = 1 := by omega
        cases htype
        cases hkind
    | anonymous henum _ _ _ =>
        rcases henum.1 with hkind | hkind
        · cases hkind
        · cases hkind
  exact .step (by decide) rfl hnone rfl .void

/-- A name for `void` that the base does not have is an error, not a program-local type. -/
theorem voidTypedef_fails :
    voidTypedef.RefsInRange ∧ (∀ id, ¬HasCause oneStruct voidTypedef id) ∧
      ∃ index, mchBtfIndexInit oneStruct = .ok index ∧
        ¬Succeeds (mchExtractObjectSeedsWithRequirements index voidTypedef ['o']
          (initialSeedState oneStruct) {}) := by
  refine ⟨by decide, ?_, _, rfl, ?_⟩
  · rintro id ⟨⟨hzero, type, htype, _⟩, hends⟩
    have hlt : id < 2 := btfTypeById_eq_some_lt htype
    obtain rfl : id = 1 := by omega
    rcases hends with hends | hends
    · cases voidTypedef_ends.unique hends
    · cases voidTypedef_ends.unique hends
  · rintro ⟨final, hfinal⟩
    cases hfinal

end MinCorehdr
