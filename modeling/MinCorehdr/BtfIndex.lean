import MinCorehdr.Error

/-!
# The base BTF index

A chained hash table from `(name, kind)` to a type id.  An entry that is met a
second time is marked ambiguous and keeps no id.
-/

namespace MinCorehdr

/-- `MCH_BTF_INDEX_NONE`, the end of a chain. -/
def indexNone : Nat := 2 ^ 32 - 1

structure BtfIndexEntry where
  name : CString
  typeId : Nat
  next : Nat
  kind : Kind
  ambiguous : Bool
  deriving DecidableEq, Repr

structure BtfIndex where
  btf : Btf
  buckets : List Nat
  entries : List BtfIndexEntry
  bucketCount : Nat
  deriving DecidableEq, Repr

def isIndexedKind (kind : Kind) : Bool :=
  match kind with
  | .struct | .union | .enum | .enum64 | .typedef | .fwd => true
  | _ => false

/-- The loop `while (result < value && result <= SIZE_MAX / 2) result *= 2`; 64
doublings reach the end of a `size_t`. -/
def nextPowerOfTwoFrom (value : Nat) : Nat → Nat → Nat
  | 0, result => result
  | fuel + 1, result =>
      if result < value ∧ result ≤ (2 ^ 64 - 1) / 2 then nextPowerOfTwoFrom value fuel (result * 2)
      else result

def nextPowerOfTwo (value : Nat) : Nat :=
  let result := nextPowerOfTwoFrom value 64 1
  if result < value then value else result

def hashByte (hash : UInt32) (byte : UInt32) : UInt32 := (hash ^^^ byte) * 16777619

def hashNameKind (name : CString) (kind : Kind) : UInt32 :=
  name.foldl (fun hash c => hashByte hash (UInt32.ofNat c.toNat))
    (hashByte 2166136261 (UInt32.ofNat kind.code &&& 0xff))

def bucketOf (index : BtfIndex) (name : CString) (kind : Kind) : Nat :=
  (hashNameKind name kind &&& UInt32.ofNat (index.bucketCount - 1)).toNat

/-- Follow a chain to the first entry for `(name, kind)`. -/
def findEntry (entries : List BtfIndexEntry) (name : CString) (kind : Kind) :
    Nat → Nat → Option Nat
  | 0, _ => none
  | fuel + 1, entryId =>
      if entryId = indexNone then none
      else
        match entries[entryId]? with
        | none => none
        | some entry =>
            if entry.kind = kind ∧ entry.name = name then some entryId
            else findEntry entries name kind fuel entry.next

def indexInsert (index : BtfIndex) (name : CString) (kind : Kind) (typeId : Nat) : BtfIndex :=
  let bucket := bucketOf index name kind
  let head := index.buckets.getD bucket indexNone
  match findEntry index.entries name kind (index.entries.length + 1) head with
  | some entryId =>
      { index with
        entries := index.entries.modify entryId
          (fun entry => { entry with ambiguous := true, typeId := 0 }) }
  | none =>
      { index with
        entries := index.entries ++
          [{ name, typeId, next := head, kind, ambiguous := false }]
        buckets := index.buckets.set bucket index.entries.length }

/-- The body of the loop of `mch_btf_index_init`. -/
def indexType (index : BtfIndex) (typed : BtfType × Nat) : BtfIndex :=
  let (type, id) := typed
  if isIndexedKind type.kind = false then index
  else
    let name := mchBtfTypeName index.btf type
    if name = [] then index else indexInsert index name type.kind id

def mchBtfIndexInit (btf : Btf) : Except Fault BtfIndex :=
  let typeCount := btfTypeCnt btf
  let entryCapacity := if 1 < typeCount then typeCount - 1 else 1
  if 2 ^ 32 - 1 < entryCapacity ∨ (2 ^ 64 - 1) / 2 < entryCapacity then
    fail "base BTF type index is too large".toList
  else
    let bucketCount := nextPowerOfTwo (entryCapacity * 2)
    if 2 ^ 32 - 1 < bucketCount then
      fail "base BTF type index is too large".toList
    else
      .ok ((btf.types.zipIdx 1).foldl indexType
        { btf, buckets := List.replicate bucketCount indexNone, entries := [], bucketCount })

/-- The `0`, `1` and `-1` of a lookup. -/
inductive Lookup
  | missing
  | unique (typeId : Nat)
  | ambiguous
  deriving DecidableEq, Repr

def mchBtfIndexLookup (index : BtfIndex) (name : CString) (kind : Kind) : Lookup :=
  if index.bucketCount = 0 ∨ name = [] then .missing
  else
    let head := index.buckets.getD (bucketOf index name kind) indexNone
    match findEntry index.entries name kind (index.entries.length + 1) head with
    | none => .missing
    | some entryId =>
        match index.entries[entryId]? with
        | none => .missing
        | some entry => if entry.ambiguous then .ambiguous else .unique entry.typeId

/-! ## Anonymous enums -/

/-- Two names that are both present and equal. -/
def sameName (left right : Option CString) : Bool :=
  match left, right with
  | some left, some right => decide (left = right)
  | _, _ => false

def enumValueMatches (leftBtf : Btf) (leftType : BtfType) (rightBtf : Btf) (rightType : BtfType)
    (i : Nat) : Bool :=
  if leftType.kind = .enum then
    match leftType.enums[i]?, rightType.enums[i]? with
    | some left, some right =>
        sameName (btfNameByOffset leftBtf left.nameOff) (btfNameByOffset rightBtf right.nameOff) &&
          decide (left.val = right.val)
    | _, _ => false
  else
    match leftType.enum64s[i]?, rightType.enum64s[i]? with
    | some left, some right =>
        sameName (btfNameByOffset leftBtf left.nameOff) (btfNameByOffset rightBtf right.nameOff) &&
          decide (left.valLo32 = right.valLo32) && decide (left.valHi32 = right.valHi32)
    | _, _ => false

def anonymousEnumMatches (baseBtf : Btf) (baseType : BtfType) (objectBtf : Btf)
    (objectType : BtfType) : Bool :=
  if baseType.kind ≠ objectType.kind ∨ baseType.size ≠ objectType.size ∨
      baseType.kflag ≠ objectType.kflag ∨ baseType.vlen ≠ objectType.vlen ∨
      mchBtfTypeName baseBtf baseType ≠ [] then
    false
  else
    (List.range objectType.vlen).all (enumValueMatches baseBtf baseType objectBtf objectType)

/-- The search over all base types: the id found so far, if any. -/
def findAnonymousEnum (baseBtf objectBtf : Btf) (objectType : BtfType) :
    List (BtfType × Nat) → Option Nat → Lookup
  | [], none => .missing
  | [], some found => .unique found
  | (baseType, id) :: rest, found =>
      if anonymousEnumMatches baseBtf baseType objectBtf objectType = false then
        findAnonymousEnum baseBtf objectBtf objectType rest found
      else
        match found with
        | none => findAnonymousEnum baseBtf objectBtf objectType rest (some id)
        | some _ => .ambiguous

def mchBtfIndexLookupAnonymousEnum (index : BtfIndex) (objectBtf : Btf) (objectType : BtfType) :
    Lookup :=
  if (objectType.kind ≠ .enum ∧ objectType.kind ≠ .enum64) ∨
      mchBtfTypeName objectBtf objectType ≠ [] then
    .missing
  else
    findAnonymousEnum index.btf objectBtf objectType (index.btf.types.zipIdx 1) none

/-! ## What a lookup answers -/

/-- The type `id` of `btf` has this name and kind. -/
def HasNamed (btf : Btf) (id : Nat) (name : CString) (kind : Kind) : Prop :=
  id ≠ 0 ∧ ∃ type, btfTypeById btf id = some type ∧ type.kind = kind ∧
    mchBtfTypeName btf type = name

/-- The entries that are not ambiguous name a type of the base. -/
structure BtfIndex.Sound (btf : Btf) (index : BtfIndex) : Prop where
  btf_eq : index.btf = btf
  named : ∀ entry ∈ index.entries, entry.ambiguous = false →
    HasNamed btf entry.typeId entry.name entry.kind

theorem indexInsert_sound {btf : Btf} {index : BtfIndex} {name : CString} {kind : Kind} {id : Nat}
    (h : index.Sound btf) (hid : HasNamed btf id name kind) :
    (indexInsert index name kind id).Sound btf := by
  unfold indexInsert
  simp only
  split
  next entryId _ =>
    constructor
    · exact h.btf_eq
    · intro entry hentry hclear
      obtain ⟨i, hi⟩ := List.mem_iff_getElem?.mp hentry
      rw [List.getElem?_modify] at hi
      obtain ⟨old, hold, heq⟩ := Option.map_eq_some_iff.mp hi
      split at heq
      next =>
        rw [← heq] at hclear
        cases hclear
      next =>
        cases heq
        exact h.named entry (List.mem_of_getElem? hold) hclear
  next =>
    constructor
    · exact h.btf_eq
    · intro entry hentry hclear
      rcases List.mem_append.mp hentry with hold | hnew
      · exact h.named entry hold hclear
      · rw [List.mem_singleton.mp hnew]
        exact hid

theorem indexType_sound {btf : Btf} {index : BtfIndex} {type : BtfType} {id : Nat}
    (h : index.Sound btf) (hzero : id ≠ 0) (htype : btfTypeById btf id = some type) :
    (indexType index (type, id)).Sound btf := by
  unfold indexType
  simp only
  split
  · exact h
  · split
    · exact h
    · apply indexInsert_sound h
      exact ⟨hzero, type, htype, rfl, by rw [h.btf_eq]⟩

/-- The pairs of a type and its id. -/
theorem mem_types_zipIdx {btf : Btf} {type : BtfType} {id : Nat}
    (h : (type, id) ∈ btf.types.zipIdx 1) : id ≠ 0 ∧ btfTypeById btf id = some type := by
  obtain ⟨hle, hget⟩ := List.mk_mem_zipIdx_iff_le_and_getElem?_sub.mp h
  cases id with
  | zero => omega
  | succ id => exact ⟨by omega, hget⟩

theorem mchBtfIndexInit_sound {btf : Btf} {index : BtfIndex}
    (h : mchBtfIndexInit btf = .ok index) : index.Sound btf := by
  have hfold : ∀ (typed : List (BtfType × Nat)) (start : BtfIndex), start.Sound btf →
      (∀ pair ∈ typed, pair.2 ≠ 0 ∧ btfTypeById btf pair.2 = some pair.1) →
      (typed.foldl indexType start).Sound btf := by
    intro typed
    induction typed with
    | nil =>
        intro start hstart _
        exact hstart
    | cons pair rest ih =>
        intro start hstart hpairs
        obtain ⟨hzero, htype⟩ := hpairs pair List.mem_cons_self
        exact ih _ (indexType_sound hstart hzero htype)
          (fun other hother => hpairs other (List.mem_cons_of_mem pair hother))
  unfold mchBtfIndexInit at h
  simp only at h
  generalize (if 1 < btfTypeCnt btf then btfTypeCnt btf - 1 else 1) = capacity at h
  split at h
  · cases h
  · split at h
    · cases h
    · cases h
      apply hfold
      · exact ⟨rfl, by simp⟩
      · exact fun pair hpair => mem_types_zipIdx hpair

theorem findEntry_eq_some {entries : List BtfIndexEntry} {name : CString} {kind : Kind}
    {fuel : Nat} : ∀ {start entryId : Nat}, findEntry entries name kind fuel start = some entryId →
      ∃ entry, entries[entryId]? = some entry ∧ entry.kind = kind ∧ entry.name = name := by
  induction fuel with
  | zero =>
      intro start entryId h
      cases h
  | succ fuel ih =>
      intro start entryId h
      rw [findEntry] at h
      split at h
      next => cases h
      next =>
        split at h
        next => cases h
        next entry hentry =>
          split at h
          next hmatch =>
            cases h
            exact ⟨entry, hentry, hmatch⟩
          next => exact ih h

theorem mchBtfIndexLookup_unique {btf : Btf} {index : BtfIndex} {name : CString} {kind : Kind}
    {id : Nat} (hindex : index.Sound btf) (h : mchBtfIndexLookup index name kind = .unique id) :
    HasNamed btf id name kind := by
  unfold mchBtfIndexLookup at h
  simp only at h
  split at h
  next => cases h
  next =>
    split at h
    next => cases h
    next entryId hfind =>
      obtain ⟨entry, hentry, hkind, hname⟩ := findEntry_eq_some hfind
      rw [hentry] at h
      simp only at h
      split at h
      next => cases h
      next hclear =>
        cases h
        have hnamed := hindex.named entry (List.mem_of_getElem? hentry) (by simpa using hclear)
        rw [hkind, hname] at hnamed
        exact hnamed

theorem findAnonymousEnum_unique {base object : Btf} {type : BtfType} {id : Nat}
    {typed : List (BtfType × Nat)} : ∀ {found : Option Nat},
      findAnonymousEnum base object type typed found = .unique id →
        found = some id ∨ ∃ baseType, (baseType, id) ∈ typed ∧ baseType.kind = type.kind := by
  induction typed with
  | nil =>
      intro found h
      cases found with
      | none => cases h
      | some other =>
          cases h
          exact Or.inl rfl
  | cons pair rest ih =>
      obtain ⟨baseType, baseId⟩ := pair
      have htail : ∀ {found : Option Nat}, findAnonymousEnum base object type rest found =
          .unique id → found = some id ∨
            ∃ other, (other, id) ∈ (baseType, baseId) :: rest ∧ other.kind = type.kind := by
        intro found h
        rcases ih h with hfound | ⟨other, hmem, hkind⟩
        · exact Or.inl hfound
        · exact Or.inr ⟨other, List.mem_cons_of_mem _ hmem, hkind⟩
      intro found h
      simp only [findAnonymousEnum] at h
      split at h
      next => exact htail h
      next hmatch =>
        have hkind : baseType.kind = type.kind := by
          by_contra hne
          exact hmatch (by simp [anonymousEnumMatches, hne])
        cases found with
        | none =>
            rcases htail h with hfound | hother
            · cases hfound
              exact Or.inr ⟨baseType, List.mem_cons_self, hkind⟩
            · exact Or.inr hother
        | some other => cases h

/-- The types a root requirement can be about. -/
def IsRootType (btf : Btf) (id : Nat) : Prop :=
  id ≠ 0 ∧ ∃ type, btfTypeById btf id = some type ∧
    (isIndexedKind type.kind = true ∧ mchBtfTypeName btf type ≠ [] ∨
      type.kind = .enum ∨ type.kind = .enum64)

theorem HasNamed.isRootType {btf : Btf} {id : Nat} {name : CString} {kind : Kind}
    (h : HasNamed btf id name kind) (hkind : isIndexedKind kind = true) (hname : name ≠ []) :
    IsRootType btf id := by
  obtain ⟨hzero, type, htype, rfl, rfl⟩ := h
  exact ⟨hzero, type, htype, Or.inl ⟨hkind, hname⟩⟩

theorem mchBtfIndexLookupAnonymousEnum_unique {base object : Btf} {index : BtfIndex}
    {type : BtfType} {id : Nat} (hindex : index.Sound base)
    (h : mchBtfIndexLookupAnonymousEnum index object type = .unique id) : IsRootType base id := by
  unfold mchBtfIndexLookupAnonymousEnum at h
  split at h
  next => cases h
  next hkind =>
    rw [hindex.btf_eq] at h
    rcases findAnonymousEnum_unique h with hnone | ⟨baseType, hmem, heq⟩
    · cases hnone
    · obtain ⟨hzero, htype⟩ := mem_types_zipIdx hmem
      refine ⟨hzero, baseType, htype, Or.inr ?_⟩
      rw [heq]
      by_contra hnot
      exact hkind (Or.inl (not_or.mp hnot))

end MinCorehdr
