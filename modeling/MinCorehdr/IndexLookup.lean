import MinCorehdr.BtfIndex
import MinCorehdr.Support.Chain
import Mathlib.Data.List.Find

/-!
# The index against a linear scan

`linearLookup` is what a scan over all types would answer.  The invariant over
the inserts, `BtfIndex.Represents`, keeps one descending chain a bucket and says
that a lookup answers as the scan over the types indexed so far.
-/

namespace MinCorehdr

/-- The ids of the types with this name and kind, in table order. -/
def namedIds (btf : Btf) (typed : List (BtfType × Nat)) (name : CString) (kind : Kind) :
    List Nat :=
  (typed.filter (fun pair => pair.1.kind = kind ∧ mchBtfTypeName btf pair.1 = name)).map Prod.snd

/-- One match is the answer, several are none. -/
def linearLookup : List Nat → Lookup
  | [] => .missing
  | [id] => .unique id
  | _ :: _ :: _ => .ambiguous

/-- The capacity of the entry array, `type_count > 1 ? type_count - 1 : 1`. -/
def entryCapacity (btf : Btf) : Nat :=
  if 1 < btfTypeCnt btf then btfTypeCnt btf - 1 else 1

/-- The index before the first insert. -/
def BtfIndex.empty (btf : Btf) (bucketCount : Nat) : BtfIndex :=
  { btf, buckets := List.replicate bucketCount indexNone, entries := [], bucketCount }

/-- The links between the entries. -/
def BtfIndex.links (index : BtfIndex) : List Nat := index.entries.map BtfIndexEntry.next

/-- The first entry of a bucket. -/
def BtfIndex.head (index : BtfIndex) (bucket : Nat) : Nat := index.buckets.getD bucket indexNone

/-- The walk from the head of a bucket meets these entries and ends. -/
def BtfIndex.Walk (index : BtfIndex) (bucket : Nat) (cells : List Nat) : Prop :=
  ChainFrom index.links indexNone (index.head bucket) cells ∧ cells.Pairwise (· > ·)

/-! ## The walk -/

@[simp] theorem BtfIndex.length_links (index : BtfIndex) :
    index.links.length = index.entries.length := List.length_map _

theorem bucketOf_lt {index : BtfIndex} (hpos : 0 < index.bucketCount)
    (hle : index.bucketCount < 2 ^ 32) (name : CString) (kind : Kind) :
    bucketOf index name kind < index.bucketCount := by
  have hmask : (UInt32.ofNat (index.bucketCount - 1)).toNat = index.bucketCount - 1 := by
    rw [UInt32.toNat_ofNat']
    exact Nat.mod_eq_of_lt (by omega)
  have hand : bucketOf index name kind ≤ index.bucketCount - 1 := by
    unfold bucketOf
    rw [UInt32.toNat_and, hmask]
    exact Nat.and_le_right
  omega

/-- The cell holds an entry with this name and kind. -/
def carries (entries : List BtfIndexEntry) (name : CString) (kind : Kind) (cell : Nat) : Bool :=
  entries[cell]?.any (fun entry => entry.kind = kind ∧ entry.name = name)

theorem carries_of_getElem? {entries : List BtfIndexEntry} {cell : Nat} {entry : BtfIndexEntry}
    (h : entries[cell]? = some entry) (name : CString) (kind : Kind) :
    carries entries name kind cell = decide (entry.kind = kind ∧ entry.name = name) := by
  rw [carries, h, Option.any_some]

theorem exists_of_carries {entries : List BtfIndexEntry} {cell : Nat} {name : CString} {kind : Kind}
    (h : carries entries name kind cell = true) :
    ∃ entry, entries[cell]? = some entry ∧ entry.kind = kind ∧ entry.name = name := by
  rw [carries, Option.any_eq_true] at h
  obtain ⟨entry, hentry, hkey⟩ := h
  exact ⟨entry, hentry, of_decide_eq_true hkey⟩

/-- The walk stops at the first entry with the key, or ends without one. -/
theorem findEntry_of_chain {entries : List BtfIndexEntry} {name : CString} {kind : Kind}
    {start : Nat} {cells : List Nat}
    (h : ChainFrom (entries.map BtfIndexEntry.next) indexNone start cells) :
    ∀ fuel, cells.length < fuel →
      findEntry entries name kind fuel start = cells.find? (carries entries name kind) := by
  induction h with
  | done =>
      intro fuel hfuel
      obtain ⟨fuel, rfl⟩ := Nat.exists_eq_succ_of_ne_zero (Nat.ne_of_gt hfuel)
      simp [findEntry]
  | @link cell after cells hstop hnext _ ih =>
      intro fuel hfuel
      rw [List.length_cons] at hfuel
      obtain ⟨fuel, rfl⟩ := Nat.exists_eq_succ_of_ne_zero (show fuel ≠ 0 by omega)
      rw [List.getElem?_map] at hnext
      obtain ⟨entry, hentry, hafter⟩ := Option.map_eq_some_iff.mp hnext
      rw [findEntry, if_neg hstop, hentry, List.find?_cons, carries_of_getElem? hentry]
      by_cases hkey : entry.kind = kind ∧ entry.name = name
      · rw [decide_eq_true hkey]
        exact if_pos hkey
      · rw [decide_eq_false hkey]
        simp only [if_neg hkey]
        rw [hafter]
        exact ih fuel (by omega)

/-- What the entry of a cell answers. -/
def answerOf (entries : List BtfIndexEntry) : Option Nat → Lookup
  | none => .missing
  | some cell =>
      match entries[cell]? with
      | none => .missing
      | some entry => if entry.ambiguous then .ambiguous else .unique entry.typeId

theorem BtfIndex.Walk.find {index : BtfIndex} {bucket : Nat} {cells : List Nat}
    (h : index.Walk bucket cells) (name : CString) (kind : Kind) :
    findEntry index.entries name kind (index.entries.length + 1) (index.head bucket) =
      cells.find? (carries index.entries name kind) := by
  have hlen := h.1.length_le h.2
  rw [BtfIndex.length_links] at hlen
  exact findEntry_of_chain h.1 _ (by omega)

theorem BtfIndex.Walk.lookup {index : BtfIndex} {name : CString} {kind : Kind} {cells : List Nat}
    (h : index.Walk (bucketOf index name kind) cells) (hpos : 0 < index.bucketCount)
    (hname : name ≠ []) :
    mchBtfIndexLookup index name kind =
      answerOf index.entries (cells.find? (carries index.entries name kind)) := by
  have hfind := h.find name kind
  have hguard : ¬(index.bucketCount = 0 ∨ name = []) := by
    rintro (hzero | hempty)
    · omega
    · exact hname hempty
  unfold mchBtfIndexLookup
  rw [if_neg hguard]
  simp only
  rw [BtfIndex.head] at hfind
  rw [hfind]
  rfl

/-! ## One insert -/

/-- Walks for different keys find different entries. -/
theorem find?_carries_ne {entries : List BtfIndexEntry} {name name' : CString} {kind kind' : Kind}
    {cells cells' : List Nat} {cell cell' : Nat}
    (h : cells.find? (carries entries name kind) = some cell)
    (h' : cells'.find? (carries entries name' kind') = some cell')
    (hkey : ¬(kind = kind' ∧ name = name')) : cell ≠ cell' := by
  obtain ⟨entry, hentry, hkind, hname⟩ := exists_of_carries (List.find?_some h)
  obtain ⟨entry', hentry', hkind', hname'⟩ := exists_of_carries (List.find?_some h')
  rintro rfl
  rw [hentry] at hentry'
  cases hentry'
  exact hkey ⟨hkind.symm.trans hkind', hname.symm.trans hname'⟩

/-- The entry in front of a new one for the key, `buckets[bucket]`. -/
def BtfIndex.headFor (index : BtfIndex) (name : CString) (kind : Kind) : Nat :=
  index.head (bucketOf index name kind)

def markAmbiguous (entries : List BtfIndexEntry) (cell : Nat) : List BtfIndexEntry :=
  entries.modify cell (fun entry => { entry with ambiguous := true, typeId := 0 })

/-- The branch of `index_insert` for a key that has an entry. -/
def BtfIndex.mark (index : BtfIndex) (cell : Nat) : BtfIndex :=
  { index with entries := markAmbiguous index.entries cell }

/-- The branch of `index_insert` for a new key. -/
def BtfIndex.push (index : BtfIndex) (name : CString) (kind : Kind) (typeId : Nat) : BtfIndex :=
  { index with
    entries := index.entries ++
      [{ name, typeId, next := index.headFor name kind, kind, ambiguous := false }]
    buckets := index.buckets.set (bucketOf index name kind) index.entries.length }

theorem indexInsert_eq (index : BtfIndex) (name : CString) (kind : Kind) (typeId : Nat) :
    indexInsert index name kind typeId =
      match findEntry index.entries name kind (index.entries.length + 1)
        (index.headFor name kind) with
      | some cell => index.mark cell
      | none => index.push name kind typeId := rfl

theorem getElem?_markAmbiguous (entries : List BtfIndexEntry) (cell other : Nat) :
    (markAmbiguous entries cell)[other]? = entries[other]?.map
      (fun entry => if cell = other then { entry with ambiguous := true, typeId := 0 }
        else entry) := by
  unfold markAmbiguous
  rw [List.getElem?_modify]
  split
  next => rfl
  next =>
    cases entries[other]? <;> rfl

theorem carries_markAmbiguous (entries : List BtfIndexEntry) (cell : Nat) (name : CString)
    (kind : Kind) : carries (markAmbiguous entries cell) name kind = carries entries name kind := by
  funext other
  rw [carries, carries, getElem?_markAmbiguous]
  cases hentry : entries[other]? with
  | none => rfl
  | some entry =>
      simp only [Option.map_some, Option.any_some]
      split <;> rfl

theorem links_markAmbiguous (entries : List BtfIndexEntry) (cell : Nat) :
    (markAmbiguous entries cell).map BtfIndexEntry.next = entries.map BtfIndexEntry.next := by
  apply List.ext_getElem?
  intro other
  rw [List.getElem?_map, List.getElem?_map, getElem?_markAmbiguous, Option.map_map]
  cases entries[other]? with
  | none => rfl
  | some entry =>
      simp only [Option.map_some, Function.comp_apply]
      split <;> rfl

/-- The entries behind the old ones do not matter to a walk through old ones. -/
theorem find?_carries_append {entries : List BtfIndexEntry} {cells : List Nat}
    (h : ∀ cell ∈ cells, cell < entries.length) (more : List BtfIndexEntry) (name : CString)
    (kind : Kind) : cells.find? (carries (entries ++ more) name kind) =
      cells.find? (carries entries name kind) := by
  apply List.find?_congr
  intro cell hcell
  rw [carries, carries, List.getElem?_append_left (h cell hcell)]

theorem answerOf_append {entries : List BtfIndexEntry} {cells : List Nat}
    (h : ∀ cell ∈ cells, cell < entries.length) (more : List BtfIndexEntry)
    (p : Nat → Bool) : answerOf (entries ++ more) (cells.find? p) =
      answerOf entries (cells.find? p) := by
  cases hfind : cells.find? p with
  | none => rfl
  | some cell =>
      have hcell := h cell (List.mem_of_find?_eq_some hfind)
      simp only [answerOf]
      rw [List.getElem?_append_left hcell]

/-- The types indexed so far are looked up as by a scan. -/
structure BtfIndex.Represents (btf : Btf) (index : BtfIndex) (typed : List (BtfType × Nat)) :
    Prop where
  btf_eq : index.btf = btf
  buckets_length : index.buckets.length = index.bucketCount
  count_pos : 0 < index.bucketCount
  count_lt : index.bucketCount < 2 ^ 32
  entries_le : index.entries.length ≤ typed.length
  walks : ∀ bucket < index.bucketCount, ∃ cells, index.Walk bucket cells
  answers : ∀ name kind, name ≠ [] → isIndexedKind kind = true →
    mchBtfIndexLookup index name kind = linearLookup (namedIds btf typed name kind)

theorem namedIds_concat (btf : Btf) (typed : List (BtfType × Nat)) (type : BtfType) (id : Nat)
    (name : CString) (kind : Kind) :
    namedIds btf (typed ++ [(type, id)]) name kind = namedIds btf typed name kind ++
      (if type.kind = kind ∧ mchBtfTypeName btf type = name then [id] else []) := by
  unfold namedIds
  rw [List.filter_append, List.map_append]
  congr 1
  by_cases hkey : type.kind = kind ∧ mchBtfTypeName btf type = name
  · simp [hkey]
  · simp [hkey]

theorem linearLookup_eq_missing_iff {ids : List Nat} :
    linearLookup ids = .missing ↔ ∀ id, id ∉ ids := by
  cases ids with
  | nil => simp [linearLookup]
  | cons id rest =>
      have hmem : ¬∀ other, other ∉ id :: rest := fun hnone => hnone id List.mem_cons_self
      cases rest with
      | nil => simp [linearLookup]
      | cons other rest => exact iff_of_false (by simp [linearLookup]) hmem

theorem linearLookup_eq_unique_iff {ids : List Nat} (hnodup : ids.Nodup) {id : Nat} :
    linearLookup ids = .unique id ↔ id ∈ ids ∧ ∀ other ∈ ids, other = id := by
  cases ids with
  | nil => simp [linearLookup]
  | cons first rest =>
      cases rest with
      | nil =>
          simp only [linearLookup, Lookup.unique.injEq, List.mem_singleton, forall_eq]
          exact ⟨fun heq => ⟨heq.symm, heq⟩, fun hboth => hboth.2⟩
      | cons second rest =>
          have hne : first ≠ second := List.ne_of_not_mem_cons (List.nodup_cons.mp hnodup).1
          apply iff_of_false
          · simp [linearLookup]
          · rintro ⟨_, hall⟩
            have hfirst := hall first (by simp)
            have hsecond := hall second (by simp)
            exact hne (hfirst.trans hsecond.symm)

theorem linearLookup_eq_ambiguous_iff {ids : List Nat} (hnodup : ids.Nodup) :
    linearLookup ids = .ambiguous ↔ ∃ id ∈ ids, ∃ other ∈ ids, id ≠ other := by
  cases ids with
  | nil => simp [linearLookup]
  | cons first rest =>
      cases rest with
      | nil => simp [linearLookup]
      | cons second rest =>
          have hne : first ≠ second := List.ne_of_not_mem_cons (List.nodup_cons.mp hnodup).1
          apply iff_of_true
          · rfl
          · exact ⟨first, by simp, second, by simp, hne⟩

theorem linearLookup_eq_missing {ids : List Nat} (h : linearLookup ids = .missing) : ids = [] := by
  cases ids with
  | nil => rfl
  | cons id rest =>
      cases rest with
      | nil => cases h
      | cons other rest => cases h

theorem linearLookup_concat {ids : List Nat} (h : ids ≠ []) (id : Nat) :
    linearLookup (ids ++ [id]) = .ambiguous := by
  cases ids with
  | nil => exact absurd rfl h
  | cons first rest =>
      cases rest with
      | nil => rfl
      | cons other rest => rfl

section Insert

variable {btf : Btf} {index : BtfIndex} {typed : List (BtfType × Nat)}

theorem getElem?_push (index : BtfIndex) (name : CString) (kind : Kind) (id : Nat) :
    (index.push name kind id).entries[index.entries.length]? = some {
      name, typeId := id, next := index.headFor name kind, kind, ambiguous := false } :=
  List.getElem?_concat_length

theorem BtfIndex.Walk.mark {bucket cell : Nat} {cells : List Nat} (h : index.Walk bucket cells) :
    (index.mark cell).Walk bucket cells := by
  unfold BtfIndex.Walk BtfIndex.links BtfIndex.mark
  rw [links_markAmbiguous]
  exact h

@[simp] theorem BtfIndex.links_push (name : CString) (kind : Kind) (id : Nat) :
    (index.push name kind id).links = index.links ++ [index.headFor name kind] := by
  simp [BtfIndex.links, BtfIndex.push]

/-- The new entry leads its bucket. -/
theorem BtfIndex.Walk.push_home {name : CString} {kind : Kind} {id : Nat} {cells : List Nat}
    (h : index.Walk (bucketOf index name kind) cells)
    (hbucket : bucketOf index name kind < index.buckets.length)
    (hroom : index.entries.length ≠ indexNone) :
    (index.push name kind id).Walk (bucketOf index name kind) (index.entries.length :: cells) := by
  have hhead : (index.push name kind id).head (bucketOf index name kind) =
      index.entries.length := by
    simp [BtfIndex.head, BtfIndex.push, List.getD_eq_getElem?_getD, List.getElem?_set_self hbucket]
  unfold BtfIndex.Walk
  rw [hhead, BtfIndex.links_push, ← BtfIndex.length_links]
  rw [← BtfIndex.length_links] at hroom
  exact ⟨h.1.push hroom, h.1.push_descending h.2⟩

theorem BtfIndex.Walk.push_other {name : CString} {kind : Kind} {id bucket : Nat} {cells : List Nat}
    (h : index.Walk bucket cells) (hne : bucketOf index name kind ≠ bucket) :
    (index.push name kind id).Walk bucket cells := by
  have hhead : (index.push name kind id).head bucket = index.head bucket := by
    simp [BtfIndex.head, BtfIndex.push, List.getD_eq_getElem?_getD, List.getElem?_set_ne hne]
  unfold BtfIndex.Walk
  rw [hhead, BtfIndex.links_push]
  exact ⟨h.1.append _, h.2⟩

theorem BtfIndex.Represents.exists_walk (h : index.Represents btf typed) (name : CString)
    (kind : Kind) : ∃ cells, index.Walk (bucketOf index name kind) cells :=
  h.walks _ (bucketOf_lt h.count_pos h.count_lt name kind)

/-- A second type with the name: its entry is marked, and nothing else changes. -/
theorem BtfIndex.Represents.mark (h : index.Represents btf typed) {type : BtfType} {id cell : Nat}
    (hfind : findEntry index.entries (mchBtfTypeName btf type) type.kind
      (index.entries.length + 1) (index.headFor (mchBtfTypeName btf type) type.kind) = some cell) :
    (index.mark cell).Represents btf (typed ++ [(type, id)]) := by
  constructor
  · exact h.btf_eq
  · exact h.buckets_length
  · exact h.count_pos
  · exact h.count_lt
  · have hle := h.entries_le
    simp only [BtfIndex.mark, markAmbiguous, List.length_modify, List.length_append,
      List.length_singleton]
    omega
  · intro bucket hbucket
    obtain ⟨cells, hcells⟩ := h.walks bucket hbucket
    exact ⟨cells, hcells.mark⟩
  · intro name kind hne hindexed
    have hold := h.answers name kind hne hindexed
    obtain ⟨cells, hcells⟩ := h.exists_walk name kind
    have hmark : (index.mark cell).Walk (bucketOf index name kind) cells := hcells.mark
    have hnew := hmark.lookup h.count_pos hne
    rw [hcells.lookup h.count_pos hne] at hold
    simp only [BtfIndex.mark] at hnew
    rw [BtfIndex.mark, hnew, carries_markAmbiguous, namedIds_concat]
    by_cases hkey : type.kind = kind ∧ mchBtfTypeName btf type = name
    · obtain ⟨rfl, rfl⟩ := hkey
      have hfound := (hcells.find _ _).symm.trans hfind
      obtain ⟨entry, hentry, _⟩ := exists_of_carries (List.find?_some hfound)
      rw [hfound] at hold ⊢
      have hsome : namedIds btf typed (mchBtfTypeName btf type) type.kind ≠ [] := by
        intro hempty
        rw [hempty] at hold
        simp only [answerOf, hentry, linearLookup] at hold
        split at hold <;> cases hold
      rw [if_pos ⟨rfl, rfl⟩, linearLookup_concat hsome]
      simp [answerOf, getElem?_markAmbiguous, hentry]
    · rw [if_neg hkey, List.append_nil, ← hold]
      cases hother : cells.find? (carries index.entries name kind) with
      | none => rfl
      | some other =>
          obtain ⟨cells', hcells'⟩ := h.exists_walk (mchBtfTypeName btf type) type.kind
          have hfound := (hcells'.find _ _).symm.trans hfind
          have hdiff := find?_carries_ne hfound hother hkey
          simp only [answerOf, getElem?_markAmbiguous, if_neg hdiff]
          cases index.entries[other]? <;> rfl

/-- The first type with the name: a new entry in front of its bucket. -/
theorem BtfIndex.Represents.push (h : index.Represents btf typed) {type : BtfType} {id : Nat}
    (hroom : typed.length < indexNone)
    (hfind : findEntry index.entries (mchBtfTypeName btf type) type.kind
      (index.entries.length + 1) (index.headFor (mchBtfTypeName btf type) type.kind) = none) :
    (index.push (mchBtfTypeName btf type) type.kind id).Represents btf
      (typed ++ [(type, id)]) := by
  have hle := h.entries_le
  have hhome := bucketOf_lt h.count_pos h.count_lt (mchBtfTypeName btf type) type.kind
  have hinside : bucketOf index (mchBtfTypeName btf type) type.kind < index.buckets.length := by
    rw [h.buckets_length]
    exact hhome
  have hfull : index.entries.length ≠ indexNone := by omega
  constructor
  · exact h.btf_eq
  · simp [BtfIndex.push, h.buckets_length]
  · exact h.count_pos
  · exact h.count_lt
  · simp only [BtfIndex.push, List.length_append, List.length_singleton]
    omega
  · intro bucket hbucket
    obtain ⟨cells, hcells⟩ := h.walks bucket hbucket
    by_cases heq : bucketOf index (mchBtfTypeName btf type) type.kind = bucket
    · subst heq
      exact ⟨_, hcells.push_home hinside hfull⟩
    · exact ⟨cells, hcells.push_other heq⟩
  · intro name kind hne hindexed
    have hold := h.answers name kind hne hindexed
    obtain ⟨cells, hcells⟩ := h.exists_walk name kind
    have hbelow : ∀ cell ∈ cells, cell < index.entries.length := by
      have hlt := hcells.1.mem_lt
      rw [BtfIndex.length_links] at hlt
      exact hlt
    rw [hcells.lookup h.count_pos hne] at hold
    have hskip : answerOf (index.push (mchBtfTypeName btf type) type.kind id).entries
        (cells.find? (carries (index.push (mchBtfTypeName btf type) type.kind id).entries name
          kind)) = linearLookup (namedIds btf typed name kind) := by
      simp only [BtfIndex.push]
      rw [answerOf_append hbelow, find?_carries_append hbelow]
      exact hold
    rw [namedIds_concat]
    by_cases hkey : type.kind = kind ∧ mchBtfTypeName btf type = name
    · obtain ⟨rfl, rfl⟩ := hkey
      have hpush : (index.push (mchBtfTypeName btf type) type.kind id).Walk
          (bucketOf index (mchBtfTypeName btf type) type.kind) (index.entries.length :: cells) :=
        hcells.push_home hinside hfull
      have hmissing := (hcells.find _ _).symm.trans hfind
      rw [hmissing] at hold
      have hids := linearLookup_eq_missing hold.symm
      have hlookup := hpush.lookup h.count_pos hne
      rw [List.find?_cons, carries_of_getElem? (getElem?_push index _ _ id),
        decide_eq_true ⟨rfl, rfl⟩] at hlookup
      rw [if_pos ⟨rfl, rfl⟩, hids, List.nil_append]
      refine hlookup.trans ?_
      simp [answerOf, getElem?_push, linearLookup]
    · rw [if_neg hkey, List.append_nil, ← hskip]
      by_cases heq : bucketOf index (mchBtfTypeName btf type) type.kind = bucketOf index name kind
      · have hpush : (index.push (mchBtfTypeName btf type) type.kind id).Walk
            (bucketOf index name kind) (index.entries.length :: cells) := by
          rw [← heq] at hcells ⊢
          exact hcells.push_home hinside hfull
        have hlookup := hpush.lookup h.count_pos hne
        rw [List.find?_cons, carries_of_getElem? (getElem?_push index _ _ id),
          decide_eq_false hkey] at hlookup
        exact hlookup
      · have hpush : (index.push (mchBtfTypeName btf type) type.kind id).Walk
            (bucketOf index name kind) cells := hcells.push_other heq
        exact hpush.lookup h.count_pos hne

/-- One turn of the loop over the types. -/
theorem BtfIndex.Represents.indexType (h : index.Represents btf typed) (type : BtfType) (id : Nat)
    (hroom : typed.length < indexNone) :
    (indexType index (type, id)).Represents btf (typed ++ [(type, id)]) := by
  have hskip : isIndexedKind type.kind = false ∨ mchBtfTypeName btf type = [] →
      index.Represents btf (typed ++ [(type, id)]) := by
    intro hnot
    have hle := h.entries_le
    refine ⟨h.btf_eq, h.buckets_length, h.count_pos, h.count_lt, ?_, h.walks, ?_⟩
    · rw [List.length_append]
      omega
    · intro name kind hne hindexed
      have hkey : ¬(type.kind = kind ∧ mchBtfTypeName btf type = name) := by
        rintro ⟨rfl, rfl⟩
        rcases hnot with hkind | hname
        · rw [hkind] at hindexed
          cases hindexed
        · exact hne hname
      rw [namedIds_concat, if_neg hkey, List.append_nil]
      exact h.answers name kind hne hindexed
  unfold MinCorehdr.indexType
  simp only
  rw [h.btf_eq]
  split
  next hkind => exact hskip (Or.inl hkind)
  next =>
    split
    next hname => exact hskip (Or.inr hname)
    next =>
      rw [indexInsert_eq]
      split
      next cell hfind => exact h.mark hfind
      next hfind => exact h.push hroom hfind

end Insert

/-! ## The whole table -/

/-- The index after the loop has seen these types. -/
def indexAfter (btf : Btf) (bucketCount : Nat) (typed : List (BtfType × Nat)) : BtfIndex :=
  typed.foldl indexType (BtfIndex.empty btf bucketCount)

theorem BtfIndex.empty_walk (btf : Btf) (bucketCount bucket : Nat) :
    (BtfIndex.empty btf bucketCount).Walk bucket [] := by
  have hhead : (BtfIndex.empty btf bucketCount).head bucket = indexNone := by
    simp only [BtfIndex.head, BtfIndex.empty, List.getD_eq_getElem?_getD, List.getElem?_replicate]
    split <;> rfl
  unfold BtfIndex.Walk
  rw [hhead]
  exact ⟨ChainFrom.done, List.Pairwise.nil⟩

theorem BtfIndex.empty_represents {btf : Btf} {bucketCount : Nat} (hpos : 0 < bucketCount)
    (hlt : bucketCount < 2 ^ 32) : (BtfIndex.empty btf bucketCount).Represents btf [] := by
  constructor
  · rfl
  · exact List.length_replicate
  · exact hpos
  · exact hlt
  · exact Nat.le_refl 0
  · exact fun bucket _ => ⟨[], BtfIndex.empty_walk btf bucketCount bucket⟩
  · intro name kind hname _
    exact (BtfIndex.empty_walk btf bucketCount _).lookup hpos hname

theorem indexAfter_represents {btf : Btf} {bucketCount : Nat} (hpos : 0 < bucketCount)
    (hlt : bucketCount < 2 ^ 32) {typed : List (BtfType × Nat)} (hroom : typed.length ≤ indexNone) :
    (indexAfter btf bucketCount typed).Represents btf typed := by
  induction typed using List.reverseRecOn with
  | nil => exact BtfIndex.empty_represents hpos hlt
  | append_singleton typed pair ih =>
      obtain ⟨type, id⟩ := pair
      rw [List.length_append, List.length_singleton] at hroom
      have hbefore := ih (by omega)
      have hstep := hbefore.indexType type id (by omega)
      rw [indexAfter, List.foldl_concat]
      exact hstep

theorem le_nextPowerOfTwo (value : Nat) : value ≤ nextPowerOfTwo value := by
  unfold nextPowerOfTwo
  simp only
  split
  · exact Nat.le_refl value
  · omega

/-- What a successful initialisation has built. -/
theorem mchBtfIndexInit_ok {btf : Btf} {index : BtfIndex} (h : mchBtfIndexInit btf = .ok index) :
    ∃ bucketCount, 0 < bucketCount ∧ bucketCount < 2 ^ 32 ∧ entryCapacity btf ≤ indexNone ∧
      index = indexAfter btf bucketCount (btf.types.zipIdx 1) := by
  unfold mchBtfIndexInit at h
  simp only at h
  rw [← entryCapacity] at h
  have hpos : 0 < entryCapacity btf := by
    unfold entryCapacity
    split <;> omega
  have hcount := le_nextPowerOfTwo (entryCapacity btf * 2)
  split at h
  next => cases h
  next hcapacity =>
    split at h
    next => cases h
    next hbuckets =>
      refine ⟨nextPowerOfTwo (entryCapacity btf * 2), by omega, by omega, ?_, ?_⟩
      · unfold indexNone
        omega
      · cases h
        rfl

theorem length_le_entryCapacity (btf : Btf) : (btf.types.zipIdx 1).length ≤ entryCapacity btf := by
  rw [List.length_zipIdx]
  unfold entryCapacity btfTypeCnt
  split <;> omega

/-- The invariant holds of the finished index. -/
theorem mchBtfIndexInit_represents {btf : Btf} {index : BtfIndex}
    (h : mchBtfIndexInit btf = .ok index) : index.Represents btf (btf.types.zipIdx 1) := by
  obtain ⟨bucketCount, hpos, hlt, hcapacity, rfl⟩ := mchBtfIndexInit_ok h
  have hlen := length_le_entryCapacity btf
  exact indexAfter_represents hpos hlt (by omega)

theorem mem_namedIds {btf : Btf} {name : CString} {kind : Kind} {id : Nat} :
    id ∈ namedIds btf (btf.types.zipIdx 1) name kind ↔ HasNamed btf id name kind := by
  unfold namedIds HasNamed
  simp only [List.mem_map, List.mem_filter, decide_eq_true_eq, Prod.exists, exists_eq_right]
  constructor
  · rintro ⟨type, hmem, hkind, hname⟩
    obtain ⟨hzero, htype⟩ := mem_types_zipIdx hmem
    exact ⟨hzero, type, htype, hkind, hname⟩
  · rintro ⟨hzero, type, htype, hkind, hname⟩
    obtain ⟨id, rfl⟩ := Nat.exists_eq_succ_of_ne_zero hzero
    have hmem : (type, id + 1) ∈ btf.types.zipIdx 1 :=
      List.mk_mem_zipIdx_iff_le_and_getElem?_sub.mpr ⟨by omega, htype⟩
    exact ⟨type, hmem, hkind, hname⟩

theorem nodup_namedIds (btf : Btf) (name : CString) (kind : Kind) :
    (namedIds btf (btf.types.zipIdx 1) name kind).Nodup := by
  have hsub : List.Sublist (namedIds btf (btf.types.zipIdx 1) name kind)
      ((btf.types.zipIdx 1).map Prod.snd) := List.filter_sublist.map Prod.snd
  rw [List.zipIdx_map_snd] at hsub
  exact hsub.nodup List.nodup_range'

section Exact

variable {btf : Btf} {index : BtfIndex} {name : CString} {kind : Kind}

theorem mchBtfIndexLookup_eq_linearLookup (h : mchBtfIndexInit btf = .ok index) (hname : name ≠ [])
    (hkind : isIndexedKind kind = true) : mchBtfIndexLookup index name kind =
      linearLookup (namedIds btf (btf.types.zipIdx 1) name kind) :=
  (mchBtfIndexInit_represents h).answers name kind hname hkind

theorem mchBtfIndexLookup_eq_unique_iff (h : mchBtfIndexInit btf = .ok index) (hname : name ≠ [])
    (hkind : isIndexedKind kind = true) {id : Nat} : mchBtfIndexLookup index name kind = .unique id ↔
      HasNamed btf id name kind ∧ ∀ other, HasNamed btf other name kind → other = id := by
  rw [mchBtfIndexLookup_eq_linearLookup h hname hkind,
    linearLookup_eq_unique_iff (nodup_namedIds btf name kind)]
  simp only [mem_namedIds]

theorem mchBtfIndexLookup_eq_ambiguous_iff (h : mchBtfIndexInit btf = .ok index) (hname : name ≠ [])
    (hkind : isIndexedKind kind = true) : mchBtfIndexLookup index name kind = .ambiguous ↔
      ∃ id other, HasNamed btf id name kind ∧ HasNamed btf other name kind ∧ id ≠ other := by
  rw [mchBtfIndexLookup_eq_linearLookup h hname hkind,
    linearLookup_eq_ambiguous_iff (nodup_namedIds btf name kind)]
  simp only [mem_namedIds]
  constructor
  · rintro ⟨id, hid, other, hother, hne⟩
    exact ⟨id, other, hid, hother, hne⟩
  · rintro ⟨id, other, hid, hother, hne⟩
    exact ⟨id, hid, other, hother, hne⟩

theorem mchBtfIndexLookup_eq_missing_iff (h : mchBtfIndexInit btf = .ok index) (hname : name ≠ [])
    (hkind : isIndexedKind kind = true) : mchBtfIndexLookup index name kind = .missing ↔
      ∀ id, ¬HasNamed btf id name kind := by
  rw [mchBtfIndexLookup_eq_linearLookup h hname hkind, linearLookup_eq_missing_iff]
  simp only [mem_namedIds]

end Exact

/-- Every walk over the table ends inside it, and it fits the arrays allocated for it. -/
structure BtfIndex.Fits (index : BtfIndex) (capacity : Nat) : Prop where
  walks_end : ∀ name kind, ∃ cells, ChainFrom index.links indexNone (index.headFor name kind) cells ∧
    cells.length ≤ index.entries.length
  bucket_lt : ∀ name kind, bucketOf index name kind < index.buckets.length
  entries_le : index.entries.length ≤ capacity

theorem BtfIndex.Represents.fits {btf : Btf} {index : BtfIndex} {typed : List (BtfType × Nat)}
    (h : index.Represents btf typed) {capacity : Nat} (hle : typed.length ≤ capacity) :
    index.Fits capacity := by
  constructor
  · intro name kind
    obtain ⟨cells, hchain, hdesc⟩ := h.exists_walk name kind
    have hlen := hchain.length_le hdesc
    rw [BtfIndex.length_links] at hlen
    exact ⟨cells, hchain, hlen⟩
  · intro name kind
    rw [h.buckets_length]
    exact bucketOf_lt h.count_pos h.count_lt name kind
  · exact Nat.le_trans h.entries_le hle

/-- A lookup answers as a scan over all types would, and at every turn of the loop that fills the
table its walks end and its entries stay within the allocated capacity. -/
theorem mchBtfIndexInit_exact {btf : Btf} {index : BtfIndex} (h : mchBtfIndexInit btf = .ok index) :
    (∀ name, name ≠ [] → ∀ kind ∈ [Kind.struct, .union, .enum, .enum64, .fwd, .typedef],
      (∀ id, mchBtfIndexLookup index name kind = .unique id ↔
        HasNamed btf id name kind ∧ ∀ other, HasNamed btf other name kind → other = id) ∧
      (mchBtfIndexLookup index name kind = .ambiguous ↔
        ∃ id other, HasNamed btf id name kind ∧ HasNamed btf other name kind ∧ id ≠ other) ∧
      (mchBtfIndexLookup index name kind = .missing ↔ ∀ id, ¬HasNamed btf id name kind)) ∧
    ∃ bucketCount, index = indexAfter btf bucketCount (btf.types.zipIdx 1) ∧
      ∀ before, before <+: btf.types.zipIdx 1 →
        (indexAfter btf bucketCount before).Fits (entryCapacity btf) := by
  constructor
  · intro name hname kind hmem
    have hkinds : ∀ kind ∈ [Kind.struct, .union, .enum, .enum64, .fwd, .typedef],
        isIndexedKind kind = true := by
      decide
    have hkind := hkinds kind hmem
    exact ⟨fun _ => mchBtfIndexLookup_eq_unique_iff h hname hkind,
      mchBtfIndexLookup_eq_ambiguous_iff h hname hkind,
      mchBtfIndexLookup_eq_missing_iff h hname hkind⟩
  · obtain ⟨bucketCount, hpos, hlt, hcapacity, hindex⟩ := mchBtfIndexInit_ok h
    refine ⟨bucketCount, hindex, ?_⟩
    intro before hpre
    have hle := Nat.le_trans hpre.length_le (length_le_entryCapacity btf)
    exact (indexAfter_represents hpos hlt (by omega)).fits hle

/-- `struct S`, `typedef T` twice. -/
def twiceNamed : Btf :=
  { types := [{ kind := .struct, nameOff := 1 }, { kind := .typedef, nameOff := 3 },
      { kind := .typedef, nameOff := 3 }]
    strs := [nul, 'S', nul, 'T', nul] }

theorem mchBtfIndexInit_exact_twiceNamed : ∃ index, mchBtfIndexInit twiceNamed = .ok index ∧
    (mchBtfIndexLookup index ['T'] .typedef = .ambiguous ↔ ∃ id other,
      HasNamed twiceNamed id ['T'] .typedef ∧ HasNamed twiceNamed other ['T'] .typedef ∧
        id ≠ other) := by
  refine ⟨_, rfl, ?_⟩
  exact ((@mchBtfIndexInit_exact twiceNamed _ rfl).1 ['T'] (by decide) .typedef (by decide)).2.1

end MinCorehdr
