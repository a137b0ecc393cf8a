import Mathlib.Algebra.Group.Nat.Defs
import Mathlib.Data.List.Basic
import Mathlib.Data.List.GetD

/-!
# Records packed in bytes

Words of four bytes, the low byte first, and sections of records of one stride: a name, a
count, and the records one behind the other.  A record may be longer than what is read of it.
-/

namespace Support.Packed

/-! ## Pieces of a list -/

section

variable {α : Type} {raw piece piece' : List α} {pos : Nat}

/-- The piece stands in the list at this position. -/
def Occurs (raw : List α) (pos : Nat) (piece : List α) : Prop :=
  ∃ before after, raw = before ++ piece ++ after ∧ before.length = pos

theorem Occurs.le_length (h : Occurs raw pos piece) : pos + piece.length ≤ raw.length := by
  obtain ⟨before, after, rfl, rfl⟩ := h
  simp only [List.length_append]
  omega

theorem occurs_append_iff :
    Occurs raw pos (piece ++ piece') ↔
      Occurs raw pos piece ∧ Occurs raw (pos + piece.length) piece' := by
  constructor
  · rintro ⟨before, after, rfl, rfl⟩
    constructor
    · exact ⟨before, piece' ++ after, by simp, rfl⟩
    · exact ⟨before ++ piece, after, by simp, by simp⟩
  · rintro ⟨⟨before, after, rfl, rfl⟩, before', after', hsame, hlength⟩
    have hbefore : before ++ piece = before' ∧ after = piece' ++ after' := by
      apply List.append_inj
      · rw [hsame, List.append_assoc]
      · rw [List.length_append, hlength]
    refine ⟨before, after', ?_, rfl⟩
    rw [hbefore.2]
    simp

theorem exists_occurs {n : Nat} (h : pos + n ≤ raw.length) :
    ∃ piece, piece.length = n ∧ Occurs raw pos piece := by
  refine ⟨(raw.drop pos).take n, ?_, raw.take pos, (raw.drop pos).drop n, ?_, ?_⟩
  · rw [List.length_take, List.length_drop]
    omega
  · rw [List.append_assoc, List.take_append_drop, List.take_append_drop]
  · rw [List.length_take]
    omega

theorem Occurs.unique (h : Occurs raw pos piece) (h' : Occurs raw pos piece')
    (hlength : piece.length = piece'.length) : piece = piece' := by
  obtain ⟨before, after, rfl, rfl⟩ := h
  obtain ⟨before', after', hsame, hpos⟩ := h'
  rw [List.append_assoc, List.append_assoc] at hsame
  have hrest := List.append_inj_right hsame hpos.symm
  exact List.append_inj_left hrest hlength

theorem Occurs.getD (h : Occurs raw pos piece) {i : Nat} (hi : i < piece.length) (default : α) :
    raw.getD (pos + i) default = piece.getD i default := by
  obtain ⟨before, after, rfl, rfl⟩ := h
  have hlt : before.length + i < (before ++ piece).length := by
    rw [List.length_append]
    omega
  rw [List.getD_append _ _ _ _ hlt, List.getD_append_right _ _ _ _ (by omega)]
  congr 1
  omega

theorem occurs_self : Occurs piece 0 piece := ⟨[], [], by simp, rfl⟩

end

/-! ## Words -/

/-- The four bytes of a number. -/
def word (n : Nat) : List UInt8 :=
  [UInt8.ofNat n, UInt8.ofNat (n / 2 ^ 8), UInt8.ofNat (n / 2 ^ 16), UInt8.ofNat (n / 2 ^ 24)]

/-- The number that four bytes at a position stand for. -/
def wordValue (raw : List UInt8) (pos : Nat) : Nat :=
  (raw.getD pos 0).toNat + (raw.getD (pos + 1) 0).toNat * 2 ^ 8 +
    (raw.getD (pos + 2) 0).toNat * 2 ^ 16 + (raw.getD (pos + 3) 0).toNat * 2 ^ 24

@[simp] theorem length_word (n : Nat) : (word n).length = 4 := rfl

theorem wordValue_word {n : Nat} (h : n < 2 ^ 32) : wordValue (word n) 0 = n := by
  simp only [wordValue, word, List.getD_cons_zero, List.getD_cons_succ, UInt8.toNat_ofNat']
  omega

theorem Occurs.wordValue_eq {raw piece : List UInt8} {pos : Nat} (h : Occurs raw pos piece)
    (hlength : piece.length = 4) : wordValue raw pos = wordValue piece 0 := by
  have hget := fun i (hi : i < 4) => h.getD (hlength ▸ hi) 0
  have hzero := hget 0 (by omega)
  rw [Nat.add_zero] at hzero
  simp only [wordValue, hzero, hget 1 (by omega), hget 2 (by omega), hget 3 (by omega), Nat.zero_add]

theorem word_of_bytes (a b c d : UInt8) :
    wordValue [a, b, c, d] 0 < 2 ^ 32 ∧ word (wordValue [a, b, c, d] 0) = [a, b, c, d] := by
  have ha := a.toNat_lt
  have hb := b.toNat_lt
  have hc := c.toNat_lt
  have hd := d.toNat_lt
  simp only [wordValue, word, List.getD_cons_zero, List.getD_cons_succ, List.cons.injEq, and_true,
    ← UInt8.toNat_inj, UInt8.toNat_ofNat']
  omega

/-- The number at a position is the one whose four bytes stand there. -/
theorem occurs_word_iff {raw : List UInt8} {pos n : Nat} (h : pos + 4 ≤ raw.length) :
    wordValue raw pos = n ↔ n < 2 ^ 32 ∧ Occurs raw pos (word n) := by
  obtain ⟨piece, hlength, hoccurs⟩ := exists_occurs h
  have hvalue := hoccurs.wordValue_eq hlength
  obtain ⟨a, b, c, d, rfl⟩ := List.length_eq_four.mp hlength
  obtain ⟨hlt, hword⟩ := word_of_bytes a b c d
  constructor
  · rintro rfl
    rw [hvalue, hword]
    exact ⟨hlt, hoccurs⟩
  · rintro ⟨hn, hoccurs'⟩
    rw [hoccurs'.wordValue_eq rfl, wordValue_word hn]

/-! ## Records and sections -/

/-- Records of a fixed size: how they are written, and a reader that reads exactly that. -/
structure Codec (ε ρ : Type) where
  size : Nat
  Valid : ρ → Prop
  encode : ρ → List UInt8
  read : List UInt8 → Nat → Except ε ρ
  length_encode : ∀ a, (encode a).length = size
  read_eq_ok : ∀ raw pos a, read raw pos = .ok a ↔ Valid a ∧ Occurs raw pos (encode a)
  exists_read : ∀ raw pos, pos + size ≤ raw.length → ∃ a, read raw pos = .ok a

/-- A record, with the bytes that are not read of it. -/
structure Record (ρ : Type) where
  value : ρ
  rest : List UInt8

structure Section (ρ : Type) where
  name : Nat
  records : List (Record ρ)

section

variable {ε ρ : Type} (codec : Codec ε ρ)

def Record.bytes (record : Record ρ) : List UInt8 := codec.encode record.value ++ record.rest

/-- The record can be written in `stride` bytes. -/
structure Record.Fits (stride : Nat) (record : Record ρ) : Prop where
  valid : codec.Valid record.value
  length_eq : codec.size + record.rest.length = stride

def Section.bytes (part : Section ρ) : List UInt8 :=
  word part.name ++ word part.records.length ++ part.records.flatMap (Record.bytes codec)

structure Section.Fits (stride : Nat) (part : Section ρ) : Prop where
  name_lt : part.name < 2 ^ 32
  count_lt : part.records.length < 2 ^ 32
  records : ∀ record ∈ part.records, record.Fits codec stride

/-- A stride, then the sections. -/
def partBytes (stride : Nat) (sections : List (Section ρ)) : List UInt8 :=
  word stride ++ sections.flatMap (Section.bytes codec)

/-- The `len` bytes at `start` begin with this stride and these sections. -/
structure StartsWith (raw : List UInt8) (start len stride : Nat) (sections : List (Section ρ)) :
    Prop where
  inside : start + len ≤ raw.length
  size_le : codec.size ≤ stride
  stride_lt : stride < 2 ^ 32
  fits : ∀ part ∈ sections, part.Fits codec stride
  length_le : (partBytes codec stride sections).length ≤ len
  occurs : Occurs raw start (partBytes codec stride sections)

/-- The sections that can be read of these bytes: as many as there are, or none where not even
a stride can be read. -/
inductive Opens (raw : List UInt8) (start len : Nat) : List (Section ρ) → Prop
  | absent (h : ∀ stride, ¬StartsWith codec raw start len stride []) : Opens raw start len []
  | present {stride : Nat} {sections : List (Section ρ)}
      (h : StartsWith codec raw start len stride sections)
      (hlast : ∀ next, ¬StartsWith codec raw start len stride (sections ++ [next])) :
      Opens raw start len sections

/-- The bytes are a stride and these sections, to the end. -/
def Fills (raw : List UInt8) (start len stride : Nat) (sections : List (Section ρ)) : Prop :=
  StartsWith codec raw start len stride sections ∧ (partBytes codec stride sections).length = len

variable {codec} {raw : List UInt8} {pos start len stride : Nat}

theorem Record.Fits.length_bytes {record : Record ρ} (h : record.Fits codec stride) :
    (record.bytes codec).length = stride := by
  rw [Record.bytes, List.length_append, codec.length_encode, h.length_eq]

theorem length_records {records : List (Record ρ)}
    (h : ∀ record ∈ records, record.Fits codec stride) :
    (records.flatMap (Record.bytes codec)).length = records.length * stride := by
  induction records with
  | nil => simp
  | cons record records ih =>
      have hhead := (h record List.mem_cons_self).length_bytes
      have hrest := ih fun other hother => h other (List.mem_cons_of_mem _ hother)
      rw [List.flatMap_cons, List.length_append, hhead, hrest, List.length_cons, Nat.succ_mul]
      omega

theorem Section.Fits.length_bytes {part : Section ρ} (h : part.Fits codec stride) :
    (part.bytes codec).length = 8 + part.records.length * stride := by
  rw [Section.bytes, List.length_append, List.length_append, length_records h.records, length_word,
    length_word]

/-- Where the records of a run stand. -/
theorem occurs_record {records : List (Record ρ)} (h : ∀ record ∈ records, record.Fits codec stride)
    (hoccurs : Occurs raw pos (records.flatMap (Record.bytes codec))) {i : Nat} {record : Record ρ}
    (hrecord : records[i]? = some record) :
    codec.read raw (pos + i * stride) = .ok record.value := by
  induction records generalizing pos i with
  | nil => simp at hrecord
  | cons first records ih =>
      rw [List.flatMap_cons, occurs_append_iff] at hoccurs
      obtain ⟨hfirst, hrest⟩ := hoccurs
      have hfits := h first List.mem_cons_self
      rw [hfits.length_bytes] at hrest
      cases i with
      | zero =>
          cases hrecord
          rw [Nat.zero_mul, Nat.add_zero, codec.read_eq_ok]
          exact ⟨hfits.valid, (occurs_append_iff.mp hfirst).1⟩
      | succ i =>
          have hpos : pos + (i + 1) * stride = pos + stride + i * stride := by
            rw [Nat.succ_mul]
            omega
          rw [hpos]
          exact ih (fun other hother => h other (List.mem_cons_of_mem _ hother)) hrest hrecord

/-- Any bytes that are long enough are records. -/
theorem exists_records (hsize : codec.size ≤ stride) {count : Nat} :
    ∀ {pos : Nat}, pos + count * stride ≤ raw.length →
      ∃ records : List (Record ρ), records.length = count ∧
        (∀ record ∈ records, record.Fits codec stride) ∧
          Occurs raw pos (records.flatMap (Record.bytes codec)) := by
  induction count with
  | zero =>
      intro pos h
      obtain ⟨piece, hlength, hoccurs⟩ := @exists_occurs _ raw pos 0 (by omega)
      rw [List.length_eq_zero_iff.mp hlength] at hoccurs
      exact ⟨[], rfl, by simp, hoccurs⟩
  | succ count ih =>
      intro pos h
      rw [Nat.succ_mul] at h
      obtain ⟨value, hread⟩ := codec.exists_read raw pos (by omega)
      obtain ⟨hvalid, hvalue⟩ := (codec.read_eq_ok raw pos value).mp hread
      obtain ⟨rest, hrestLength, hrest⟩ :=
        @exists_occurs _ raw (pos + codec.size) (stride - codec.size) (by omega)
      obtain ⟨records, hcount, hfits, hrecords⟩ := @ih (pos + stride) (by omega)
      have hfirst : (⟨value, rest⟩ : Record ρ).Fits codec stride := ⟨hvalid, by dsimp only; omega⟩
      refine ⟨⟨value, rest⟩ :: records, by rw [List.length_cons, hcount], ?_, ?_⟩
      · intro record hrecord
        rcases List.mem_cons.mp hrecord with rfl | hrecord
        · exact hfirst
        · exact hfits record hrecord
      · rw [List.flatMap_cons, occurs_append_iff, hfirst.length_bytes]
        refine ⟨?_, hrecords⟩
        rw [Record.bytes, occurs_append_iff, codec.length_encode]
        exact ⟨hvalue, hrest⟩

/-- A section stands where its name, its count and its records do. -/
theorem occurs_section_iff {part : Section ρ} :
    Occurs raw pos (part.bytes codec) ↔ Occurs raw pos (word part.name) ∧
      Occurs raw (pos + 4) (word part.records.length) ∧
        Occurs raw (pos + 8) (part.records.flatMap (Record.bytes codec)) := by
  rw [Section.bytes, List.append_assoc, occurs_append_iff, occurs_append_iff]
  rfl

/-- Where there is room for its records, any name and count start a section. -/
theorem exists_section (hsize : codec.size ≤ stride) {name count : Nat} (hname : name < 2 ^ 32)
    (hcount : count < 2 ^ 32) (hnameAt : Occurs raw pos (word name))
    (hcountAt : Occurs raw (pos + 4) (word count)) (hroom : pos + 8 + count * stride ≤ raw.length) :
    ∃ part : Section ρ, part.name = name ∧ part.records.length = count ∧ part.Fits codec stride ∧
      Occurs raw pos (part.bytes codec) := by
  obtain ⟨records, rfl, hfits, hrecords⟩ := @exists_records ε ρ codec raw stride hsize count _ hroom
  exact ⟨⟨name, records⟩, rfl, rfl, ⟨hname, hcount, hfits⟩,
    occurs_section_iff.mpr ⟨hnameAt, hcountAt, hrecords⟩⟩

theorem StartsWith.concat {next : Section ρ} {sections : List (Section ρ)}
    (h : StartsWith codec raw start len stride sections) (hnext : next.Fits codec stride)
    (hoccurs : Occurs raw (start + (partBytes codec stride sections).length) (next.bytes codec))
    (hroom : (partBytes codec stride sections).length + (next.bytes codec).length ≤ len) :
    StartsWith codec raw start len stride (sections ++ [next]) := by
  have hbytes : partBytes codec stride (sections ++ [next]) =
      partBytes codec stride sections ++ next.bytes codec := by
    simp [partBytes]
  refine ⟨h.inside, h.size_le, h.stride_lt, ?_, ?_, ?_⟩
  · intro part hpart
    rcases List.mem_append.mp hpart with hpart | hpart
    · exact h.fits part hpart
    · rw [List.mem_singleton.mp hpart]
      exact hnext
  · rw [hbytes, List.length_append]
    exact hroom
  · rw [hbytes, occurs_append_iff]
    exact ⟨h.occurs, hoccurs⟩

theorem length_partBytes (sections : List (Section ρ)) :
    (partBytes codec stride sections).length =
      4 + (sections.flatMap (Section.bytes codec)).length := by
  rw [partBytes, List.length_append, length_word]

theorem length_lt_partBytes (stride : Nat) (sections : List (Section ρ)) (next : Section ρ) :
    (partBytes codec stride sections).length <
      (partBytes codec stride (sections ++ [next])).length := by
  rw [length_partBytes, length_partBytes, List.flatMap_append, List.length_append]
  have hnext : 0 < ([next].flatMap (Section.bytes codec)).length := by
    rw [List.flatMap_singleton, Section.bytes, List.length_append, List.length_append, length_word]
    omega
  omega

theorem occurs_partBytes_iff {sections : List (Section ρ)} :
    Occurs raw start (partBytes codec stride sections) ↔ Occurs raw start (word stride) ∧
      Occurs raw (start + 4) (sections.flatMap (Section.bytes codec)) := by
  rw [partBytes, occurs_append_iff, length_word]

/-- A part that ends where its sections do is read as them. -/
theorem Fills.opens {sections : List (Section ρ)} (h : Fills codec raw start len stride sections) :
    Opens codec raw start len sections := by
  obtain ⟨hstarts, hlength⟩ := h
  refine .present hstarts fun next hnext => ?_
  have hlonger := @length_lt_partBytes ε ρ codec stride sections next
  have hle := hnext.length_le
  omega

/-- Whatever the bytes are, some sections can be read of them. -/
theorem exists_opens (codec : Codec ε ρ) (raw : List UInt8) (start len : Nat) :
    ∃ sections, Opens codec raw start len sections := by
  by_cases hnone : ∀ stride, ¬StartsWith codec raw start len stride []
  · exact ⟨[], .absent hnone⟩
  obtain ⟨stride, hstride⟩ := not_forall_not.mp hnone
  -- each section takes bytes of the part, so only so many can be added
  have hgrow : ∀ left sections, StartsWith codec raw start len stride sections →
      len - (partBytes codec stride sections).length ≤ left →
        ∃ sections, Opens codec raw start len sections := by
    intro left
    induction left with
    | zero =>
        intro sections h hleft
        refine ⟨sections, .present h fun next hnext => ?_⟩
        have hlonger := @length_lt_partBytes ε ρ codec stride sections next
        have hle := hnext.length_le
        omega
    | succ left ih =>
        intro sections h hleft
        by_cases hlast : ∀ next, ¬StartsWith codec raw start len stride (sections ++ [next])
        · exact ⟨sections, .present h hlast⟩
        · obtain ⟨next, hnext⟩ := not_forall_not.mp hlast
          have hlonger := @length_lt_partBytes ε ρ codec stride sections next
          have hle := hnext.length_le
          exact ih _ hnext (by omega)
  exact hgrow _ [] hstride (Nat.le_refl _)

end

end Support.Packed
