import Mathlib.Data.List.Basic
import Mathlib.Data.Nat.Bitwise

/-!
# Sets of numbers as 64-bit words

Bit `i` of the set is bit `i & 63` of word `i >> 6`.  Membership, insertion and
the search for the first member at or after a position, with what each does to
membership.
-/

namespace Support.Bitset

abbrev Words := List (BitVec 64)

/-- The words that hold `count` bits; never none. -/
def wordsFor (count : Nat) : Nat :=
  if count = 0 then 1 else (count + 63) / 64

def mask (i : Nat) : BitVec 64 := 1#64 <<< (i &&& 63)

def testBit (words : Words) (i : Nat) : Bool :=
  (words.getD (i >>> 6) 0#64 &&& mask i) != 0#64

def setBit (words : Words) (i : Nat) : Words :=
  words.modify (i >>> 6) (fun word => word ||| mask i)

theorem shiftRight_six (i : Nat) : i >>> 6 = i / 64 := by
  simp [Nat.shiftRight_eq_div_pow]

theorem and_sixtyThree (i : Nat) : i &&& 63 = i % 64 :=
  Nat.and_two_pow_sub_one_eq_mod i 6

theorem div_lt_wordsFor {i count : Nat} (h : i < count) :
    i / 64 < wordsFor count := by
  unfold wordsFor
  split <;> omega

theorem getLsbD_mask (i k : Nat) : (mask i).getLsbD k = decide (k = i % 64) := by
  unfold mask
  rw [and_sixtyThree, BitVec.getLsbD_shiftLeft, BitVec.getLsbD_one]
  have hi : i % 64 < 64 := Nat.mod_lt i (by omega)
  by_cases hk : k = i % 64
  · subst hk
    simp [hi]
  · have : ¬(i % 64 ≤ k ∧ k - i % 64 = 0) := by omega
    simp only [hk, decide_false]
    by_cases hle : i % 64 ≤ k
    · have hne : k - i % 64 ≠ 0 := by omega
      simp [hne]
    · simp [Nat.not_le.mp hle]

theorem and_mask_ne_zero (word : BitVec 64) (i : Nat) :
    ((word &&& mask i) != 0#64) = word.getLsbD (i % 64) := by
  have hbits : ∀ k, (word &&& mask i).getLsbD k =
      (word.getLsbD k && decide (k = i % 64)) := by
    intro k
    rw [BitVec.getLsbD_and, getLsbD_mask]
  cases hbit : word.getLsbD (i % 64) with
  | true =>
      have hne : word &&& mask i ≠ 0#64 := by
        intro hzero
        have h := hbits (i % 64)
        rw [hzero, hbit] at h
        simp at h
      simpa using hne
  | false =>
      have hzero : word &&& mask i = 0#64 := by
        apply BitVec.eq_of_getLsbD_eq
        intro k _
        rw [hbits]
        by_cases hk : k = i % 64
        · subst hk
          simp [hbit]
        · simp [hk]
      simp [hzero]

/-- Membership is one bit of one word. -/
theorem testBit_eq (words : Words) (i : Nat) :
    testBit words i = (words.getD (i / 64) 0#64).getLsbD (i % 64) := by
  rw [testBit, and_mask_ne_zero, shiftRight_six]

@[simp] theorem length_setBit (words : Words) (i : Nat) :
    (setBit words i).length = words.length := by
  simp [setBit]

theorem getD_setBit (words : Words) (i k : Nat) (hi : i / 64 < words.length) :
    (setBit words i).getD k 0#64 =
      if i / 64 = k then words.getD k 0#64 ||| mask i else words.getD k 0#64 := by
  rw [setBit, shiftRight_six, List.getD_eq_getElem?_getD, List.getElem?_modify,
    List.getD_eq_getElem?_getD]
  by_cases hk : i / 64 = k
  · subst hk
    simp [List.getElem?_eq_getElem hi]
  · simp [hk]

/-- Insertion adds exactly the inserted number. -/
theorem testBit_setBit (words : Words) (i j : Nat) (hi : i / 64 < words.length) :
    testBit (setBit words i) j = (decide (j = i) || testBit words j) := by
  rw [testBit_eq, testBit_eq, getD_setBit words i (j / 64) hi]
  by_cases hword : i / 64 = j / 64
  · rw [if_pos hword, BitVec.getLsbD_or, getLsbD_mask, Bool.or_comm]
    have hiff : (j % 64 = i % 64) ↔ (j = i) := by
      constructor
      · intro h
        omega
      · rintro rfl
        rfl
    simp only [hiff]
  · have hne : j ≠ i := by
      rintro rfl
      exact hword rfl
    simp [hword, hne]

theorem length_zeroWords (count : Nat) :
    (List.replicate (wordsFor count) 0#64).length = wordsFor count :=
  List.length_replicate

@[simp] theorem testBit_replicate (n i : Nat) :
    testBit (List.replicate n 0#64) i = false := by
  rw [testBit_eq, List.getD_eq_getElem?_getD, List.getElem?_replicate]
  split <;> simp

/-- Words of one length are determined by their members. -/
theorem ext_testBit {left right : Words} (hlength : left.length = right.length)
    (h : ∀ i, testBit left i = testBit right i) : left = right := by
  apply List.ext_getElem hlength
  intro k hleft hright
  apply BitVec.eq_of_getLsbD_eq
  intro b hb
  have hbit := h (64 * k + b)
  rw [testBit_eq, testBit_eq] at hbit
  have hdiv : (64 * k + b) / 64 = k := by omega
  have hmod : (64 * k + b) % 64 = b := by omega
  rw [hdiv, hmod, List.getD_eq_getElem?_getD, List.getD_eq_getElem?_getD,
    List.getElem?_eq_getElem hleft, List.getElem?_eq_getElem hright] at hbit
  exact hbit

/-! ## The first member at or after a position -/

/-- Count trailing zeros: shift right until the low bit is set. -/
def bitIndexFrom : Nat → BitVec 64 → Nat → Nat
  | 0, _, bit => bit
  | fuel + 1, word, bit =>
      if (word &&& 1#64) = 0#64 then bitIndexFrom fuel (word >>> 1) (bit + 1) else bit

def bitIndex (word : BitVec 64) : Nat := bitIndexFrom 64 word 0

/-- Walk the words from number `wordIndex` on; `word` is the current one and
`rest` what follows it. -/
def scanWords (wordIndex : Nat) (word : BitVec 64) : Words → Option Nat
  | [] => if word ≠ 0#64 then some (wordIndex * 64 + bitIndex word) else none
  | next :: rest =>
      if word ≠ 0#64 then some (wordIndex * 64 + bitIndex word)
      else scanWords (wordIndex + 1) next rest

/-- `i` is a member and nothing below it is. -/
def IsFirst (words : Words) (i : Nat) : Prop :=
  testBit words i = true ∧ ∀ j < i, testBit words j = false

theorem and_one_eq_zero (word : BitVec 64) :
    (word &&& 1#64) = 0#64 ↔ word.getLsbD 0 = false := by
  have h := and_mask_ne_zero word 0
  have hmask : mask 0 = 1#64 := rfl
  rw [hmask] at h
  cases hbit : word.getLsbD 0 with
  | false =>
      rw [hbit] at h
      simpa using h
  | true =>
      rw [hbit] at h
      simpa using h

theorem bitIndexFrom_spec (fuel : Nat) : ∀ (word : BitVec 64) (bit : Nat),
    (∃ k < fuel, word.getLsbD k = true) →
      ∃ k, bitIndexFrom fuel word bit = bit + k ∧ word.getLsbD k = true ∧
        ∀ j < k, word.getLsbD j = false := by
  induction fuel with
  | zero =>
      rintro word bit ⟨k, hk, _⟩
      omega
  | succ fuel ih =>
      rintro word bit ⟨k, hk, hset⟩
      rw [bitIndexFrom]
      by_cases hlow : word.getLsbD 0 = true
      · rw [if_neg (by rw [and_one_eq_zero, hlow]; simp)]
        exact ⟨0, rfl, hlow, fun j hj => absurd hj (by omega)⟩
      · rw [if_pos ((and_one_eq_zero word).mpr (by simpa using hlow))]
        have hshift : ∀ j, (word >>> 1).getLsbD j = word.getLsbD (1 + j) := by
          intro j
          exact BitVec.getLsbD_ushiftRight word 1 j
        have hpos : k ≠ 0 := by
          rintro rfl
          exact hlow hset
        obtain ⟨m, hm, hmset, hmin⟩ := ih (word >>> 1) (bit + 1)
          ⟨k - 1, by omega, by rw [hshift, show 1 + (k - 1) = k by omega]; exact hset⟩
        refine ⟨m + 1, by omega, ?_, ?_⟩
        · rw [hshift, Nat.add_comm] at hmset
          exact hmset
        · intro j hj
          cases j with
          | zero => simpa using hlow
          | succ j =>
              have h := hmin j (by omega)
              rwa [hshift, Nat.add_comm] at h

theorem exists_bit_of_ne_zero {word : BitVec 64} (h : word ≠ 0#64) :
    ∃ k < 64, word.getLsbD k = true := by
  by_contra hnone
  apply h
  apply BitVec.eq_of_getLsbD_eq
  intro k hk
  rw [BitVec.getLsbD_zero]
  by_contra hset
  exact hnone ⟨k, hk, by simpa using hset⟩

theorem bitIndex_spec {word : BitVec 64} (h : word ≠ 0#64) :
    bitIndex word < 64 ∧ word.getLsbD (bitIndex word) = true ∧
      ∀ j < bitIndex word, word.getLsbD j = false := by
  obtain ⟨k, hk, hset, hmin⟩ := bitIndexFrom_spec 64 word 0 (exists_bit_of_ne_zero h)
  have hindex : bitIndex word = k := by
    rw [bitIndex, hk, Nat.zero_add]
  rw [hindex]
  exact ⟨BitVec.lt_of_getLsbD hset, hset, hmin⟩

theorem testBit_cons_lt {word : BitVec 64} {rest : Words} {i : Nat} (hi : i < 64) :
    testBit (word :: rest) i = word.getLsbD i := by
  rw [testBit_eq, Nat.div_eq_of_lt hi, Nat.mod_eq_of_lt hi]
  rfl

theorem testBit_cons_add (word : BitVec 64) (rest : Words) (i : Nat) :
    testBit (word :: rest) (64 + i) = testBit rest i := by
  rw [testBit_eq, testBit_eq, show (64 + i) / 64 = i / 64 + 1 by omega,
    show (64 + i) % 64 = i % 64 by omega]
  rfl

theorem testBit_zero_cons (rest : Words) {i : Nat} (hi : i < 64) :
    testBit (0#64 :: rest) i = false := by
  rw [testBit_cons_lt hi, BitVec.getLsbD_zero]

/-- The walk ends at the first member, counted from its first word. -/
theorem scanWords_eq_some (rest : Words) : ∀ (wordIndex : Nat) (word : BitVec 64) (found : Nat),
    scanWords wordIndex word rest = some found →
      ∃ i, found = wordIndex * 64 + i ∧ IsFirst (word :: rest) i := by
  induction rest with
  | nil =>
      intro wordIndex word found h
      rw [scanWords] at h
      by_cases hzero : word = 0#64
      · simp [hzero] at h
      · rw [if_pos hzero] at h
        obtain ⟨hlt, hset, hmin⟩ := bitIndex_spec hzero
        refine ⟨bitIndex word, (Option.some.inj h).symm, ?_, ?_⟩
        · rwa [testBit_cons_lt hlt]
        · intro j hj
          rw [testBit_cons_lt (by omega)]
          exact hmin j hj
  | cons next rest ih =>
      intro wordIndex word found h
      rw [scanWords] at h
      by_cases hzero : word = 0#64
      · rw [if_neg (by simpa using hzero)] at h
        obtain ⟨i, rfl, hset, hmin⟩ := ih (wordIndex + 1) next found h
        refine ⟨64 + i, by omega, ?_, ?_⟩
        · rwa [testBit_cons_add]
        · intro j hj
          by_cases hlow : j < 64
          · rw [hzero, testBit_zero_cons _ hlow]
          · rw [show j = 64 + (j - 64) by omega, testBit_cons_add]
            exact hmin (j - 64) (by omega)
      · rw [if_pos hzero] at h
        obtain ⟨hlt, hset, hmin⟩ := bitIndex_spec hzero
        refine ⟨bitIndex word, (Option.some.inj h).symm, ?_, ?_⟩
        · rwa [testBit_cons_lt hlt]
        · intro j hj
          rw [testBit_cons_lt (by omega)]
          exact hmin j hj

/-- The walk finds nothing only where there is nothing. -/
theorem scanWords_eq_none (rest : Words) : ∀ (wordIndex : Nat) (word : BitVec 64),
    scanWords wordIndex word rest = none → ∀ i, testBit (word :: rest) i = false := by
  induction rest with
  | nil =>
      intro wordIndex word h i
      rw [scanWords] at h
      by_cases hzero : word = 0#64
      · subst hzero
        rw [testBit_eq]
        cases i / 64 <;> simp
      · rw [if_pos hzero] at h
        simp at h
  | cons next rest ih =>
      intro wordIndex word h i
      rw [scanWords] at h
      by_cases hzero : word = 0#64
      · rw [if_neg (by simpa using hzero)] at h
        subst hzero
        by_cases hlow : i < 64
        · exact testBit_zero_cons _ hlow
        · rw [show i = 64 + (i - 64) by omega, testBit_cons_add]
          exact ih (wordIndex + 1) next h (i - 64)
      · rw [if_pos hzero] at h
        simp at h

end Support.Bitset
