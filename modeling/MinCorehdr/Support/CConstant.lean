import Mathlib.Algebra.Group.Int.Defs
import Mathlib.Algebra.Group.Nat.Defs
import Mathlib.Data.List.Basic

/-!
# Decimal constants of C

A decimal literal has the first type of its suffix's list that holds it: with no
suffix the widest is the signed 64-bit type, with `ULL` the only one is the
unsigned 64-bit type.  A literal that no type holds has no value.
-/

namespace Support.CConstant

/-- The value of a decimal literal, and whether its type is unsigned.  A leading
zero would make it octal. -/
def literalValue (text : List Char) : Option (Nat × Bool) :=
  let digits := text.takeWhile Char.isDigit
  let suffix := text.dropWhile Char.isDigit
  let value := Nat.ofDigitChars 10 digits 0
  if digits = [] ∨ digits.head? = some '0' ∧ digits ≠ ['0'] then none
  else if suffix = [] ∧ value < 2 ^ 63 then some (value, false)
  else if suffix = "ULL".toList ∧ value < 2 ^ 64 then some (value, true)
  else none

/-- The value of a literal with an optional minus sign; unsigned arithmetic wraps. -/
def constantValue : List Char → Option Int
  | '-' :: literal =>
      (literalValue literal).map fun (value, unsigned) =>
        if unsigned then ((2 ^ 64 - value) % 2 ^ 64 : Nat) else -(value : Int)
  | literal => (literalValue literal).map fun (value, _) => (value : Int)

/-! ## Decimal digits -/

theorem isDigit_of_mem_toDigits {n : Nat} {c : Char} (h : c ∈ Nat.toDigits 10 n) :
    c.isDigit = true :=
  Nat.isDigit_of_mem_toDigits (by decide) (by decide) h

theorem takeWhile_toDigits_append (n : Nat) {suffix : List Char}
    (h : ∀ c ∈ suffix.head?, c.isDigit = false) :
    (Nat.toDigits 10 n ++ suffix).takeWhile Char.isDigit = Nat.toDigits 10 n := by
  have hall : ∀ c ∈ Nat.toDigits 10 n, c.isDigit = true := fun c hc => isDigit_of_mem_toDigits hc
  rw [List.takeWhile_append_of_pos hall]
  cases suffix with
  | nil => simp
  | cons c suffix =>
      have hc : c.isDigit = false := h c rfl
      rw [List.takeWhile_cons_of_neg (by simp [hc]), List.append_nil]

theorem dropWhile_toDigits_append (n : Nat) {suffix : List Char}
    (h : ∀ c ∈ suffix.head?, c.isDigit = false) :
    (Nat.toDigits 10 n ++ suffix).dropWhile Char.isDigit = suffix := by
  have hall : ∀ c ∈ Nat.toDigits 10 n, c.isDigit = true := fun c hc => isDigit_of_mem_toDigits hc
  rw [List.dropWhile_append_of_pos hall]
  cases suffix with
  | nil => simp
  | cons c suffix =>
      have hc : c.isDigit = false := h c rfl
      rw [List.dropWhile_cons_of_neg (by simp [hc])]

/-- Only zero starts with the digit zero. -/
theorem head?_toDigits {n : Nat} (h : (Nat.toDigits 10 n).head? = some '0') : n = 0 := by
  induction n using Nat.strongRecOn with
  | ind n ih =>
      by_cases hlt : n < 10
      · rw [Nat.toDigits_of_lt_base hlt, List.head?_cons, Option.some.injEq] at h
        have hdigits : ∀ d < 10, Nat.digitChar d = '0' → d = 0 := by decide
        exact hdigits n hlt h
      · have hsplit := Nat.toDigits_of_base_le (by decide : 1 < 10) (Nat.not_lt.mp hlt)
        have hne : Nat.toDigits 10 (n / 10) ≠ [] := Nat.toDigits_ne_nil
        rw [hsplit, List.head?_append_of_ne_nil _ hne] at h
        have hzero := ih (n / 10) (by omega) h
        omega

theorem literalValue_toDigits_append (n : Nat) {suffix : List Char}
    (h : ∀ c ∈ suffix.head?, c.isDigit = false) :
    literalValue (Nat.toDigits 10 n ++ suffix) =
      if suffix = [] ∧ n < 2 ^ 63 then some (n, false)
      else if suffix = "ULL".toList ∧ n < 2 ^ 64 then some (n, true)
      else none := by
  unfold literalValue
  rw [takeWhile_toDigits_append n h, dropWhile_toDigits_append n h]
  have hdecimal : ¬(Nat.toDigits 10 n = [] ∨
      (Nat.toDigits 10 n).head? = some '0' ∧ Nat.toDigits 10 n ≠ ['0']) := by
    rintro (hnil | ⟨hhead, hmore⟩)
    · exact Nat.toDigits_ne_nil hnil
    · apply hmore
      rw [head?_toDigits hhead, Nat.toDigits_zero]
  simp only [Nat.ofDigitChars_ten_toDigits, hdecimal, if_false]

theorem toDigits_ne_minus {n : Nat} {rest : List Char} {text : List Char} :
    Nat.toDigits 10 n ++ rest ≠ '-' :: text := by
  intro h
  cases hdigits : Nat.toDigits 10 n with
  | nil => exact Nat.toDigits_ne_nil hdigits
  | cons c cs =>
      rw [hdigits, List.cons_append, List.cons.injEq] at h
      have hdigit : c.isDigit = true := isDigit_of_mem_toDigits (by rw [hdigits]; simp)
      rw [h.1] at hdigit
      cases hdigit

/-- A decimal number with nothing or a suffix behind it is read as that number. -/
theorem constantValue_toDigits_append (n : Nat) (suffix : List Char) :
    constantValue (Nat.toDigits 10 n ++ suffix) =
      (literalValue (Nat.toDigits 10 n ++ suffix)).map fun (value, _) => (value : Int) := by
  unfold constantValue
  split
  next literal heq => exact absurd heq toDigits_ne_minus
  next => rfl

theorem constantValue_toDigits {n : Nat} (h : n < 2 ^ 63) :
    constantValue (Nat.toDigits 10 n) = some (n : Int) := by
  have hread := constantValue_toDigits_append n []
  rw [literalValue_toDigits_append n (by simp), List.append_nil, if_pos ⟨rfl, h⟩] at hread
  exact hread

theorem constantValue_unsigned {n : Nat} (h : n < 2 ^ 64) :
    constantValue (Nat.toDigits 10 n ++ "ULL".toList) = some (n : Int) := by
  have hdigits : ∀ c ∈ "ULL".toList.head?, c.isDigit = false := by
    intro c hc
    cases hc
    rfl
  have hsigned : ¬("ULL".toList = [] ∧ n < 2 ^ 63) := fun hnil => nomatch hnil.1
  rw [constantValue_toDigits_append, literalValue_toDigits_append n hdigits, if_neg hsigned,
    if_pos ⟨rfl, h⟩]
  rfl

/-- Below the smallest 64-bit number but one, a minus sign has nothing to negate. -/
theorem constantValue_minus (n : Nat) :
    constantValue ('-' :: Nat.toDigits 10 n) = if n < 2 ^ 63 then some (-(n : Int)) else none := by
  have hread : literalValue (Nat.toDigits 10 n ++ []) = _ := literalValue_toDigits_append n (by simp)
  have hsuffix : ¬(([] : List Char) = "ULL".toList ∧ n < 2 ^ 64) := fun hnil => nomatch hnil.1
  rw [List.append_nil, if_neg hsuffix] at hread
  by_cases hlt : n < 2 ^ 63
  · rw [if_pos ⟨rfl, hlt⟩] at hread
    rw [if_pos hlt]
    simp only [constantValue, hread]
    rfl
  · rw [if_neg fun hboth => hlt hboth.2] at hread
    rw [if_neg hlt]
    simp only [constantValue, hread]
    rfl

end Support.CConstant
