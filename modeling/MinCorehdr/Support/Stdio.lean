import Mathlib.Data.List.Basic

/-!
# Buffered output streams

A stream collects what is put into it and hands it to the file when the next element no
longer fits the buffer, on a flush, and when it is closed.  A file that stops accepting shows
only then, as the stream's error flag.
-/

namespace Support.Stdio

universe u

variable {α : Type u}

/-- The buffer's size, and how much the file accepts before its writes fail. -/
structure Device where
  size : Nat
  capacity : Nat
  size_pos : 0 < size := by decide

/-- What the file accepted, what is still in the buffer, and `ferror`. -/
structure Stream (α : Type u) where
  accepted : List α := []
  buffer : List α := []
  error : Bool := false

/-- `fflush`. -/
def Stream.flush (device : Device) (s : Stream α) : Stream α where
  accepted := (s.accepted ++ s.buffer).take device.capacity
  buffer := []
  error := s.error || decide (device.capacity < (s.accepted ++ s.buffer).length)

/-- `fputc`: a full buffer is written when the next element comes. -/
def Stream.put (device : Device) (s : Stream α) (a : α) : Stream α :=
  if device.size ≤ s.buffer.length then { s.flush device with buffer := [a] }
  else { s with buffer := s.buffer ++ [a] }

/-- `fputs`. -/
def Stream.puts (device : Device) (s : Stream α) (text : List α) : Stream α :=
  text.foldl (Stream.put device) s

/-- How much of `n` elements leaves the buffer before the stream is flushed: all but a last
part that still fits it. -/
def Device.early (device : Device) (n : Nat) : Nat := (n - 1) / device.size * device.size

theorem Device.early_le (device : Device) (n : Nat) : device.early n ≤ n :=
  Nat.le_trans (Nat.div_mul_le_self _ _) (Nat.sub_le _ _)

theorem Device.early_of_le {device : Device} {n : Nat} (h : n ≤ device.size) :
    device.early n = 0 := by
  have hpos := device.size_pos
  rw [Device.early, Nat.div_eq_of_lt (by omega), Nat.zero_mul]

/-- One element more, where the last part fills the buffer. -/
theorem Device.early_succ_of_full {device : Device} {n : Nat}
    (h : device.size ≤ n - device.early n) : device.early (n + 1) = n := by
  have hpos := device.size_pos
  have hbelow : n - 1 < device.early n + device.size := Nat.lt_div_mul_add hpos
  have hle := device.early_le n
  have hn : n = ((n - 1) / device.size + 1) * device.size := by
    rw [Nat.succ_mul]
    change n = device.early n + device.size
    omega
  rw [Device.early, Nat.add_sub_cancel, Nat.div_mul_cancel]
  rw [hn]
  exact Nat.dvd_mul_left _ _

/-- One element more, where the buffer has room. -/
theorem Device.early_succ_of_room {device : Device} {n : Nat}
    (h : n - device.early n < device.size) : device.early (n + 1) = device.early n := by
  have hle := device.early_le n
  have hdiv : n / device.size = (n - 1) / device.size := by
    apply Nat.div_eq_of_lt_le
    · exact hle
    · rw [Nat.succ_mul]
      change n < device.early n + device.size
      omega
  rw [Device.early, Nat.add_sub_cancel, hdiv, Device.early]

/-- The stream was new and `text` was put into it. -/
structure Wrote (device : Device) (text : List α) (s : Stream α) : Prop where
  accepted_eq : s.accepted = (text.take (device.early text.length)).take device.capacity
  buffer_eq : s.buffer = text.drop (device.early text.length)
  error_eq : s.error = decide (device.capacity < device.early text.length)

theorem Wrote.fresh (device : Device) : Wrote device ([] : List α) {} where
  accepted_eq := by simp
  buffer_eq := by simp
  error_eq := by simp [Device.early]

theorem take_take_append (xs ys : List α) (k : Nat) :
    (xs.take k ++ ys).take k = (xs ++ ys).take k := by
  rw [List.take_append, List.take_append, List.take_take, Nat.min_self, List.length_take]
  by_cases hle : k ≤ xs.length
  · rw [Nat.min_eq_left hle, Nat.sub_self, Nat.sub_eq_zero_of_le hle]
  · rw [Nat.min_eq_right (by omega)]

/-- A flush hands the rest over. -/
theorem Wrote.flush {device : Device} {text : List α} {s : Stream α} (h : Wrote device text s) :
    (s.flush device).accepted = text.take device.capacity ∧
      (s.flush device).error = decide (device.capacity < text.length) := by
  have hle := device.early_le text.length
  constructor
  · unfold Stream.flush
    rw [h.accepted_eq, h.buffer_eq, take_take_append, List.take_append_drop]
  · unfold Stream.flush
    rw [h.error_eq, h.accepted_eq, h.buffer_eq, ← Bool.decide_or]
    apply decide_eq_decide.mpr
    rw [List.length_append, List.length_take, List.length_take, List.length_drop]
    omega

theorem Wrote.put {device : Device} {text : List α} {s : Stream α} (h : Wrote device text s)
    (a : α) : Wrote device (text ++ [a]) (s.put device a) := by
  have hle := device.early_le text.length
  have hbuffer : s.buffer.length = text.length - device.early text.length := by
    rw [h.buffer_eq, List.length_drop]
  have hsucc : (text ++ [a]).length = text.length + 1 := by
    rw [List.length_append, List.length_singleton]
  unfold Stream.put
  split
  next hfull =>
    -- the buffer is full, so everything before the new element is handed over
    rw [hbuffer] at hfull
    have hall : device.early (text ++ [a]).length = text.length := by
      rw [hsucc]
      exact Device.early_succ_of_full hfull
    obtain ⟨haccepted, herror⟩ := h.flush
    constructor
    · rw [hall, haccepted, List.take_left]
    · rw [hall, List.drop_left]
    · rw [hall, herror]
  next hroom =>
    rw [hbuffer, Nat.not_le] at hroom
    have hsame : device.early (text ++ [a]).length = device.early text.length := by
      rw [hsucc]
      exact Device.early_succ_of_room hroom
    constructor
    · rw [hsame, h.accepted_eq, List.take_append_of_le_length hle]
    · rw [hsame, h.buffer_eq, List.drop_append_of_le_length hle]
    · rw [hsame, h.error_eq]

theorem Wrote.puts {device : Device} {text : List α} {s : Stream α} (h : Wrote device text s)
    (more : List α) : Wrote device (text ++ more) (s.puts device more) := by
  induction more generalizing text s with
  | nil =>
      rw [List.append_nil]
      exact h
  | cons a more ih =>
      have hnext := ih (h.put a)
      rw [List.append_assoc] at hnext
      exact hnext

/-- What is put into a new stream. -/
theorem wrote_puts (device : Device) (text : List α) :
    Wrote device text (({} : Stream α).puts device text) := (Wrote.fresh device).puts text

end Support.Stdio
