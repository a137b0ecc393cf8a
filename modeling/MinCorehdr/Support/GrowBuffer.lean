import Mathlib.Data.List.Basic
import Mathlib.Data.List.ReduceOption

/-!
# Buffers that grow

A buffer is a row of cells of which the first `len` have been written.  Making it
larger keeps what was written; a write goes to the first cell that was not.
-/

namespace Support.GrowBuffer

universe u

variable {α : Type u}

structure Buffer (α : Type u) where
  cells : List (Option α)
  len : Nat
  written : ∀ i < len, ∃ a, cells[i]? = some (some a)

namespace Buffer

def fresh (cap : Nat) : Buffer α where
  cells := List.replicate cap none
  len := 0
  written := fun _ h => absurd h (Nat.not_lt_zero _)

/-- What has been written, in order. -/
def items (buffer : Buffer α) : List α := (buffer.cells.take buffer.len).reduceOption

theorem len_le (buffer : Buffer α) : buffer.len ≤ buffer.cells.length := by
  by_contra hlt
  obtain ⟨a, ha⟩ := buffer.written buffer.cells.length (by omega)
  rw [List.getElem?_eq_none (Nat.le_refl _)] at ha
  cases ha

theorem written_resize (buffer : Buffer α) (more : Nat) :
    ∀ i < buffer.len, ∃ a, (buffer.cells ++ List.replicate more none)[i]? = some (some a) := by
  intro i hi
  rw [List.getElem?_append_left (Nat.lt_of_lt_of_le hi buffer.len_le)]
  exact buffer.written i hi

/-- `realloc` to `cap` cells, which are not fewer. -/
def resize (buffer : Buffer α) (cap : Nat) : Buffer α where
  cells := buffer.cells ++ List.replicate (cap - buffer.cells.length) none
  len := buffer.len
  written := buffer.written_resize _

theorem written_write (buffer : Buffer α) (a : α) (h : buffer.len < buffer.cells.length) :
    ∀ i < buffer.len + 1, ∃ b, (buffer.cells.set buffer.len (some a))[i]? = some (some b) := by
  intro i hi
  rw [List.getElem?_set]
  by_cases heq : buffer.len = i
  · exact ⟨a, by rw [if_pos heq, if_pos (heq ▸ h)]⟩
  · rw [if_neg heq]
    exact buffer.written i (by omega)

/-- `cells[len++] = a`. -/
def write (buffer : Buffer α) (a : α) (h : buffer.len < buffer.cells.length) : Buffer α where
  cells := buffer.cells.set buffer.len (some a)
  len := buffer.len + 1
  written := buffer.written_write a h

@[simp] theorem items_fresh (cap : Nat) : (fresh cap : Buffer α).items = [] := rfl

@[simp] theorem length_cells_fresh (cap : Nat) : (fresh cap : Buffer α).cells.length = cap :=
  List.length_replicate

@[simp] theorem length_cells_write (buffer : Buffer α) (a : α)
    (h : buffer.len < buffer.cells.length) :
    (buffer.write a h).cells.length = buffer.cells.length :=
  List.length_set

theorem length_cells_resize (buffer : Buffer α) {cap : Nat} (h : buffer.cells.length ≤ cap) :
    (buffer.resize cap).cells.length = cap := by
  change (buffer.cells ++ _).length = cap
  rw [List.length_append, List.length_replicate]
  omega

@[simp] theorem items_resize (buffer : Buffer α) (cap : Nat) :
    (buffer.resize cap).items = buffer.items := by
  unfold items resize
  rw [List.take_append_of_le_length buffer.len_le]

@[simp] theorem items_write (buffer : Buffer α) (a : α) (h : buffer.len < buffer.cells.length) :
    (buffer.write a h).items = buffer.items ++ [a] := by
  have hlast : (buffer.cells.set buffer.len (some a)).take (buffer.len + 1) =
      buffer.cells.take buffer.len ++ [some a] := by
    rw [List.take_succ_eq_append_getElem (by rw [List.length_set]; exact h),
      List.getElem_set_self, List.take_set_of_le (Nat.le_refl _)]
  unfold items write
  rw [hlast, List.reduceOption_append]
  rfl

/-- Every cell that counts holds an item. -/
theorem take_cells (buffer : Buffer α) :
    buffer.cells.take buffer.len = buffer.items.map some := by
  have hall : ∀ cell ∈ buffer.cells.take buffer.len, ∃ a, cell = some a := by
    intro cell hcell
    obtain ⟨i, hi, rfl⟩ := List.mem_iff_getElem.mp hcell
    rw [List.length_take] at hi
    obtain ⟨a, ha⟩ := buffer.written i (by omega)
    obtain ⟨_, heq⟩ := List.getElem?_eq_some_iff.mp ha
    exact ⟨a, by rw [List.getElem_take, heq]⟩
  unfold items
  generalize buffer.cells.take buffer.len = cells at hall
  induction cells with
  | nil => rfl
  | cons cell cells ih =>
      obtain ⟨a, rfl⟩ := hall cell List.mem_cons_self
      rw [List.reduceOption_cons_of_some, List.map_cons,
        ← ih fun other hother => hall other (List.mem_cons_of_mem _ hother)]

@[simp] theorem length_items (buffer : Buffer α) : buffer.items.length = buffer.len := by
  have hlength := congrArg List.length buffer.take_cells
  rw [List.length_take, List.length_map] at hlength
  have hle := buffer.len_le
  omega

/-- Reading a cell that counts gives its item. -/
theorem cells_getD (buffer : Buffer α) {i : Nat} (h : i < buffer.items.length) :
    buffer.cells.getD i none = some buffer.items[i] := by
  have hlen := buffer.length_items
  have hread : (buffer.cells.take buffer.len)[i]? = buffer.cells[i]? :=
    List.getElem?_take_of_lt (by omega)
  rw [buffer.take_cells, List.getElem?_map, List.getElem?_eq_getElem h] at hread
  rw [List.getD_eq_getElem?_getD, ← hread]
  rfl

end Buffer

end Support.GrowBuffer
