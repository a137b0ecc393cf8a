import Mathlib.Data.List.Basic
import Mathlib.Data.List.Nodup
import Mathlib.Data.List.Range
import Mathlib.Data.List.Perm.Subperm

/-!
# Chains of indices in an array

`next` holds one link for each cell of an array.  A chain follows the links from
a cell until it meets the index that stands for the end.  A table that only adds
cells at the end of the array and lets a new cell point to an older head keeps
every chain descending, so no chain is longer than the array.
-/

namespace MinCorehdr

/-- Following `next` from the index meets the cells of the list and then `stop`. -/
inductive ChainFrom (next : List Nat) (stop : Nat) : Nat → List Nat → Prop
  | done : ChainFrom next stop stop []
  | link {cell after : Nat} {cells : List Nat} : cell ≠ stop → next[cell]? = some after →
      ChainFrom next stop after cells → ChainFrom next stop cell (cell :: cells)

section Chain

variable {next : List Nat} {stop start : Nat} {cells : List Nat}

theorem ChainFrom.mem_lt (h : ChainFrom next stop start cells) :
    ∀ cell ∈ cells, cell < next.length := by
  induction h with
  | done =>
      intro cell hcell
      cases hcell
  | link _ hnext _ ih =>
      intro cell hcell
      rcases List.mem_cons.mp hcell with heq | hrest
      · have hlt := (List.getElem?_eq_some_iff.mp hnext).1
        omega
      · exact ih cell hrest

/-- A cell added behind the others leaves the chains as they are. -/
theorem ChainFrom.append (h : ChainFrom next stop start cells) (more : List Nat) :
    ChainFrom (next ++ more) stop start cells := by
  induction h with
  | done => exact ChainFrom.done
  | link hstop hnext _ ih =>
      have hlt := (List.getElem?_eq_some_iff.mp hnext).1
      exact ChainFrom.link hstop (by rw [List.getElem?_append_left hlt]; exact hnext) ih

/-- A new cell in front of a chain. -/
theorem ChainFrom.push (h : ChainFrom next stop start cells) (hstop : next.length ≠ stop) :
    ChainFrom (next ++ [start]) stop next.length (next.length :: cells) := by
  have hget : (next ++ [start])[next.length]? = some start := List.getElem?_concat_length
  exact ChainFrom.link hstop hget (h.append [start])

theorem ChainFrom.push_descending (h : ChainFrom next stop start cells)
    (hdesc : cells.Pairwise (· > ·)) : (next.length :: cells).Pairwise (· > ·) := by
  apply List.Pairwise.cons
  · exact h.mem_lt
  · exact hdesc

/-- A descending chain is no longer than the array. -/
theorem ChainFrom.length_le (h : ChainFrom next stop start cells)
    (hdesc : cells.Pairwise (· > ·)) : cells.length ≤ next.length := by
  have hnodup : cells.Nodup := hdesc.imp (fun hgt => Nat.ne_of_gt hgt)
  have hsub : cells ⊆ List.range next.length := by
    intro cell hcell
    exact List.mem_range.mpr (h.mem_lt cell hcell)
  have hle := (hnodup.subperm hsub).length_le
  rw [List.length_range] at hle
  exact hle

end Chain

end MinCorehdr
