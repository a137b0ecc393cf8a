import Mathlib.Data.Set.Basic
import Mathlib.Logic.Relation

/-!
# Worklists

A worklist computes the set reached from `start` along `next`: it takes a
pending element, adds what comes next to the seen set, and appends what was new
to the pending list.
-/

namespace Support.Worklist

open Relation

variable {α : Type*}

/-- What holds between two rounds. -/
structure Invariant (start : Set α) (next : α → α → Prop) (seen : Set α) (pending : List α) :
    Prop where
  start_subset : start ⊆ seen
  reached : ∀ x ∈ seen, ∃ s ∈ start, ReflTransGen next s x
  pending_seen : ∀ x ∈ pending, x ∈ seen
  expanded : ∀ x ∈ seen, x ∉ pending → ∀ y, next x y → y ∈ seen

theorem Invariant.initial {start : Set α} {next : α → α → Prop} {pending : List α}
    (h : ∀ x, x ∈ pending ↔ x ∈ start) : Invariant start next start pending where
  start_subset := subset_rfl
  reached := fun x hx => ⟨x, hx, .refl⟩
  pending_seen := fun x hx => (h x).mp hx
  expanded := fun x hx hnot => absurd ((h x).mpr hx) hnot

/-- One round: everything next to `x` is seen afterwards, nothing else is added,
and what is added is pending. -/
theorem Invariant.step {start seen seen' : Set α} {next : α → α → Prop} {x : α}
    {rest fresh : List α} (h : Invariant start next seen (x :: rest))
    (hseen : ∀ y, y ∈ seen' ↔ y ∈ seen ∨ next x y)
    (hfresh : ∀ y, y ∈ fresh ↔ y ∈ seen' ∧ y ∉ seen) :
    Invariant start next seen' (rest ++ fresh) where
  start_subset := fun y hy => (hseen y).mpr (Or.inl (h.start_subset hy))
  reached := by
    intro y hy
    rcases (hseen y).mp hy with hy | hy
    · exact h.reached y hy
    · obtain ⟨s, hs, hreach⟩ := h.reached x (h.pending_seen x List.mem_cons_self)
      exact ⟨s, hs, hreach.tail hy⟩
  pending_seen := by
    intro y hy
    rcases List.mem_append.mp hy with hy | hy
    · exact (hseen y).mpr (Or.inl (h.pending_seen y (List.mem_cons_of_mem x hy)))
    · exact ((hfresh y).mp hy).1
  expanded := by
    intro y hy hpending z hz
    rw [List.mem_append, not_or] at hpending
    have hold : y ∈ seen := by
      by_contra hnot
      exact hpending.2 ((hfresh y).mpr ⟨hy, hnot⟩)
    by_cases hyx : y = x
    · subst hyx
      exact (hseen z).mpr (Or.inr hz)
    · have hnot : y ∉ x :: rest := by
        intro hmem
        rcases List.mem_cons.mp hmem with heq | hmem
        · exact hyx heq
        · exact hpending.1 hmem
      exact (hseen z).mpr (Or.inl (h.expanded y hold hnot z hz))

/-- With nothing pending, the seen set is what `start` reaches. -/
theorem Invariant.finish {start seen : Set α} {next : α → α → Prop}
    (h : Invariant start next seen []) (y : α) :
    y ∈ seen ↔ ∃ s ∈ start, ReflTransGen next s y := by
  constructor
  · exact h.reached y
  · rintro ⟨s, hs, hreach⟩
    induction hreach with
    | refl => exact h.start_subset hs
    | tail _ hstep ih => exact h.expanded _ ih (by simp) _ hstep

end Support.Worklist
