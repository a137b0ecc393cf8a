import Mathlib.Data.List.Basic
import Mathlib.Data.List.Perm.Basic

/-!
# Loops whose steps may change places

Steps of one class keep their order, all other pairs of steps commute: then a loop
over a list of steps does not depend on how the classes are interleaved.
-/

namespace Support.Reorder

universe u v w x

variable {σ : Type u} {α : Type v} {κ : Type x} {m : Type u → Type w} [Monad m] [LawfulMonad m]

/-- Two steps whose order does not matter. -/
def Commute (f : σ → α → m σ) (a b : α) : Prop :=
  ∀ s, (f s a >>= fun t => f t b) = (f s b >>= fun t => f t a)

omit [LawfulMonad m] in
theorem Commute.symm {f : σ → α → m σ} {a b : α} (h : Commute f a b) : Commute f b a :=
  fun s => (h s).symm

/-- The two elements are of one class. -/
def SameClass (cls : α → Option κ) (a b : α) : Prop := ∃ k, cls a = some k ∧ cls b = some k

/-- The elements of a class, in order. -/
def ofClass [DecidableEq κ] (cls : α → Option κ) (k : κ) (as : List α) : List α :=
  as.filter fun a => cls a = some k

/-- The same elements, those of a class in the same order. -/
structure Reordered [DecidableEq κ] (cls : α → Option κ) (as bs : List α) : Prop where
  perm : as.Perm bs
  ofClass_eq : ∀ k, ofClass cls k as = ofClass cls k bs

section Class

variable [DecidableEq κ] {cls : α → Option κ}

theorem ofClass_append (k : κ) (as bs : List α) :
    ofClass cls k (as ++ bs) = ofClass cls k as ++ ofClass cls k bs := List.filter_append as bs

theorem ofClass_cons_of_pos {k : κ} {a : α} (h : cls a = some k) (as : List α) :
    ofClass cls k (a :: as) = a :: ofClass cls k as :=
  List.filter_cons_of_pos (decide_eq_true h)

theorem ofClass_cons_of_neg {k : κ} {a : α} (h : cls a ≠ some k) (as : List α) :
    ofClass cls k (a :: as) = ofClass cls k as :=
  List.filter_cons_of_neg (by simpa using h)

theorem mem_ofClass {k : κ} {a : α} {as : List α} :
    a ∈ ofClass cls k as ↔ a ∈ as ∧ cls a = some k := by
  rw [ofClass, List.mem_filter, decide_eq_true_eq]

/-- The first step of one order is behind none of its class in the other. -/
theorem Reordered.not_sameClass {a : α} {as pre post : List α}
    (h : Reordered cls (a :: as) (pre ++ a :: post)) (hfirst : a ∉ pre) :
    ∀ b ∈ pre, ¬SameClass cls b a := by
  rintro b hb ⟨k, hclass, hclass'⟩
  have heq := h.ofClass_eq k
  rw [ofClass_cons_of_pos hclass', ofClass_append] at heq
  cases hpre : ofClass cls k pre with
  | nil =>
      have hmem : b ∈ ofClass cls k pre := mem_ofClass.mpr ⟨hb, hclass⟩
      rw [hpre] at hmem
      cases hmem
  | cons first rest =>
      rw [hpre, List.cons_append] at heq
      have hmem : a ∈ ofClass cls k pre := by
        rw [hpre, (List.cons.inj heq).1]
        exact List.mem_cons_self
      exact hfirst (mem_ofClass.mp hmem).1

theorem Reordered.tail {a : α} {as pre post : List α}
    (h : Reordered cls (a :: as) (pre ++ a :: post)) (hfirst : a ∉ pre) :
    Reordered cls as (pre ++ post) := by
  constructor
  · exact List.Perm.cons_inv (h.perm.trans List.perm_middle)
  · intro k
    have heq := h.ofClass_eq k
    rw [ofClass_append] at heq ⊢
    by_cases hclass : cls a = some k
    · have hpre : ofClass cls k pre = [] := by
        refine List.eq_nil_iff_forall_not_mem.mpr fun b hb => ?_
        obtain ⟨hmem, hb⟩ := mem_ofClass.mp hb
        exact h.not_sameClass hfirst b hmem ⟨k, hb, hclass⟩
      rw [ofClass_cons_of_pos hclass, ofClass_cons_of_pos hclass, hpre, List.nil_append] at heq
      rw [hpre, List.nil_append]
      exact (List.cons.inj heq).2
    · rw [ofClass_cons_of_neg hclass, ofClass_cons_of_neg hclass] at heq
      exact heq

end Class

/-- A step moves in front of steps it commutes with. -/
theorem foldlM_move {f : σ → α → m σ} {a : α} {pre post : List α}
    (h : ∀ b ∈ pre, Commute f b a) :
    ∀ s, (pre ++ a :: post).foldlM f s = (a :: (pre ++ post)).foldlM f s := by
  induction pre with
  | nil => exact fun _ => rfl
  | cons b pre ih =>
      intro s
      have hrest := ih fun c hc => h c (List.mem_cons_of_mem b hc)
      have hswap := h b List.mem_cons_self s
      calc (b :: pre ++ a :: post).foldlM f s
          = f s b >>= fun t => (a :: (pre ++ post)).foldlM f t := by
            rw [List.cons_append, List.foldlM_cons]
            exact bind_congr hrest
        _ = (f s b >>= fun t => f t a) >>= fun t => (pre ++ post).foldlM f t := by
            rw [bind_assoc]
            exact bind_congr fun t => List.foldlM_cons
        _ = (f s a >>= fun t => f t b) >>= fun t => (pre ++ post).foldlM f t := by rw [hswap]
        _ = (a :: (b :: pre ++ post)).foldlM f s := by
            rw [bind_assoc, List.cons_append, List.foldlM_cons]
            exact bind_congr fun t => List.foldlM_cons.symm

/-- The loop does not depend on how the classes are interleaved. -/
theorem foldlM_reordered [DecidableEq κ] {cls : α → Option κ} {f : σ → α → m σ}
    (hcommute : ∀ a b, ¬SameClass cls a b → Commute f a b) {as : List α} :
    ∀ {bs : List α}, Reordered cls as bs → ∀ s, as.foldlM f s = bs.foldlM f s := by
  induction as with
  | nil =>
      intro bs h s
      rw [List.nil_perm.mp h.perm]
  | cons a as ih =>
      intro bs h s
      have hmem : a ∈ bs := h.perm.subset List.mem_cons_self
      obtain ⟨pre, post, rfl, hfirst⟩ := List.eq_append_cons_of_mem hmem
      have hmove := @foldlM_move σ α m _ _ f a pre post fun b hb =>
        hcommute b a (h.not_sameClass hfirst b hb)
      rw [hmove s, List.foldlM_cons, List.foldlM_cons]
      exact bind_congr fun t => ih (h.tail hfirst) t

end Support.Reorder
