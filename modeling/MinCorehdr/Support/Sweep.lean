import Mathlib.Data.Prod.Basic

/-!
# Steps that leave their state behind

A step that fails keeps what it did to the state before.  `sweep` runs such steps
over a list until one fails.
-/

namespace Support.Sweep

universe u

variable {ε α σ τ : Type u}

/-- Go on unless the step before failed. -/
def andThen (before : σ × Except ε Unit) (next : σ → σ × Except ε Unit) : σ × Except ε Unit :=
  match before.2 with
  | .error e => (before.1, .error e)
  | .ok () => next before.1

def sweep (step : σ → α → σ × Except ε Unit) : List α → σ → σ × Except ε Unit
  | [], s => (s, .ok ())
  | a :: as, s => andThen (step s a) (sweep step as)

theorem andThen_of_ok {before : σ × Except ε Unit} {next : σ → σ × Except ε Unit}
    (h : before.2 = .ok ()) : andThen before next = next before.1 := by
  unfold andThen
  rw [h]

theorem andThen_of_error {before : σ × Except ε Unit} {next : σ → σ × Except ε Unit} {e : ε}
    (h : before.2 = .error e) : andThen before next = (before.1, .error e) := by
  unfold andThen
  rw [h]

/-- What the first step leaves and every next step keeps is left at the end. -/
theorem andThen_keeps {P : σ → Prop} {before : σ × Except ε Unit}
    {next : σ → σ × Except ε Unit} (hbefore : P before.1) (hnext : ∀ s, P s → P (next s).1) :
    P (andThen before next).1 := by
  cases hresult : before.2 with
  | error e =>
      rw [andThen_of_error hresult]
      exact hbefore
  | ok done =>
      rw [andThen_of_ok hresult]
      exact hnext before.1 hbefore

theorem sweep_keeps {P : σ → Prop} {step : σ → α → σ × Except ε Unit} {as : List α}
    (h : ∀ a ∈ as, ∀ s, P s → P (step s a).1) : ∀ s, P s → P (sweep step as s).1 := by
  induction as with
  | nil => exact fun _ hs => hs
  | cons a as ih =>
      intro s hs
      apply andThen_keeps (h a List.mem_cons_self s hs)
      exact ih fun b hb => h b (List.mem_cons_of_mem a hb)

/-! ## Steps that follow a plain computation -/

/-- The step ends as the plain one does, in related states, unless it was refused
for a reason of its own. -/
structure Follows (related : σ → τ → Prop) (refused : ε → Prop) (left : σ × Except ε Unit)
    (right : Except ε τ) : Prop where
  ok : left.2 = .ok () → ∃ t, right = .ok t ∧ related left.1 t
  error : ∀ e, left.2 = .error e → right = .error e ∨ refused e

theorem Follows.of_ok {related : σ → τ → Prop} {refused : ε → Prop} {s : σ} {t : τ}
    (h : related s t) : Follows related refused (s, .ok ()) (.ok t) where
  ok := fun _ => ⟨t, rfl, h⟩
  error := by
    intro e he
    cases he

theorem Follows.of_error {related : σ → τ → Prop} {refused : ε → Prop} {s : σ} {e : ε} :
    Follows related refused (s, .error e) (.error e : Except ε τ) where
  ok := by
    intro hok
    cases hok
  error := by
    intro e' he
    cases he
    exact Or.inl rfl

theorem Follows.of_refused {related : σ → τ → Prop} {refused : ε → Prop} {s : σ} {e : ε}
    {right : Except ε τ} (h : refused e) : Follows related refused (s, .error e) right where
  ok := by
    intro hok
    cases hok
  error := by
    intro e' he
    cases he
    exact Or.inr h

theorem Follows.andThen {related after : σ → τ → Prop} {refused : ε → Prop}
    {left : σ × Except ε Unit} {right : Except ε τ} {next : σ → σ × Except ε Unit}
    {plain : τ → Except ε τ} (h : Follows related refused left right)
    (hnext : ∀ s t, related s t → Follows after refused (next s) (plain t)) :
    Follows after refused (andThen left next) (right >>= plain) := by
  cases hresult : left.2 with
  | error e =>
      rw [andThen_of_error hresult]
      rcases h.error e hresult with hright | hrefused
      · rw [hright]
        exact .of_error
      · exact .of_refused hrefused
  | ok done =>
      obtain ⟨t, hright, hrelated⟩ := h.ok hresult
      rw [andThen_of_ok hresult, hright]
      exact hnext left.1 t hrelated

theorem Follows.sweep {related : σ → τ → Prop} {refused : ε → Prop}
    {step : σ → α → σ × Except ε Unit} {plain : τ → α → Except ε τ} {as : List α}
    (h : ∀ a ∈ as, ∀ s t, related s t → Follows related refused (step s a) (plain t a)) :
    ∀ s t, related s t → Follows related refused (sweep step as s) (as.foldlM plain t) := by
  induction as with
  | nil => exact fun s t hrelated => .of_ok hrelated
  | cons a as ih =>
      intro s t hrelated
      rw [List.foldlM_cons]
      exact (h a List.mem_cons_self s t hrelated).andThen
        (ih fun b hb => h b (List.mem_cons_of_mem a hb))

end Support.Sweep
