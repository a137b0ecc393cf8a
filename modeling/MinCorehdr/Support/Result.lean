import Mathlib.Data.List.Basic

/-!
# Computations that stop at the first error

Inversion rules for `Except`, and for the two loops that are built from it: a
loop that threads a state through a list (`List.foldlM`) and a loop that
concatenates what each element yields (`collect`).
-/

namespace Support.Result

universe u

variable {ε α β σ : Type u}

theorem bind_eq_ok {x : Except ε α} {f : α → Except ε β} {b : β} :
    (x >>= f) = .ok b ↔ ∃ a, x = .ok a ∧ f a = .ok b := by
  cases x with
  | error e => simp [bind, Except.bind]
  | ok a => simp [bind, Except.bind]

theorem bind_eq_error {x : Except ε α} {f : α → Except ε β} {e : ε} :
    (x >>= f) = .error e ↔ x = .error e ∨ ∃ a, x = .ok a ∧ f a = .error e := by
  cases x with
  | error e' => simp [bind, Except.bind]
  | ok a => simp [bind, Except.bind]

@[simp] theorem ok_bind (a : α) (f : α → Except ε β) : (Except.ok a >>= f) = f a := rfl

@[simp] theorem error_bind (e : ε) (f : α → Except ε β) :
    ((Except.error e : Except ε α) >>= f) = .error e := rfl

@[simp] theorem bind_ok (x : Except ε α) : (x >>= Except.ok) = x := by
  cases x <;> rfl

@[simp] theorem pure_eq_ok (a : α) : (pure a : Except ε α) = .ok a := rfl

theorem toOption_eq_some {x : Except ε α} {a : α} : x.toOption = some a ↔ x = .ok a := by
  cases x <;> simp [Except.toOption]

theorem toOption_bind (x : Except ε α) (f : α → Except ε β) :
    (x >>= f).toOption = x.toOption >>= fun a => (f a).toOption := by
  cases x <;> rfl

/-- Two computations in a row finish where each of them does. -/
theorem bind_ok_of_ok {x y : Except ε α} {f g : α → Except ε β} {b : β}
    (hx : ∀ a, x = .ok a → y = .ok a) (hf : ∀ a b, f a = .ok b → g a = .ok b)
    (h : (x >>= f) = .ok b) : (y >>= g) = .ok b := by
  obtain ⟨a, ha, hb⟩ := bind_eq_ok.mp h
  exact bind_eq_ok.mpr ⟨a, hx a ha, hf a b hb⟩

/-! ## Threading a state -/

theorem foldlM_cons_eq_ok {f : σ → α → Except ε σ} {s s' : σ} {a : α} {as : List α} :
    (a :: as).foldlM f s = .ok s' ↔ ∃ t, f s a = .ok t ∧ as.foldlM f t = .ok s' := by
  rw [List.foldlM_cons, bind_eq_ok]

theorem foldlM_cons_eq_error {f : σ → α → Except ε σ} {s : σ} {a : α} {as : List α} {e : ε} :
    (a :: as).foldlM f s = .error e ↔
      f s a = .error e ∨ ∃ t, f s a = .ok t ∧ as.foldlM f t = .error e := by
  rw [List.foldlM_cons, bind_eq_error]

theorem toOption_foldlM (f : σ → α → Except ε σ) (as : List α) :
    ∀ s, (as.foldlM f s).toOption = as.foldlM (fun s a => (f s a).toOption) s := by
  induction as with
  | nil => exact fun _ => rfl
  | cons a as ih =>
      intro s
      rw [List.foldlM_cons, List.foldlM_cons, toOption_bind]
      exact bind_congr ih

/-- A relation between the states before and after, with what the steps list in between, goes
from the steps to the loop. -/
theorem foldlM_collects {κ : Type} {f : σ → α → Except ε σ} {P : σ → Prop}
    {R : σ → σ → List κ → Prop} {g : α → List κ} (refl : ∀ s, P s → R s s [])
    (trans : ∀ s t u ks ks', R s t ks → R t u ks' → R s u (ks ++ ks'))
    (keeps : ∀ s t ks, R s t ks → P t) {as : List α}
    (step : ∀ a ∈ as, ∀ s t, P s → f s a = .ok t → R s t (g a)) :
    ∀ {s t : σ}, P s → as.foldlM f s = .ok t → R s t (as.flatMap g) := by
  induction as with
  | nil =>
      intro s t hs h
      cases h
      exact refl s hs
  | cons a as ih =>
      intro s u hs h
      obtain ⟨t, hstep, hrest⟩ := foldlM_cons_eq_ok.mp h
      have hfirst := step a List.mem_cons_self s t hs hstep
      have htail := ih (fun b hb => step b (List.mem_cons_of_mem a hb)) (keeps _ _ _ hfirst) hrest
      rw [List.flatMap_cons]
      exact trans _ _ _ _ _ hfirst htail

/-- Every element of a finished loop was passed in some state. -/
theorem ok_of_foldlM {f : σ → α → Except ε σ} {as : List α} {s s' : σ}
    (h : as.foldlM f s = .ok s') {a : α} (ha : a ∈ as) : ∃ t t', f t a = .ok t' := by
  induction as generalizing s with
  | nil => cases ha
  | cons b as ih =>
      obtain ⟨t, ht, hrest⟩ := foldlM_cons_eq_ok.mp h
      rcases List.mem_cons.mp ha with rfl | ha
      · exact ⟨s, t, ht⟩
      · exact ih hrest ha

/-- A finished loop is a loop up to any of its elements, its step, and a loop from there. -/
theorem foldlM_at {f : σ → α → Except ε σ} {as : List α} {s s' : σ}
    (h : as.foldlM f s = .ok s') {a : α} (ha : a ∈ as) :
    ∃ pre post t t', as = pre ++ a :: post ∧ pre.foldlM f s = .ok t ∧ f t a = .ok t' ∧
      post.foldlM f t' = .ok s' := by
  obtain ⟨pre, post, rfl⟩ := List.append_of_mem ha
  rw [List.foldlM_append] at h
  obtain ⟨t, hpre, hrest⟩ := bind_eq_ok.mp h
  obtain ⟨t', hstep, hpost⟩ := foldlM_cons_eq_ok.mp hrest
  exact ⟨pre, post, t, t', rfl, hpre, hstep, hpost⟩

/-- A loop finishes where each of its steps does. -/
theorem foldlM_ok_of_ok {f g : σ → α → Except ε σ} {as : List α}
    (hf : ∀ a ∈ as, ∀ s t, f s a = .ok t → g s a = .ok t) :
    ∀ {s t : σ}, as.foldlM f s = .ok t → as.foldlM g s = .ok t := by
  induction as with
  | nil => exact fun h => h
  | cons a as ih =>
      intro s t h
      obtain ⟨mid, hmid, hrest⟩ := foldlM_cons_eq_ok.mp h
      have hlater := ih (fun b hb => hf b (List.mem_cons_of_mem a hb)) hrest
      exact foldlM_cons_eq_ok.mpr ⟨mid, hf a List.mem_cons_self s mid hmid, hlater⟩

/-! ## Concatenating what each element yields -/

/-- Run `f` over a list in order and append the results. -/
def collect (f : α → Except ε (List β)) : List α → Except ε (List β)
  | [] => .ok []
  | a :: as => do
      let xs ← f a
      let ys ← collect f as
      .ok (xs ++ ys)

theorem collect_cons_eq_ok {f : α → Except ε (List β)} {a : α} {as : List α} {ys : List β} :
    collect f (a :: as) = .ok ys ↔
      ∃ xs zs, f a = .ok xs ∧ collect f as = .ok zs ∧ ys = xs ++ zs := by
  simp only [collect, bind_eq_ok, Except.ok.injEq]
  constructor
  · rintro ⟨xs, hxs, zs, hzs, rfl⟩
    exact ⟨xs, zs, hxs, hzs, rfl⟩
  · rintro ⟨xs, zs, hxs, hzs, rfl⟩
    exact ⟨xs, hxs, zs, hzs, rfl⟩

theorem collect_ok_of_ok {f g : α → Except ε (List β)} {as : List α} {ys : List β}
    (hf : ∀ a ∈ as, ∀ xs, f a = .ok xs → g a = .ok xs) (h : collect f as = .ok ys) :
    collect g as = .ok ys := by
  induction as generalizing ys with
  | nil => exact h
  | cons a as ih =>
      obtain ⟨xs, zs, hxs, hzs, rfl⟩ := collect_cons_eq_ok.mp h
      have hrest := ih (fun b hb => hf b (List.mem_cons_of_mem a hb)) hzs
      exact collect_cons_eq_ok.mpr ⟨xs, zs, hf a List.mem_cons_self xs hxs, hrest, rfl⟩

/-- What a finished `collect` holds is what its elements yielded. -/
theorem mem_collect {f : α → Except ε (List β)} {as : List α} {ys : List β}
    (h : collect f as = .ok ys) (y : β) :
    y ∈ ys ↔ ∃ a ∈ as, ∃ xs, f a = .ok xs ∧ y ∈ xs := by
  induction as generalizing ys with
  | nil =>
      cases h
      simp
  | cons a as ih =>
      obtain ⟨xs, zs, hxs, hzs, rfl⟩ := collect_cons_eq_ok.mp h
      rw [List.mem_append, ih hzs]
      constructor
      · rintro (hy | ⟨b, hb, ws, hws, hy⟩)
        · exact ⟨a, by simp, xs, hxs, hy⟩
        · exact ⟨b, by simp [hb], ws, hws, hy⟩
      · rintro ⟨b, hb, ws, hws, hy⟩
        rcases List.mem_cons.mp hb with rfl | hb
        · rw [hxs] at hws
          cases hws
          exact Or.inl hy
        · exact Or.inr ⟨b, hb, ws, hws, hy⟩

/-- Every element of a finished `collect` was evaluated. -/
theorem ok_of_collect {f : α → Except ε (List β)} {as : List α} {ys : List β}
    (h : collect f as = .ok ys) {a : α} (ha : a ∈ as) : ∃ xs, f a = .ok xs := by
  induction as generalizing ys with
  | nil => cases ha
  | cons b as ih =>
      obtain ⟨xs, zs, hxs, hzs, rfl⟩ := collect_cons_eq_ok.mp h
      rcases List.mem_cons.mp ha with rfl | ha
      · exact ⟨xs, hxs⟩
      · exact ih hzs ha

/-! ## How a computation can fail -/

/-- Every error of `x` is one of `P`. -/
def FailsIn (P : ε → Prop) (x : Except ε α) : Prop := ∀ e, x = .error e → P e

section

variable {P : ε → Prop}

theorem FailsIn.ok (a : α) : FailsIn P (.ok a : Except ε α) := by
  intro e h
  cases h

theorem FailsIn.error {e : ε} (h : P e) : FailsIn P (.error e : Except ε α) := by
  intro e' heq
  cases heq
  exact h

theorem FailsIn.bind {x : Except ε α} {f : α → Except ε β} (hx : FailsIn P x)
    (hf : ∀ a, x = .ok a → FailsIn P (f a)) : FailsIn P (x >>= f) := by
  intro e h
  rcases bind_eq_error.mp h with hfirst | ⟨a, ha, hrest⟩
  · exact hx e hfirst
  · exact hf a ha e hrest

theorem FailsIn.collect {f : α → Except ε (List β)} {as : List α}
    (h : ∀ a ∈ as, FailsIn P (f a)) : FailsIn P (collect f as) := by
  induction as with
  | nil => exact FailsIn.ok []
  | cons a as ih =>
      apply FailsIn.bind (h a List.mem_cons_self)
      intro xs _
      apply FailsIn.bind (ih fun b hb => h b (List.mem_cons_of_mem a hb))
      intro ys _
      exact FailsIn.ok _

/-- A loop whose steps keep `I` fails as its steps fail where `I` holds. -/
theorem FailsIn.foldlM {I : σ → Prop} {f : σ → α → Except ε σ} {as : List α}
    (hkeeps : ∀ a ∈ as, ∀ s t, I s → f s a = .ok t → I t)
    (h : ∀ a ∈ as, ∀ s, I s → FailsIn P (f s a)) : ∀ s, I s → FailsIn P (as.foldlM f s) := by
  induction as with
  | nil =>
      intro s _
      exact FailsIn.ok s
  | cons a as ih =>
      intro s hs
      rw [List.foldlM_cons]
      apply FailsIn.bind (h a List.mem_cons_self s hs)
      intro t ht
      exact ih (fun b hb => hkeeps b (List.mem_cons_of_mem a hb))
        (fun b hb => h b (List.mem_cons_of_mem a hb)) t (hkeeps a List.mem_cons_self s t hs ht)

/-- What the steps of a loop keep holds at its end. -/
theorem foldlM_keeps {I : σ → Prop} {f : σ → α → Except ε σ} {as : List α} {s t : σ}
    (hkeeps : ∀ a ∈ as, ∀ s t, I s → f s a = .ok t → I t) (hs : I s)
    (h : as.foldlM f s = .ok t) : I t := by
  induction as generalizing s with
  | nil =>
      cases h
      exact hs
  | cons a as ih =>
      obtain ⟨mid, hmid, hrest⟩ := foldlM_cons_eq_ok.mp h
      exact ih (fun b hb => hkeeps b (List.mem_cons_of_mem a hb))
        (hkeeps a List.mem_cons_self s mid hs hmid) hrest

end

end Support.Result
