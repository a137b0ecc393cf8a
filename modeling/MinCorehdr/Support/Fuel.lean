import MinCorehdr.Support.Result
import Mathlib.Logic.Relation
import Mathlib.Order.WellFounded
import Mathlib.Order.WellFoundedSet

/-!
# Runs on a step budget

A program without a bound on its depth is evaluated with a budget of nested
calls.  It halts when some budget, and every larger one, gives the same result,
which is not that the budget ran out.
-/

namespace Support.Fuel

open Relation Support.Result

universe u

variable {ε α β σ : Type u}

/-- From some budget on `run` has one result, and it is not the error `out` of a
budget that ran out. -/
def Halts (out : ε) (run : Nat → Except ε α) : Prop :=
  ∃ result fuel, result ≠ .error out ∧ ∀ more, fuel ≤ more → run more = result

section

variable {out : ε}

theorem Halts.of_ne {x : Except ε α} (h : x ≠ .error out) : Halts out (fun _ => x) :=
  ⟨x, 0, h, fun _ _ => rfl⟩

theorem Halts.ok (a : α) : Halts out (fun _ => (.ok a : Except ε α)) := .of_ne (by simp)

/-- One budget unit for the call itself. -/
theorem Halts.succ {run : Nat → Except ε α} (h : Halts out (fun fuel => run (fuel + 1))) :
    Halts out run := by
  obtain ⟨result, fuel, hresult, hrun⟩ := h
  refine ⟨result, fuel + 1, hresult, ?_⟩
  intro more hmore
  obtain ⟨n, rfl⟩ : ∃ n, more = n + 1 := ⟨more - 1, by omega⟩
  exact hrun n (by omega)

theorem Halts.bind {x : Nat → Except ε α} {f : Nat → α → Except ε β} (hx : Halts out x)
    (hf : ∀ a, (∃ fuel, x fuel = .ok a) → Halts out (fun fuel => f fuel a)) :
    Halts out (fun fuel => x fuel >>= f fuel) := by
  obtain ⟨result, fuel, hresult, hrun⟩ := hx
  cases result with
  | error e =>
      refine ⟨.error e, fuel, fun heq => hresult (congrArg _ (Except.error.inj heq)), ?_⟩
      intro more hmore
      change x more >>= f more = _
      rw [hrun more hmore, error_bind]
  | ok a =>
      obtain ⟨last, fuel', hlast, hrest⟩ := hf a ⟨fuel, hrun fuel (Nat.le_refl fuel)⟩
      refine ⟨last, max fuel fuel', hlast, ?_⟩
      intro more hmore
      change x more >>= f more = _
      rw [hrun more (by omega), ok_bind]
      exact hrest more (by omega)

theorem Halts.collect {f : Nat → α → Except ε (List β)} {as : List α}
    (h : ∀ a ∈ as, Halts out (fun fuel => f fuel a)) :
    Halts out (fun fuel => collect (f fuel) as) := by
  induction as with
  | nil => exact .ok []
  | cons a as ih =>
      apply Halts.bind (h a List.mem_cons_self)
      intro xs _
      apply Halts.bind (ih fun b hb => h b (List.mem_cons_of_mem a hb))
      intro ys _
      exact .ok (xs ++ ys)

/-- A loop halts when each step halts from the states `I` that the steps keep. -/
theorem Halts.foldlM {I : σ → Prop} {f : Nat → σ → α → Except ε σ} {as : List α}
    (hkeeps : ∀ a ∈ as, ∀ fuel s t, I s → f fuel s a = .ok t → I t)
    (h : ∀ a ∈ as, ∀ s, I s → Halts out (fun fuel => f fuel s a)) :
    ∀ s, I s → Halts out (fun fuel => as.foldlM (f fuel) s) := by
  induction as with
  | nil =>
      intro s _
      exact .ok s
  | cons a as ih =>
      intro s hs
      simp only [List.foldlM_cons]
      apply Halts.bind (h a List.mem_cons_self s hs)
      rintro t ⟨fuel, ht⟩
      exact ih (fun b hb => hkeeps b (List.mem_cons_of_mem a hb))
        (fun b hb => h b (List.mem_cons_of_mem a hb)) t (hkeeps a List.mem_cons_self fuel s t hs ht)

end

/-- From some budget on `run` succeeds, with one result. -/
def Finishes (run : Nat → Except ε α) : Prop :=
  ∃ a fuel, ∀ more, fuel ≤ more → run more = .ok a

section

variable {run : Nat → Except ε α}

theorem Finishes.of_ok {x : Except ε α} {a : α} (h : x = .ok a) : Finishes (fun _ => x) :=
  ⟨a, 0, fun _ _ => h⟩

theorem Finishes.ok (a : α) : Finishes (fun _ => (.ok a : Except ε α)) := .of_ok rfl

/-- A success that one more unit of budget does not undo, more of it does not undo. -/
theorem ok_of_le (hsucc : ∀ fuel a, run fuel = .ok a → run (fuel + 1) = .ok a) {fuel more : Nat}
    {a : α} (h : run fuel = .ok a) (hmore : fuel ≤ more) : run more = .ok a := by
  induction more, hmore using Nat.le_induction with
  | base => exact h
  | succ more _ ih => exact hsucc more a ih

theorem Finishes.of_succ (hsucc : ∀ fuel a, run fuel = .ok a → run (fuel + 1) = .ok a) {fuel : Nat}
    {a : α} (h : run fuel = .ok a) : Finishes run := ⟨a, fuel, fun _ => ok_of_le hsucc h⟩

theorem Finishes.succ (h : Finishes fun fuel => run (fuel + 1)) : Finishes run := by
  obtain ⟨a, fuel, hrun⟩ := h
  refine ⟨a, fuel + 1, fun more hmore => ?_⟩
  have hrest : run (more - 1 + 1) = .ok a := hrun (more - 1) (by omega)
  rw [Nat.sub_add_cancel (by omega)] at hrest
  exact hrest

theorem Finishes.bind {f : Nat → α → Except ε β} (hx : Finishes run)
    (hf : ∀ a, (∃ fuel, run fuel = .ok a) → Finishes fun fuel => f fuel a) :
    Finishes fun fuel => run fuel >>= f fuel := by
  obtain ⟨a, fuel, hrun⟩ := hx
  obtain ⟨b, fuel', hrest⟩ := hf a ⟨fuel, hrun fuel (Nat.le_refl fuel)⟩
  refine ⟨b, max fuel fuel', fun more hmore => ?_⟩
  have hfirst := hrun more (by omega)
  have hsecond := hrest more (by omega)
  exact bind_eq_ok.mpr ⟨a, hfirst, hsecond⟩

/-- A loop finishes when each step does from the states `I` that the steps keep. -/
theorem Finishes.foldlM {I : σ → Prop} {f : Nat → σ → α → Except ε σ} {as : List α}
    (hkeeps : ∀ a ∈ as, ∀ fuel s t, I s → f fuel s a = .ok t → I t)
    (h : ∀ a ∈ as, ∀ s, I s → Finishes fun fuel => f fuel s a) :
    ∀ s, I s → Finishes fun fuel => as.foldlM (f fuel) s := by
  induction as with
  | nil =>
      intro s _
      exact .ok s
  | cons a as ih =>
      intro s hs
      simp only [List.foldlM_cons]
      apply Finishes.bind (h a List.mem_cons_self s hs)
      rintro t ⟨fuel, ht⟩
      exact ih (fun b hb => hkeeps b (List.mem_cons_of_mem a hb))
        (fun b hb => h b (List.mem_cons_of_mem a hb)) t (hkeeps a List.mem_cons_self fuel s t hs ht)

end

/-! ## Chains that end -/

section

variable {γ : Type*} {next other : γ → γ → Prop} {a b : γ}

/-- Every chain of steps from `a` ends. -/
def Ends (next : γ → γ → Prop) (a : γ) : Prop := Acc (fun to_ from_ => next from_ to_) a

theorem Ends.intro (h : ∀ b, next a b → Ends next b) : Ends next a := Acc.intro a h

theorem Ends.tail (h : Ends next a) (hstep : next a b) : Ends next b := Acc.inv h hstep

theorem Ends.trans (h : Ends next a) (hsteps : ReflTransGen next a b) : Ends next b := by
  induction hsteps with
  | refl => exact h
  | tail _ hstep ih => exact ih.tail hstep

/-- A chain that ends does not come back. -/
theorem Ends.irrefl (h : Ends next a) : ¬TransGen next a a := by
  have hchains : Acc (TransGen fun to_ from_ => next from_ to_) a := Acc.transGen h
  induction hchains with
  | intro a _ ih => exact fun hcycle => ih a (transGen_swap.mp hcycle) h hcycle

/-- In a finite set that the steps do not leave, chains end where none comes back. -/
theorem Ends.of_finite {s : Set γ} (hfinite : s.Finite) (hclosed : ∀ a ∈ s, ∀ b, next a b → b ∈ s)
    (hacyclic : ∀ a ∈ s, ¬TransGen next a a) (ha : a ∈ s) : Ends next a := by
  let below : γ → γ → Prop := fun x y => TransGen next y x ∧ y ∈ s
  have hstrict : IsStrictOrder γ below :=
    { irrefl := fun x hx => hacyclic x hx.2 hx.1
      trans := fun x y z hxy hyz => ⟨hyz.1.trans hxy.1, hyz.2⟩ }
  have hwell : s.WellFoundedOn below := hfinite.wellFoundedOn
  refine hwell.induction ha fun x hx ih => Ends.intro fun y hstep => ?_
  exact ih y (hclosed x hx y hstep) ⟨.single hstep, hx⟩

/-- Where chains end, so do the steps that are chains. -/
theorem Ends.of_transGen (h : Ends next a) (hsub : ∀ x y, other x y → TransGen next x y) :
    Ends other a := by
  have hchains : Acc (TransGen fun to_ from_ => next from_ to_) a := Acc.transGen h
  refine Subrelation.accessible ?_ hchains
  intro to_ from_ hother
  exact transGen_swap.mp (hsub from_ to_ hother)

end

end Support.Fuel
