import Mathlib.Data.List.Nodup
import Mathlib.Logic.Function.Basic
import Mathlib.Logic.Relation

/-!
# Depth-first search with three marks

A search visits a list of nodes.  A node it has not seen is marked active while
the nodes it needs are visited, then marked done and logged.  A node met again
while it is active is passed over, unless it is strict: then the search is
stuck.
-/

namespace Support.DepthFirst

open Relation

inductive Mark
  | unseen | active | done
  deriving DecidableEq, Repr

structure Search (α : Type*) where
  mark : α → Mark
  log : List α

variable {α : Type*} [DecidableEq α]

def Search.enter (s : Search α) (x : α) : Search α :=
  { s with mark := Function.update s.mark x .active }

def Search.leave (s : Search α) (x : α) : Search α where
  mark := Function.update s.mark x .done
  log := s.log ++ [x]

def Search.empty : Search α where
  mark := fun _ => .unseen
  log := []

@[simp] theorem enter_mark_self (s : Search α) (x : α) : (s.enter x).mark x = .active :=
  Function.update_self ..

theorem enter_mark_of_ne (s : Search α) {x y : α} (h : y ≠ x) :
    (s.enter x).mark y = s.mark y :=
  Function.update_of_ne h ..

@[simp] theorem enter_log (s : Search α) (x : α) : (s.enter x).log = s.log := rfl

@[simp] theorem leave_mark_self (s : Search α) (x : α) : (s.leave x).mark x = .done :=
  Function.update_self ..

theorem leave_mark_of_ne (s : Search α) {x y : α} (h : y ≠ x) :
    (s.leave x).mark y = s.mark y :=
  Function.update_of_ne h ..

@[simp] theorem leave_log (s : Search α) (x : α) : (s.leave x).log = s.log ++ [x] := rfl

/-- A search that ends: it visits the list and turns one state into the other. -/
inductive Run (strict : α → Prop) (needs : α → α → Prop) : Search α → List α → Search α → Prop
  | nil (s : Search α) : Run strict needs s [] s
  | done {s t : Search α} {x : α} {xs : List α} :
      s.mark x = .done → Run strict needs s xs t → Run strict needs s (x :: xs) t
  | passed {s t : Search α} {x : α} {xs : List α} :
      s.mark x = .active → ¬strict x → Run strict needs s xs t → Run strict needs s (x :: xs) t
  | fresh {s m t : Search α} {x : α} {ds xs : List α} :
      s.mark x = .unseen → (∀ d, d ∈ ds ↔ needs x d) → Run strict needs (s.enter x) ds m →
        Run strict needs (m.leave x) xs t → Run strict needs s (x :: xs) t

/-- A search that meets a strict node while it is active. -/
inductive Stuck (strict : α → Prop) (needs : α → α → Prop) : Search α → List α → Prop
  | here {s : Search α} {x : α} {xs : List α} :
      s.mark x = .active → strict x → Stuck strict needs s (x :: xs)
  | inside {s : Search α} {x : α} {ds xs : List α} :
      s.mark x = .unseen → (∀ d ∈ ds, needs x d) → Stuck strict needs (s.enter x) ds →
        Stuck strict needs s (x :: xs)
  | later {s t : Search α} {xs ys : List α} :
      Run strict needs s xs t → Stuck strict needs t ys → Stuck strict needs s (xs ++ ys)

omit [DecidableEq α] in
/-- An occurrence in a list with one more entry is that entry or an earlier one. -/
theorem eq_last_or_of_split {xs before after : List α} {x y : α}
    (h : xs ++ [x] = before ++ y :: after) :
    before = xs ∧ y = x ∨ ∃ after', xs = before ++ y :: after' := by
  rcases List.eq_nil_or_concat after with rfl | ⟨after', z, rfl⟩
  · obtain ⟨hbefore, hyx⟩ := List.append_inj' h rfl
    cases hyx
    exact Or.inl ⟨hbefore.symm, rfl⟩
  · have hsplit : xs ++ [x] = (before ++ y :: after') ++ [z] := by
      rw [h, List.append_assoc]
      simp
    exact Or.inr ⟨after', (List.append_inj' hsplit rfl).1⟩

section

variable {strict : α → Prop} {needs : α → α → Prop}

theorem Run.append {s m t : Search α} {xs ys : List α} (hxs : Run strict needs s xs m)
    (hys : Run strict needs m ys t) : Run strict needs s (xs ++ ys) t := by
  induction hxs with
  | nil s => exact hys
  | done hmark _ ih => exact .done hmark (ih hys)
  | passed hmark hstrict _ ih => exact .passed hmark hstrict (ih hys)
  | fresh hmark hds hrun _ _ ih => exact .fresh hmark hds hrun (ih hys)

/-! ## Marks -/

/-- What is active before a run is active after it, and nothing else. -/
theorem Run.active_iff {s t : Search α} {xs : List α} (h : Run strict needs s xs t) (y : α) :
    t.mark y = .active ↔ s.mark y = .active := by
  induction h with
  | nil s => rfl
  | done _ _ ih => exact ih
  | passed _ _ _ ih => exact ih
  | @fresh s m t x ds xs hmark _ _ _ ihInner ihRest =>
      rw [ihRest]
      by_cases hy : y = x
      · subst hy
        simp [hmark]
      · rw [leave_mark_of_ne m hy, ihInner, enter_mark_of_ne s hy]

theorem Run.done_of_done {s t : Search α} {xs : List α} (h : Run strict needs s xs t) {y : α} :
    s.mark y = .done → t.mark y = .done := by
  induction h with
  | nil s => exact id
  | done _ _ ih => exact ih
  | passed _ _ _ ih => exact ih
  | @fresh s m t x ds xs hmark _ _ _ ihInner ihRest =>
      intro hdone
      have hy : y ≠ x := by
        rintro rfl
        rw [hmark] at hdone
        cases hdone
      apply ihRest
      rw [leave_mark_of_ne m hy]
      apply ihInner
      rw [enter_mark_of_ne s hy]
      exact hdone

/-- Every node a run visits is done afterwards, or it was active and is not
strict. -/
theorem Run.visited {s t : Search α} {xs : List α} (h : Run strict needs s xs t) :
    ∀ y ∈ xs, t.mark y = .done ∨ t.mark y = .active ∧ ¬strict y := by
  induction h with
  | nil s =>
      intro y hy
      cases hy
  | done hmark hrun ih =>
      intro y hy
      rcases List.mem_cons.mp hy with rfl | hy
      · exact Or.inl (hrun.done_of_done hmark)
      · exact ih y hy
  | passed hmark hstrict hrun ih =>
      intro y hy
      rcases List.mem_cons.mp hy with rfl | hy
      · exact Or.inr ⟨(hrun.active_iff y).mpr hmark, hstrict⟩
      · exact ih y hy
  | @fresh s m t x ds xs _ _ _ hrest _ ih =>
      intro y hy
      rcases List.mem_cons.mp hy with rfl | hy
      · exact Or.inl (hrest.done_of_done (leave_mark_self m y))
      · exact ih y hy

theorem Run.ne_unseen {s t : Search α} {xs : List α} (h : Run strict needs s xs t) {y : α}
    (hy : s.mark y ≠ .unseen) : t.mark y ≠ .unseen := by
  cases hmark : s.mark y with
  | unseen => exact absurd hmark hy
  | active =>
      rw [(h.active_iff y).mpr hmark]
      decide
  | done =>
      rw [h.done_of_done hmark]
      decide

/-! ## The log -/

/-- The log lists the nodes that are done, each once, what a logged node needs
has been seen, and the strict nodes among it are logged before it. -/
structure Search.Sound (strict : α → Prop) (needs : α → α → Prop) (s : Search α) : Prop where
  mem_log : ∀ x, x ∈ s.log ↔ s.mark x = .done
  nodup : s.log.Nodup
  seen : ∀ x ∈ s.log, ∀ d, needs x d → s.mark d ≠ .unseen
  ordered : ∀ before x after, s.log = before ++ x :: after →
    ∀ d, needs x d → strict d → d ∈ before

omit [DecidableEq α] in
theorem Search.empty_sound : (Search.empty : Search α).Sound strict needs where
  mem_log := by simp [Search.empty]
  nodup := List.nodup_nil
  seen := by simp [Search.empty]
  ordered := by simp [Search.empty]

theorem Search.Sound.enter {s : Search α} (hs : s.Sound strict needs) {x : α}
    (hmark : s.mark x = .unseen) : (s.enter x).Sound strict needs where
  mem_log := by
    intro y
    rw [enter_log, hs.mem_log]
    by_cases hy : y = x
    · subst hy
      simp [hmark]
    · rw [enter_mark_of_ne s hy]
  nodup := hs.nodup
  seen := by
    intro y hy d hd
    by_cases hdx : d = x
    · subst hdx
      simp
    · rw [enter_mark_of_ne s hdx]
      exact hs.seen y hy d hd
  ordered := hs.ordered

theorem Search.Sound.leave {s : Search α} (hs : s.Sound strict needs) {x : α}
    (hmark : s.mark x = .active)
    (hneeds : ∀ d, needs x d → s.mark d = .done ∨ s.mark d = .active ∧ ¬strict d) :
    (s.leave x).Sound strict needs where
  mem_log := by
    intro y
    rw [leave_log, List.mem_append, List.mem_singleton, hs.mem_log]
    by_cases hy : y = x
    · subst hy
      simp
    · rw [leave_mark_of_ne s hy]
      simp [hy]
  nodup := by
    have hx : x ∉ s.log := by
      rw [hs.mem_log, hmark]
      decide
    exact List.nodup_append.mpr ⟨hs.nodup, List.nodup_singleton x, by
      intro a ha b hb
      rw [List.mem_singleton.mp hb]
      rintro rfl
      exact hx ha⟩
  seen := by
    have hkeep : ∀ d, s.mark d ≠ .unseen → (s.leave x).mark d ≠ .unseen := by
      intro d hd
      by_cases hdx : d = x
      · subst hdx
        simp
      · rw [leave_mark_of_ne s hdx]
        exact hd
    intro y hy d hd
    apply hkeep
    rcases List.mem_append.mp hy with hy | hy
    · exact hs.seen y hy d hd
    · rw [List.mem_singleton.mp hy] at hd
      rcases hneeds d hd with hdone | ⟨hactive, _⟩
      · simp [hdone]
      · simp [hactive]
  ordered := by
    intro before y after hsplit d hd hstrict
    rw [leave_log] at hsplit
    rcases eq_last_or_of_split hsplit with ⟨rfl, rfl⟩ | ⟨after', hlog⟩
    · rw [hs.mem_log]
      rcases hneeds d hd with hdone | ⟨_, hnot⟩
      · exact hdone
      · exact absurd hstrict hnot
    · exact hs.ordered before y after' hlog d hd hstrict

/-- A run keeps the log sound. -/
theorem Run.sound {s t : Search α} {xs : List α} (h : Run strict needs s xs t) :
    s.Sound strict needs → t.Sound strict needs := by
  induction h with
  | nil s => exact id
  | done _ _ ih => exact ih
  | passed _ _ _ ih => exact ih
  | @fresh s m t x ds xs hmark hds hrun _ ihInner ihRest =>
      intro hs
      apply ihRest
      apply (ihInner (hs.enter hmark)).leave
      · rw [hrun.active_iff]
        exact enter_mark_self s x
      · intro d hd
        exact hrun.visited d ((hds d).mpr hd)

/-! ## What is reached -/

theorem Run.reached {s t : Search α} {xs : List α} (h : Run strict needs s xs t) {y : α} :
    t.mark y = .done → s.mark y = .done ∨ ∃ x ∈ xs, ReflTransGen needs x y := by
  induction h with
  | nil s => exact Or.inl
  | done _ _ ih =>
      intro hy
      rcases ih hy with hy | ⟨x, hx, hreach⟩
      · exact Or.inl hy
      · exact Or.inr ⟨x, List.mem_cons_of_mem _ hx, hreach⟩
  | passed _ _ _ ih =>
      intro hy
      rcases ih hy with hy | ⟨x, hx, hreach⟩
      · exact Or.inl hy
      · exact Or.inr ⟨x, List.mem_cons_of_mem _ hx, hreach⟩
  | @fresh s m t x ds xs hmark hds _ _ ihInner ihRest =>
      intro hy
      rcases ihRest hy with hy | ⟨z, hz, hreach⟩
      · by_cases hyx : y = x
        · subst hyx
          exact Or.inr ⟨y, List.mem_cons_self, .refl⟩
        · rw [leave_mark_of_ne m hyx] at hy
          rcases ihInner hy with hy | ⟨d, hd, hreach⟩
          · rw [enter_mark_of_ne s hyx] at hy
            exact Or.inl hy
          · exact Or.inr ⟨x, List.mem_cons_self, .head ((hds d).mp hd) hreach⟩
      · exact Or.inr ⟨z, List.mem_cons_of_mem _ hz, hreach⟩

theorem Run.not_active {t : Search α} {xs : List α} (h : Run strict needs Search.empty xs t)
    (y : α) : t.mark y ≠ .active := by
  intro hy
  have := (h.active_iff y).mp hy
  cases this

/-- A search from scratch logs exactly what its list reaches. -/
theorem Run.mem_log_iff {t : Search α} {xs : List α} (h : Run strict needs Search.empty xs t)
    (y : α) : y ∈ t.log ↔ ∃ x ∈ xs, ReflTransGen needs x y := by
  have hsound := h.sound Search.empty_sound
  have hdone : ∀ z, t.mark z ≠ .unseen → z ∈ t.log := by
    intro z hz
    rw [hsound.mem_log]
    cases hmark : t.mark z with
    | unseen => exact absurd hmark hz
    | active => exact absurd hmark (h.not_active z)
    | done => rfl
  constructor
  · intro hy
    rcases h.reached ((hsound.mem_log y).mp hy) with hmark | hreach
    · cases hmark
    · exact hreach
  · rintro ⟨x, hx, hreach⟩
    induction hreach with
    | refl =>
        apply hdone
        rcases h.visited x hx with hmark | ⟨hmark, _⟩
        · simp [hmark]
        · simp [hmark]
    | tail _ hstep ih => exact hdone _ (hsound.seen _ ih _ hstep)

/-! ## Acyclic needs -/

/-- A stuck search has a strict node on a cycle of needs. -/
theorem Stuck.exists_cycle {s : Search α} {xs : List α} (h : Stuck strict needs s xs) :
    (∀ a, s.mark a = .active → ∀ x ∈ xs, TransGen needs a x) →
      ∃ x ∈ xs, ∃ y, ReflTransGen needs x y ∧ TransGen needs y y := by
  induction h with
  | @here s x xs hmark _ =>
      intro hactive
      exact ⟨x, List.mem_cons_self, x, .refl, hactive x hmark x List.mem_cons_self⟩
  | @inside s x ds xs hmark hds _ ih =>
      intro hactive
      obtain ⟨d, hd, y, hreach, hcycle⟩ := ih (by
        intro a ha d hd
        by_cases hax : a = x
        · subst hax
          exact .single (hds d hd)
        · rw [enter_mark_of_ne s hax] at ha
          exact (hactive a ha x List.mem_cons_self).tail (hds d hd))
      exact ⟨x, List.mem_cons_self, y, .head (hds d hd) hreach, hcycle⟩
  | later hrun _ ih =>
      intro hactive
      obtain ⟨x, hx, hcycle⟩ := ih (by
        intro a ha x hx
        exact hactive a ((hrun.active_iff a).mp ha) x (List.mem_append_right _ hx))
      exact ⟨x, List.mem_append_right _ hx, hcycle⟩

/-! ## What comes before a node -/

/-- What a logged node needs is logged before it, unless it needs that node back. -/
def Search.NeedsFirst (needs : α → α → Prop) (s : Search α) : Prop :=
  ∀ before x after, s.log = before ++ x :: after →
    ∀ d, needs x d → d ∈ before ∨ ReflTransGen needs d x

theorem Search.NeedsFirst.leave {s : Search α} (hs : s.NeedsFirst needs) {x : α}
    (hneeds : ∀ d, needs x d → d ∈ s.log ∨ ReflTransGen needs d x) :
    (s.leave x).NeedsFirst needs := by
  intro before y after hsplit d hd
  rw [leave_log] at hsplit
  rcases eq_last_or_of_split hsplit with ⟨rfl, rfl⟩ | ⟨after', hlog⟩
  · exact hneeds d hd
  · exact hs before y after' hlog d hd

/-- The active nodes lead to every node that is visited, so one that is passed
over needs the node it is passed over for. -/
theorem Run.needsFirst {s t : Search α} {xs : List α} (h : Run strict needs s xs t) :
    (∀ a, s.mark a = .active → ∀ x ∈ xs, ReflTransGen needs a x) →
      s.Sound strict needs → s.NeedsFirst needs → t.NeedsFirst needs := by
  induction h with
  | nil s => exact fun _ _ => id
  | done _ _ ih =>
      intro hactive hsound hfirst
      exact ih (fun a ha x hx => hactive a ha x (List.mem_cons_of_mem _ hx)) hsound hfirst
  | passed _ _ _ ih =>
      intro hactive hsound hfirst
      exact ih (fun a ha x hx => hactive a ha x (List.mem_cons_of_mem _ hx)) hsound hfirst
  | @fresh s m t x ds xs hmark hds hrun _ ihInner ihRest =>
      intro hactive hsound hfirst
      have hback : ∀ a, (s.enter x).mark a = .active → ReflTransGen needs a x := by
        intro a ha
        by_cases hax : a = x
        · rw [hax]
        · rw [enter_mark_of_ne s hax] at ha
          exact hactive a ha x List.mem_cons_self
      have hinner := ihInner (fun a ha d hd => (hback a ha).tail ((hds d).mp hd))
        (hsound.enter hmark) hfirst
      have hsoundInner := hrun.sound (hsound.enter hmark)
      have hvisited : ∀ d, needs x d → m.mark d = .done ∨ m.mark d = .active ∧ ¬strict d :=
        fun d hd => hrun.visited d ((hds d).mpr hd)
      apply ihRest
      · intro a ha y hy
        have hax : a ≠ x := by
          rintro rfl
          rw [leave_mark_self] at ha
          cases ha
        rw [leave_mark_of_ne m hax, hrun.active_iff, enter_mark_of_ne s hax] at ha
        exact hactive a ha y (List.mem_cons_of_mem _ hy)
      · apply hsoundInner.leave _ hvisited
        rw [hrun.active_iff]
        exact enter_mark_self s x
      · apply hinner.leave
        intro d hd
        rcases hvisited d hd with hdone | ⟨hpassed, _⟩
        · exact Or.inl ((hsoundInner.mem_log d).mpr hdone)
        · exact Or.inr (hback d ((hrun.active_iff d).mp hpassed))

/-- A search from scratch logs what a node needs before the node, unless the two
lie on a cycle. -/
theorem Run.mem_before {t : Search α} {xs : List α} (h : Run strict needs Search.empty xs t)
    {before after : List α} {x d : α} (hsplit : t.log = before ++ x :: after) (hneeds : needs x d)
    (hback : ¬ReflTransGen needs d x) : d ∈ before := by
  have hfirst : t.NeedsFirst needs := by
    apply h.needsFirst (fun a ha => by cases ha) Search.empty_sound
    intro before x after hnil
    simp [Search.empty] at hnil
  exact (hfirst before x after hsplit d hneeds).resolve_right hback

omit [DecidableEq α] in
/-- What is listed before a node at each step of a chain is listed before its first node. -/
theorem mem_before_of_transGen {r : α → α → Prop} {log : List α}
    (hstep : ∀ before x after, log = before ++ x :: after → ∀ d, r x d → d ∈ before) {x y : α}
    (h : TransGen r x y) : ∀ {before after : List α}, log = before ++ x :: after → y ∈ before := by
  induction h using TransGen.head_induction_on with
  | single hfirst => exact fun hsplit => hstep _ _ _ hsplit _ hfirst
  | @head x mid hfirst _ ih =>
      intro before after hsplit
      obtain ⟨front, back, hbefore⟩ := List.append_of_mem (hstep _ _ _ hsplit _ hfirst)
      have hmid : log = front ++ mid :: (back ++ x :: after) := by
        rw [hsplit, hbefore]
        simp
      rw [hbefore]
      exact List.mem_append_left _ (ih hmid)

/-- A search that stops at whatever it meets while it is active ends only where no node that
is logged needs itself. -/
theorem Run.acyclic {t : Search α} {xs : List α}
    (h : Run (fun _ => True) needs Search.empty xs t) {x : α} (hx : x ∈ t.log) :
    ¬TransGen needs x x := by
  intro hcycle
  have hsound := h.sound Search.empty_sound
  obtain ⟨before, after, hsplit⟩ := List.append_of_mem hx
  have hmem := mem_before_of_transGen
    (fun before x after hsplit d hd => hsound.ordered before x after hsplit d hd trivial) hcycle hsplit
  have hnodup := hsound.nodup
  rw [hsplit] at hnodup
  exact (List.nodup_append.mp hnodup).2.2 x hmem x List.mem_cons_self rfl

end

end Support.DepthFirst
