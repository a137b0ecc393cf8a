import Mathlib.Data.Set.Basic

/-!
# Logs that enter each key once

Parties ask for keys one after another, and a log takes an entry for a key when it is asked
for the first time.  What the log holds then says for each key who asked for it first.
-/

namespace Support.FirstAsked

variable {κ ο τ : Type}

/-- What one party asks for. -/
structure Ask (κ ο : Type) where
  origin : ο
  keys : Set κ

/-- The keys that are held when the asks have been answered. -/
def heldAfter (held : Set κ) (asks : List (Ask κ ο)) : Set κ :=
  { key | key ∈ held ∨ ∃ ask ∈ asks, key ∈ ask.keys }

/-- The log of the asks in a row, each with the entries for its new keys. -/
inductive Logs (entry : ο → κ → τ) (keyOf : τ → κ) : Set κ → List (Ask κ ο) → List τ → Prop
  | nil {held : Set κ} : Logs entry keyOf held [] []
  | cons {held : Set κ} {ask : Ask κ ο} {asks : List (Ask κ ο)} {entries rest : List τ}
      (hentry : ∀ e ∈ entries, e = entry ask.origin (keyOf e))
      (hnodup : (entries.map keyOf).Nodup)
      (hkeys : ∀ key, key ∈ entries.map keyOf ↔ key ∈ ask.keys ∧ key ∉ held)
      (hrest : Logs entry keyOf (heldAfter held [ask]) asks rest) :
      Logs entry keyOf held (ask :: asks) (entries ++ rest)

/-- The entry is that of the first ask for its key. -/
def EnteredFirst (entry : ο → κ → τ) (keyOf : τ → κ) (asks : List (Ask κ ο)) (e : τ) : Prop :=
  ∃ earlier ask later, asks = earlier ++ ask :: later ∧ keyOf e ∈ ask.keys ∧
    (∀ other ∈ earlier, keyOf e ∉ other.keys) ∧ e = entry ask.origin (keyOf e)

variable {entry : ο → κ → τ} {keyOf : τ → κ}

theorem heldAfter_nil (held : Set κ) : heldAfter held ([] : List (Ask κ ο)) = held := by
  ext key
  simp [heldAfter]

theorem heldAfter_append (held : Set κ) (asks asks' : List (Ask κ ο)) :
    heldAfter held (asks ++ asks') = heldAfter (heldAfter held asks) asks' := by
  ext key
  simp only [heldAfter, List.mem_append, Set.mem_ofPred_eq, or_and_right, exists_or, or_assoc]

theorem Logs.single {held : Set κ} {ask : Ask κ ο} {entries : List τ}
    (hentry : ∀ e ∈ entries, e = entry ask.origin (keyOf e)) (hnodup : (entries.map keyOf).Nodup)
    (hkeys : ∀ key, key ∈ entries.map keyOf ↔ key ∈ ask.keys ∧ key ∉ held) :
    Logs entry keyOf held [ask] entries := by
  have hlogs := Logs.cons hentry hnodup hkeys Logs.nil
  rw [List.append_nil] at hlogs
  exact hlogs

theorem Logs.append {held : Set κ} {asks asks' : List (Ask κ ο)} {log log' : List τ}
    (h : Logs entry keyOf held asks log) (h' : Logs entry keyOf (heldAfter held asks) asks' log') :
    Logs entry keyOf held (asks ++ asks') (log ++ log') := by
  induction h with
  | nil =>
      rw [heldAfter_nil] at h'
      exact h'
  | @cons held ask asks entries rest hentry hnodup hkeys _ ih =>
      rw [List.cons_append, List.append_assoc]
      refine .cons hentry hnodup hkeys (ih ?_)
      rw [← heldAfter_append]
      exact h'

/-- A log holds the entry of the first ask for each key that was not held before. -/
theorem Logs.mem_iff {held : Set κ} {asks : List (Ask κ ο)} {log : List τ}
    (h : Logs entry keyOf held asks log) (e : τ) :
    e ∈ log ↔ keyOf e ∉ held ∧ EnteredFirst entry keyOf asks e := by
  induction h with
  | nil => simp [EnteredFirst]
  | @cons held ask asks entries rest hentry _ hkeys _ ih =>
      rw [List.mem_append, ih]
      have hfirst : e ∈ entries ↔
          keyOf e ∉ held ∧ keyOf e ∈ ask.keys ∧ e = entry ask.origin (keyOf e) := by
        constructor
        · intro he
          have hkey := (hkeys (keyOf e)).mp (List.mem_map_of_mem he)
          exact ⟨hkey.2, hkey.1, hentry e he⟩
        · rintro ⟨hnew, hasked, heq⟩
          obtain ⟨found, hfound, hsame⟩ := List.mem_map.mp ((hkeys (keyOf e)).mpr ⟨hasked, hnew⟩)
          have hown := hentry found hfound
          rw [hsame, ← heq] at hown
          exact hown ▸ hfound
      constructor
      · rintro (he | ⟨hnew, earlier, other, later, rfl, hasked, hbefore, heq⟩)
        · obtain ⟨hnew, hasked, heq⟩ := hfirst.mp he
          exact ⟨hnew, [], ask, asks, rfl, hasked, by simp, heq⟩
        · have hapart : keyOf e ∉ held ∧ keyOf e ∉ ask.keys := by
            simpa [heldAfter] using hnew
          refine ⟨hapart.1, ask :: earlier, other, later, rfl, hasked, ?_, heq⟩
          exact List.forall_mem_cons.mpr ⟨hapart.2, hbefore⟩
      · rintro ⟨hnew, earlier, other, later, hasks, hasked, hbefore, heq⟩
        cases earlier with
        | nil =>
            obtain ⟨rfl, rfl⟩ := List.cons.inj hasks
            exact Or.inl (hfirst.mpr ⟨hnew, hasked, heq⟩)
        | cons first earlier =>
            obtain ⟨rfl, rfl⟩ := List.cons.inj hasks
            obtain ⟨hhead, hbefore⟩ := List.forall_mem_cons.mp hbefore
            refine Or.inr ⟨?_, earlier, other, later, rfl, hasked, hbefore, heq⟩
            simpa [heldAfter] using ⟨hnew, hhead⟩

/-- A log has at most one entry for a key, and none for a key that was held before. -/
theorem Logs.nodup {held : Set κ} {asks : List (Ask κ ο)} {log : List τ}
    (h : Logs entry keyOf held asks log) :
    (log.map keyOf).Nodup ∧ ∀ key ∈ log.map keyOf, key ∉ held := by
  induction h with
  | nil => simp
  | @cons held ask asks entries rest _ hnodup hkeys _ ih =>
      obtain ⟨hrest, hnew⟩ := ih
      have hapart : ∀ key ∈ rest.map keyOf, key ∉ held ∧ key ∉ ask.keys := fun key hkey => by
        simpa [heldAfter] using hnew key hkey
      rw [List.map_append]
      constructor
      · refine List.nodup_append.mpr ⟨hnodup, hrest, fun key hkey other hother heq => ?_⟩
        exact (hapart other hother).2 (heq ▸ ((hkeys key).mp hkey).1)
      · intro key hkey
        rcases List.mem_append.mp hkey with hkey | hkey
        · exact ((hkeys key).mp hkey).2
        · exact (hapart key hkey).1

end Support.FirstAsked
