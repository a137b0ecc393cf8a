import Mathlib.Data.List.Forall2

/-!
# Readings one behind the other

A reader takes a reading off the front of a text and leaves the rest.  Where the parts of
a text are read alone, whatever follows them, the text is read part by part.
-/

namespace Support.Sequence

variable {τ α β : Type}

/-- The text consists of these readings, one behind the other. -/
inductive ReadsAll (P : List τ → α → List τ → Prop) : List τ → List α → Prop
  | nil : ReadsAll P [] []
  | cons {ts rest : List τ} {a : α} {as : List α} :
      P ts a rest → ReadsAll P rest as → ReadsAll P ts (a :: as)

/-- What can be read where `ok` holds, in one way, with the meaning `means`. -/
structure Reading (reads : α → Prop) (ok : Prop) (means : α → Prop) : Prop where
  readable_iff : (∃ a, reads a) ↔ ok
  sound : ∀ a, reads a → means a
  unique : ∀ a a', reads a → reads a' → a = a'

/-- What is read as `a₀` or not at all. -/
theorem Reading.of_iff {reads : α → Prop} {ok ok' : Prop} {means : α → Prop} {a₀ : α}
    (h : ∀ a, reads a ↔ ok ∧ a = a₀) (hok : ok ↔ ok') (hmeans : ok → means a₀) :
    Reading reads ok' means where
  readable_iff := by
    simp only [h, exists_and_left, exists_eq, and_true]
    exact hok
  sound := by
    intro a ha
    obtain ⟨hok, rfl⟩ := (h a).mp ha
    exact hmeans hok
  unique := fun a a' ha ha' => ((h a).mp ha).2.trans ((h a').mp ha').2.symm

/-- The part is read alone, whatever follows it. -/
structure SelfDelimiting (P : List τ → α → List τ → Prop) (part : List τ) : Prop where
  ne_nil : part ≠ []
  read_iff : ∀ {rest : List τ} {a : α} {rest' : List τ},
    P (part ++ rest) a rest' ↔ P part a [] ∧ rest' = rest

section

variable {P : List τ → α → List τ → Prop}

/-- What a part is read as, from what it is read as with anything behind it. -/
theorem SelfDelimiting.of_iff {part : List τ} {Q : α → Prop} (hne : part ≠ [])
    (h : ∀ (rest : List τ) (a : α) (rest' : List τ), P (part ++ rest) a rest' ↔ Q a ∧ rest' = rest) :
    SelfDelimiting P part ∧ ∀ a, P part a [] ↔ Q a := by
  have halone : ∀ a, P part a [] ↔ Q a := by
    intro a
    have hread := h [] a []
    rw [List.append_nil] at hread
    rw [hread]
    exact and_iff_left rfl
  refine ⟨⟨hne, ?_⟩, halone⟩
  intro rest a rest'
  rw [h, halone]

theorem readsAll_nil_iff (hnil : ∀ a rest, ¬P [] a rest) {as : List α} :
    ReadsAll P [] as ↔ as = [] := by
  constructor
  · intro hread
    cases hread with
    | nil => rfl
    | cons hfirst _ => exact absurd hfirst (hnil _ _)
  · rintro rfl
    exact .nil

/-- The readings of a text that starts with such a part. -/
theorem SelfDelimiting.readsAll_append_iff {part ts : List τ} (h : SelfDelimiting P part)
    {as : List α} :
    ReadsAll P (part ++ ts) as ↔ ∃ a more, as = a :: more ∧ P part a [] ∧ ReadsAll P ts more := by
  constructor
  · intro hread
    generalize htext : part ++ ts = text at hread
    cases hread with
    | nil => exact absurd (List.append_eq_nil_iff.mp htext).1 h.ne_nil
    | cons hfirst hmore =>
        rw [← htext] at hfirst
        obtain ⟨hown, rfl⟩ := h.read_iff.mp hfirst
        exact ⟨_, _, rfl, hown, hmore⟩
  · rintro ⟨a, more, rfl, hown, hmore⟩
    exact .cons (h.read_iff.mpr ⟨hown, rfl⟩) hmore

/-- What is known of each part is known of the whole. -/
theorem Reading.readsAll (hnil : ∀ a rest, ¬P [] a rest) {ok : β → Prop} {means : β → α → Prop}
    {bs : List β} {parts : List (List τ)}
    (h : List.Forall₂ (fun b part => SelfDelimiting P part ∧
      Reading (fun a => P part a []) (ok b) (means b)) bs parts) :
    Reading (ReadsAll P parts.flatten) (∀ b ∈ bs, ok b) (List.Forall₂ means bs) := by
  induction h with
  | nil =>
      have hempty : ∀ as, ReadsAll P [] as ↔ as = [] := fun as => readsAll_nil_iff hnil
      refine ⟨?_, ?_, ?_⟩
      · simp [hempty]
      · intro as has
        rw [(hempty as).mp has]
        exact .nil
      · intro as as' has has'
        rw [(hempty as).mp has, (hempty as').mp has']
  | @cons b part bs parts hhead _ ih =>
      obtain ⟨hpart, hreading⟩ := hhead
      rw [List.flatten_cons]
      refine ⟨?_, ?_, ?_⟩
      · rw [List.forall_mem_cons, ← hreading.readable_iff, ← ih.readable_iff]
        simp only [hpart.readsAll_append_iff]
        constructor
        · rintro ⟨_, a, more, rfl, hown, hmore⟩
          exact ⟨⟨a, hown⟩, more, hmore⟩
        · rintro ⟨⟨a, hown⟩, more, hmore⟩
          exact ⟨_, a, more, rfl, hown, hmore⟩
      · intro as has
        obtain ⟨a, more, rfl, hown, hmore⟩ := hpart.readsAll_append_iff.mp has
        exact .cons (hreading.sound a hown) (ih.sound more hmore)
      · intro as as' has has'
        obtain ⟨a, more, rfl, hown, hmore⟩ := hpart.readsAll_append_iff.mp has
        obtain ⟨a', more', rfl, hown', hmore'⟩ := hpart.readsAll_append_iff.mp has'
        rw [hreading.unique a a' hown hown', ih.unique more more' hmore hmore']

end

end Support.Sequence
