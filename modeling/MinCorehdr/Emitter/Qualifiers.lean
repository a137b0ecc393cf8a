import MinCorehdr.Emitter.Structure

/-!
# Where qualifiers are printed

A run of qualifiers in front of a pointer goes behind its star.  Any other run goes
in front of the whole declaration, so it reaches its level only where no pointer
stands between, and it is printed once only where nothing below prints it again.
-/

namespace MinCorehdr

open Support.CDeclaration Support.CToken

/-- The printed qualifiers are those of the level, each once. -/
def Exactly (printed own : List Qualifier) : Prop := printed.Nodup ∧ SameQualifiers printed own

/-- A pointer above the leaf. -/
def Tree.hasPtr : Tree → Bool
  | .leaf _ _ | .func _ _ _ => false
  | .ptr _ _ => true
  | .array _ t _ | .tag _ t => t.hasPtr

/-- Qualifiers that are printed in front of `t`, and belong to its next level. -/
def Tree.Fronts (qs : List Qualifier) (t : Tree) : Prop :=
  if t.hasPtr then qs = [] else List.Disjoint qs t.front

/-- Every run in front of an array or a tag that is printed there belongs to the leaf,
and nothing below prints it again. -/
def Tree.QualsPlaced : Tree → Prop
  | .leaf _ _ | .func _ _ _ => True
  | .ptr _ t => t.QualsPlaced
  | .array run t _ => t.Fronts (shown (arrayRun run t)) ∧ t.QualsPlaced
  | .tag run t => t.Fronts (shown run) ∧ t.QualsPlaced

theorem Tree.fronts_nil (t : Tree) : t.Fronts [] := by
  unfold Tree.Fronts
  split
  · rfl
  · exact List.disjoint_nil_left _

theorem mem_shown {run : List Qualifier} {q : Qualifier} : q ∈ shown run ↔ q ∈ run := by
  have hall : q ∈ [Qualifier.const, .volatile, .restrict] := by
    cases q <;> decide
  unfold shown
  rw [List.mem_filter, List.contains_iff_mem]
  exact and_iff_right hall

theorem nodup_shown (run : List Qualifier) : (shown run).Nodup :=
  List.Nodup.filter _ (by decide)

/-- What an array does not print, its elements have. -/
theorem mem_arrayRun_or {run : List Qualifier} {t : Tree} {q : Qualifier} (h : q ∈ run) :
    q ∈ shown (arrayRun run t) ∨ q ∈ t.run := by
  by_cases hmem : q ∈ t.run.take 32
  · exact Or.inr (List.mem_of_mem_take hmem)
  · left
    rw [mem_shown]
    simp [arrayRun, h, hmem]

theorem mem_of_mem_arrayRun {run : List Qualifier} {t : Tree} {q : Qualifier}
    (h : q ∈ shown (arrayRun run t)) : q ∈ run :=
  List.mem_of_mem_filter (mem_shown.mp h)

/-- The qualifiers on their way to the next level are those printed in front, or
belong to the run of the next node. -/
structure Handed (front pending : List Qualifier) (t : Tree) : Prop where
  mem_pending : ∀ q ∈ front, q ∈ pending
  mem_front_or : ∀ q ∈ pending, q ∈ front ∨ q ∈ t.run

theorem Handed.nil (t : Tree) : Handed [] [] t :=
  ⟨fun _ h => h, fun _ h => Or.inl h⟩

section

variable {t : Tree} {front pending run : List Qualifier}

theorem Handed.array {n : Nat} (h : Handed front pending (.array run t n)) :
    Handed (front ++ shown (arrayRun run t)) (pending ++ run) t := by
  constructor
  · intro q hq
    rw [List.mem_append] at hq ⊢
    exact hq.imp (h.mem_pending q) mem_of_mem_arrayRun
  · intro q hq
    have hmem : q ∈ front ∨ q ∈ run := by
      rcases List.mem_append.mp hq with hq | hq
      · exact h.mem_front_or q hq
      · exact Or.inr hq
    rcases hmem with hq | hq
    · exact Or.inl (List.mem_append_left _ hq)
    · exact (mem_arrayRun_or hq).imp_left (List.mem_append_right _)

theorem Handed.tag (h : Handed front pending (.tag run t)) :
    Handed (front ++ shown run) (pending ++ run) t := by
  constructor
  · intro q hq
    rw [List.mem_append] at hq ⊢
    exact hq.imp (h.mem_pending q) mem_shown.mp
  · intro q hq
    have hmem : q ∈ front ∨ q ∈ run := by
      rcases List.mem_append.mp hq with hq | hq
      · exact h.mem_front_or q hq
      · exact Or.inr hq
    exact Or.inl (List.mem_append.mpr (hmem.imp_right mem_shown.mpr))

end

theorem noFunction_qualify (qs : List Qualifier) :
    ∀ t : CType, (t.qualify qs).NoFunction ↔ t.NoFunction
  | .base _ _ | .ptr _ _ | .func _ _ _ => Iff.rfl
  | .array t _ => noFunction_qualify qs t

/-- Nothing foreign stands in front of a chain that shows its own qualifiers. -/
theorem foreign_eq_nil : ∀ (t : Tree), t.meaning.NoFunction →
    ∀ foreign front pending : List Qualifier, Handed front pending t →
      t.Placed Exactly (foreign ++ front) pending → foreign = []
  | .leaf run _, _, foreign, front, pending, hhanded, h => by
      obtain ⟨hnodup, hsame⟩ := h
      rw [List.eq_nil_iff_forall_not_mem]
      intro q hq
      have hown : q ∈ pending ++ run :=
        (hsame q).mp (List.mem_append_left _ (List.mem_append_left _ hq))
      have hagain : q ∈ front ++ shown run := by
        rcases List.mem_append.mp hown with hq' | hq'
        · rcases hhanded.mem_front_or q hq' with hq' | hq'
          · exact List.mem_append_left _ hq'
          · exact List.mem_append_right _ (mem_shown.mpr hq')
        · exact List.mem_append_right _ (mem_shown.mpr hq')
      rw [List.append_assoc] at hnodup
      exact (List.nodup_append.mp hnodup).2.2 q hq q hagain rfl
  | .ptr _ t, hchain, foreign, front, _, _, h => by
      have hbelow : t.Placed Exactly (foreign ++ front ++ []) [] := by
        rw [List.append_nil]
        exact h.2
      have hnone := foreign_eq_nil t hchain (foreign ++ front) [] [] (Handed.nil t) hbelow
      exact (List.append_eq_nil_iff.mp hnone).1
  | .array run t _, hchain, foreign, front, pending, hhanded, h => by
      have hbelow : t.Placed Exactly (foreign ++ front ++ shown (arrayRun run t)) (pending ++ run) := h
      rw [List.append_assoc] at hbelow
      exact foreign_eq_nil t ((noFunction_qualify run _).mp hchain) _ _ _ hhanded.array hbelow
  | .tag run t, hchain, foreign, front, pending, hhanded, h => by
      have hbelow : t.Placed Exactly (foreign ++ front ++ shown run) (pending ++ run) := h
      rw [List.append_assoc] at hbelow
      exact foreign_eq_nil t ((noFunction_qualify run _).mp hchain) _ _ _ hhanded.tag hbelow

/-- What is printed in front goes on below, with what the next node prints in front. -/
theorem fronts_append {t : Tree} {front qs : List Qualifier} (hqs : qs.Nodup) :
    (front ++ qs).Nodup ∧ t.Fronts (front ++ qs) ↔
      front.Nodup ∧ (if t.hasPtr then front = [] else List.Disjoint front (qs ++ t.front)) ∧
        t.Fronts qs := by
  unfold Tree.Fronts
  rw [List.nodup_append']
  cases t.hasPtr with
  | true =>
      simp only [if_true, List.append_eq_nil_iff]
      constructor
      · rintro ⟨⟨hnodup, _, _⟩, rfl, rfl⟩
        exact ⟨hnodup, rfl, rfl⟩
      · rintro ⟨_, rfl, rfl⟩
        exact ⟨⟨List.nodup_nil, List.nodup_nil, List.disjoint_nil_left _⟩, rfl, rfl⟩
  | false =>
      simp only [Bool.false_eq_true, if_false, List.disjoint_append_left, List.disjoint_append_right]
      constructor
      · rintro ⟨⟨hnodup, _, hqs'⟩, hfront, hown⟩
        exact ⟨hnodup, ⟨hqs', hfront⟩, hown⟩
      · rintro ⟨hnodup, ⟨hqs', hfront⟩, hown⟩
        exact ⟨⟨hnodup, hqs, hqs'⟩, hfront, hown⟩

/-- A chain shows its own qualifiers exactly where its runs are placed, and what comes
from above is not printed below again. -/
theorem placed_iff : ∀ (t : Tree), t.meaning.NoFunction →
    ∀ front pending : List Qualifier, Handed front pending t →
      (t.Placed Exactly front pending ↔ (front.Nodup ∧ t.Fronts front) ∧ t.QualsPlaced)
  | .leaf run _, _, front, pending, hhanded => by
      have hsame : SameQualifiers (front ++ shown run) (pending ++ run) := by
        intro q
        rw [List.mem_append, List.mem_append, mem_shown]
        constructor
        · exact Or.imp_left (hhanded.mem_pending q)
        · rintro (hq | hq)
          · exact hhanded.mem_front_or q hq
          · exact Or.inr hq
      change (front ++ shown run).Nodup ∧ _ ↔ (front.Nodup ∧ List.Disjoint front (shown run)) ∧ True
      rw [List.nodup_append', and_true, and_iff_left hsame]
      constructor
      · rintro ⟨hnodup, _, hdisjoint⟩
        exact ⟨hnodup, hdisjoint⟩
      · rintro ⟨hnodup, hdisjoint⟩
        exact ⟨hnodup, nodup_shown run, hdisjoint⟩
  | .ptr run t, hchain, front, pending, hhanded => by
      have hbelow := placed_iff t hchain [] [] (Handed.nil t)
      change Exactly (shown run) (pending ++ run) ∧ t.Placed Exactly front [] ↔
        (front.Nodup ∧ front = []) ∧ t.QualsPlaced
      constructor
      · rintro ⟨_, hplaced⟩
        have hfront : front = [] := by
          refine foreign_eq_nil t hchain front [] [] (Handed.nil t) ?_
          rw [List.append_nil]
          exact hplaced
        subst hfront
        exact ⟨⟨List.nodup_nil, rfl⟩, (hbelow.mp hplaced).2⟩
      · rintro ⟨⟨_, rfl⟩, hquals⟩
        refine ⟨⟨nodup_shown run, ?_⟩, hbelow.mpr ⟨⟨List.nodup_nil, t.fronts_nil⟩, hquals⟩⟩
        intro q
        rw [mem_shown, List.mem_append]
        constructor
        · exact Or.inr
        · rintro (hq | hq)
          · exact (hhanded.mem_front_or q hq).resolve_left (List.not_mem_nil)
          · exact hq
  | .array run t _, hchain, front, pending, hhanded => by
      have hbelow := placed_iff t ((noFunction_qualify run _).mp hchain) _ _ hhanded.array
      rw [fronts_append (nodup_shown _), and_assoc, and_assoc] at hbelow
      exact hbelow.trans and_assoc.symm
  | .tag run t, hchain, front, pending, hhanded => by
      have hbelow := placed_iff t ((noFunction_qualify run _).mp hchain) _ _ hhanded.tag
      rw [fronts_append (nodup_shown _), and_assoc, and_assoc] at hbelow
      exact hbelow.trans and_assoc.symm

theorem readable_of_noFunction : ∀ t : CType, t.NoFunction → t.FixedParams ∧ t.ReturnsPointers
  | .base _ _, _ => ⟨trivial, trivial⟩
  | .ptr _ t, h => readable_of_noFunction t h
  | .array t _, h => readable_of_noFunction t h

/-- A printed chain shows each level's qualifiers once, and no others, exactly where
every run that is printed in front of the declaration belongs to the leaf and is not
printed there again. -/
theorem emitDeclEx_qualifiers_iff {ctx : EmitCtx} {fuel id : Nat} {name : CString}
    {pieces : List Piece} {t : Tree} {type : CType}
    (h : emitDeclEx ctx fuel id name = .ok pieces) (hnames : ctx.btf.NamesAreIdentifiers)
    (hname : isIdentifier name = true) (htree : treeOf ctx fuel id = some t)
    (hmeans : Means ctx id type) (hchain : type.NoFunction) :
    Declares Exactly (lex (declText pieces)) name type ↔ t.QualsPlaced := by
  have hdeclares := declares_iff h hnames hname htree hmeans Exactly
  obtain ⟨_, rfl⟩ := (treeOf_tellsMeaning ctx fuel id t htree type).mp hmeans
  obtain ⟨hfixed, hreturns⟩ := readable_of_noFunction _ hchain
  have hplaced := placed_iff t hchain [] [] (Handed.nil t)
  rw [hdeclares, hplaced]
  constructor
  · exact fun hall => hall.2.2.2
  · exact fun hquals => ⟨hfixed, hreturns, ⟨List.nodup_nil, t.fronts_nil⟩, hquals⟩

/-- Type 5 is `volatile int *const [2]`; type 9 is an array of arrays whose elements
have their `const` twice in the table, as compilers put it there. -/
def qualified : Btf where
  types := [
    { nameOff := 1, kind := .int, size := 4, intInfo := 0x01000020 },
    { kind := .volatile, type := 1 },
    { kind := .ptr, type := 2 },
    { kind := .const, type := 3 },
    { kind := .array, array := { type := 4, indexType := 1, nelems := 2 } },
    { kind := .const, type := 1 },
    { kind := .array, array := { type := 6, indexType := 1, nelems := 3 } },
    { kind := .array, array := { type := 7, indexType := 1, nelems := 2 } },
    { kind := .const, type := 8 }]
  strs := "\x00int\x00".toList

theorem emitDeclEx_qualifiers_qualified :
    Declares Exactly (lex "volatile int * const x[2]".toList) ['x']
      (.array (.ptr [.const] (.base [.volatile] [.word "int".toList])) 2) := by
  have htree : treeOf (emitCtx qualified none) 10 5 =
      some (.array [] (.ptr [.const] (.leaf [.volatile] "int".toList)) 2) := rfl
  have hprints : emitDeclEx (emitCtx qualified none) 10 5 ['x'] =
      .ok [.text "volatile ".toList, .text "int * const x[2]".toList] := by rfl
  have hmeans : Means (emitCtx qualified none) 5
      (.array (.ptr [.const] (.base [.volatile] [.word "int".toList])) 2) :=
    (treeOf_tellsMeaning _ 10 5 _ htree _).mpr ⟨trivial, rfl⟩
  refine (emitDeclEx_qualifiers_iff hprints (by decide) (by decide) htree hmeans trivial).mpr ?_
  exact ⟨rfl, trivial⟩

/-- The elements of an array within an array are qualified by both. -/
theorem qualified_not_declares :
    ∃ pieces, emitDeclEx (emitCtx qualified none) 10 9 ['x'] = .ok pieces ∧
      declText pieces = "const const int x[2][3]".toList ∧
        Means (emitCtx qualified none) 9
            (.array (.array (.base [.const, .const] [.word "int".toList]) 3) 2) ∧
          ¬Declares Exactly (lex (declText pieces)) ['x']
            (.array (.array (.base [.const, .const] [.word "int".toList]) 3) 2) := by
  have htree : treeOf (emitCtx qualified none) 10 9 =
      some (.array [.const] (.array [] (.leaf [.const] "int".toList) 3) 2) := rfl
  have hmeans : Means (emitCtx qualified none) 9
      (.array (.array (.base [.const, .const] [.word "int".toList]) 3) 2) :=
    (treeOf_tellsMeaning _ 10 9 _ htree _).mpr ⟨trivial, rfl⟩
  refine ⟨_, rfl, rfl, hmeans, ?_⟩
  rw [declares_iff rfl (by decide) (by decide) htree hmeans]
  rintro ⟨_, _, hnodup, _⟩
  revert hnodup
  decide

end MinCorehdr
