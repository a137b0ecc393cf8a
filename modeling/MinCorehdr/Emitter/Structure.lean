import MinCorehdr.Emitter.Header
import MinCorehdr.Emitter.Meaning

/-!
# The structure of a printed type

A printed declaration is read with the structure of its type where every function
returns pointers to a leaf.  The printer writes the type a function returns in a
call of its own, with nothing for a declarator, so what stands around the name
stays outside any array or parameter list of that type.
-/

namespace MinCorehdr

open Support.CDeclaration Support.CToken

/-! ## Trees that are read back -/

mutual

/-- Each level of the type shows the qualifiers it has, with `front` printed in front
of the whole and `pending` handed down by arrays and tags. -/
def Tree.Placed (level : List Qualifier → List Qualifier → Prop) :
    Tree → List Qualifier → List Qualifier → Prop
  | .leaf run _, front, pending => level (front ++ shown run) (pending ++ run)
  | .ptr run t, front, pending => level (shown run) (pending ++ run) ∧ t.Placed level front []
  | .array run t _, front, pending =>
      t.Placed level (front ++ shown (arrayRun run t)) (pending ++ run)
  | .tag run t, front, pending => t.Placed level (front ++ shown run) (pending ++ run)
  | .func run t ps, front, _ => t.Placed level (front ++ shown run) [] ∧ ps.Placed level

def TreeParams.Placed (level : List Qualifier → List Qualifier → Prop) : TreeParams → Prop
  | .nil => True
  | .void _ ps => ps.Placed level
  | .cons _ t ps => t.Placed level [] [] ∧ ps.Placed level

end

theorem pointersOnly_qualify (qs : List Qualifier) (t : CType) :
    (t.qualify qs).PointersOnly ↔ t.PointersOnly := by
  cases t with
  | base _ _ | ptr _ _ | array _ _ | func _ _ _ => exact Iff.rfl

theorem fixedParams_qualify (qs : List Qualifier) :
    ∀ t : CType, (t.qualify qs).FixedParams ↔ t.FixedParams
  | .base _ _ | .ptr _ _ | .func _ _ _ => Iff.rfl
  | .array t _ => fixedParams_qualify qs t

theorem returnsPointers_qualify (qs : List Qualifier) :
    ∀ t : CType, (t.qualify qs).ReturnsPointers ↔ t.ReturnsPointers
  | .base _ _ | .ptr _ _ | .func _ _ _ => Iff.rfl
  | .array t _ => returnsPointers_qualify qs t

theorem Tree.starLeaf_iff : ∀ t : Tree, t.StarLeaf ↔ t.meaning.PointersOnly
  | .leaf _ _ | .array _ _ _ | .func _ _ _ => Iff.rfl
  | .ptr _ t => t.starLeaf_iff
  | .tag run t => t.starLeaf_iff.trans (pointersOnly_qualify run t.meaning).symm

/-- Pointers to a leaf have no parameter list. -/
theorem Tree.StarLeaf.sound : ∀ {t : Tree}, t.StarLeaf →
    t.HasMeaning ∧ t.meaning.FixedParams
  | .leaf _ _, _ => ⟨trivial, trivial⟩
  | .ptr _ t, h => @sound t h
  | .tag run t, h => ⟨(@sound t h).1, (fixedParams_qualify run t.meaning).mpr (@sound t h).2⟩

mutual

theorem Tree.readable_iff : ∀ t : Tree,
    t.Readable ↔ t.HasMeaning ∧ t.meaning.FixedParams ∧ t.meaning.ReturnsPointers
  | .leaf _ _ => by simp [Tree.Readable, Tree.HasMeaning, Tree.meaning, CType.FixedParams,
      CType.ReturnsPointers]
  | .ptr _ t => t.readable_iff
  | .array run t _ => by
      have ht := t.readable_iff
      rw [← fixedParams_qualify run, ← returnsPointers_qualify run] at ht
      exact ht
  | .tag run t => by
      have ht := t.readable_iff
      rw [← fixedParams_qualify run, ← returnsPointers_qualify run] at ht
      exact ht
  | .func _ t ps => by
      have hps := ps.readable_iff true
      have hsound := @Tree.StarLeaf.sound t
      change t.StarLeaf ∧ ps.Readable true ↔ (t.HasMeaning ∧ ps.HasMeaning true) ∧
        (t.meaning.FixedParams ∧ ps.meaning.EachFixed ∧ ps.isVariadic true = false) ∧
          t.meaning.PointersOnly ∧ ps.meaning.EachReturnsPointers
      rw [hps, ← t.starLeaf_iff]
      constructor
      · rintro ⟨hstar, hmeaning, hfixed, hvariadic, hreturns⟩
        obtain ⟨htmeaning, htfixed⟩ := hsound hstar
        exact ⟨⟨htmeaning, hmeaning⟩, ⟨htfixed, hfixed, hvariadic⟩, hstar, hreturns⟩
      · rintro ⟨⟨_, hmeaning⟩, ⟨_, hfixed, hvariadic⟩, hstar, hreturns⟩
        exact ⟨hstar, hmeaning, hfixed, hvariadic, hreturns⟩

theorem TreeParams.readable_iff : ∀ (ps : TreeParams) (first : Bool), ps.Readable first ↔
    ps.HasMeaning first ∧ ps.meaning.EachFixed ∧ ps.isVariadic first = false ∧
      ps.meaning.EachReturnsPointers
  | .nil, first => by simp [TreeParams.Readable, TreeParams.HasMeaning, TreeParams.meaning,
      TreeParams.isVariadic, CParams.EachFixed, CParams.EachReturnsPointers]
  | .void name ps, first => by
      have hnil : ps.isNil = true → ps.meaning = .nil := by
        intro hnil
        cases ps with
        | nil => rfl
        | void _ _ => cases hnil
        | cons _ _ _ => cases hnil
      change first = true ∧ ps.isNil = true ↔ (ps.isNil = true ∧ (first = true ∨ name = [])) ∧
        ps.meaning.EachFixed ∧ (!first) = false ∧ ps.meaning.EachReturnsPointers
      constructor
      · rintro ⟨rfl, hisNil⟩
        rw [hnil hisNil]
        exact ⟨⟨hisNil, Or.inl rfl⟩, trivial, rfl, trivial⟩
      · rintro ⟨⟨hisNil, _⟩, _, hfirst, _⟩
        exact ⟨by simpa using hfirst, hisNil⟩
  | .cons _ t ps, first => by
      have ht := t.readable_iff
      have hps := ps.readable_iff false
      change t.Readable ∧ ps.Readable false ↔ (t.HasMeaning ∧ ps.HasMeaning false) ∧
        (t.meaning.FixedParams ∧ ps.meaning.EachFixed) ∧ ps.isVariadic false = false ∧
          t.meaning.ReturnsPointers ∧ ps.meaning.EachReturnsPointers
      rw [ht, hps]
      constructor
      · rintro ⟨⟨hm, hf, hr⟩, hm', hf', hv', hr'⟩
        exact ⟨⟨hm, hm'⟩, ⟨hf, hf'⟩, hv', hr, hr'⟩
      · rintro ⟨⟨hm, hm'⟩, ⟨hf, hf'⟩, hv', hr, hr'⟩
        exact ⟨⟨hm, hf, hr⟩, hm', hf', hv', hr'⟩

end

/-! ## Printed types and meanings -/

section

variable (level : List Qualifier → List Qualifier → Prop)

mutual

theorem Tree.matches_iff : ∀ (t : Tree), t.meaning.FixedParams →
    ∀ front pending : List Qualifier,
      ((t.printed (front ++ t.front)).Matches level (t.meaning.qualify pending) ↔
        t.Placed level front pending)
  | .leaf _ _, _, _, _ => by
      change _ ∧ lex _ = lex _ ↔ _
      exact and_iff_left rfl
  | .ptr _ t, h, front, _ => by
      have ht := t.matches_iff h front []
      rw [CType.qualify_nil] at ht
      exact and_congr_right fun _ => ht
  | .array run t _, h, front, pending => by
      have hfixed := (fixedParams_qualify run t.meaning).mp h
      have ht := t.matches_iff hfixed (front ++ shown (arrayRun run t)) (pending ++ run)
      rw [List.append_assoc, CType.qualify_append] at ht
      change _ ∧ _ = _ ↔ _
      exact (and_iff_left rfl).trans ht
  | .tag run t, h, front, pending => by
      have hfixed := (fixedParams_qualify run t.meaning).mp h
      have ht := t.matches_iff hfixed (front ++ shown run) (pending ++ run)
      rw [List.append_assoc, CType.qualify_append] at ht
      exact ht
  | .func run t ps, h, front, _ => by
      obtain ⟨hfixed, hparams, hvariadic⟩ := h
      have ht := t.matches_iff hfixed (front ++ shown run) []
      have hps := ps.matches_iff hparams
      rw [List.append_assoc, CType.qualify_nil] at ht
      change _ ∧ _ ∧ false = ps.isVariadic true ↔ _
      rw [hvariadic]
      exact and_congr ht ((and_iff_left rfl).trans hps)

theorem TreeParams.matches_iff : ∀ (ps : TreeParams), ps.meaning.EachFixed →
    (ps.printed.Matches level ps.meaning ↔ ps.Placed level)
  | .nil, _ => Iff.rfl
  | .void _ ps, h => ps.matches_iff h
  | .cons _ t ps, h => by
      have ht := t.matches_iff h.1 [] []
      have hps := ps.matches_iff h.2
      rw [List.nil_append, CType.qualify_nil] at ht
      change _ = _ ∧ _ ∧ _ ↔ _
      exact (and_iff_right rfl).trans (and_congr ht hps)

end

end

/-! ## Reading what was printed -/

section

variable {ctx : EmitCtx} {fuel id : Nat} {name : CString} {pieces : List Piece} {t : Tree}
  {type : CType}

/-- What a printed declaration is read as. -/
theorem declares_iff (h : emitDeclEx ctx fuel id name = .ok pieces)
    (hnames : ctx.btf.NamesAreIdentifiers) (hname : isIdentifier name = true)
    (htree : treeOf ctx fuel id = some t) (hmeans : Means ctx id type)
    (level : List Qualifier → List Qualifier → Prop) :
    Declares level (lex (declText pieces)) name type ↔
      type.FixedParams ∧ type.ReturnsPointers ∧ t.Placed level [] [] := by
  have hwell := treeOf_wellNamed hnames fuel id t htree
  have hread := emitDeclEx_declaration_iff h htree hwell hname
  obtain ⟨hmeaning, rfl⟩ := (treeOf_tellsMeaning ctx fuel id t htree type).mp hmeans
  have hreadable := t.readable_iff
  constructor
  · rintro ⟨⟨read, hdecl⟩, hall⟩
    obtain ⟨_, hmatches⟩ := hall name read hdecl
    obtain ⟨hyes, _, rfl⟩ := (hread name read).mp hdecl
    obtain ⟨_, hfixed, hreturns⟩ := hreadable.mp hyes
    have hplaced := t.matches_iff level hfixed [] []
    rw [List.nil_append, CType.qualify_nil] at hplaced
    exact ⟨hfixed, hreturns, hplaced.mp hmatches⟩
  · rintro ⟨hfixed, hreturns, hplaced⟩
    have hmatches := t.matches_iff level hfixed [] []
    rw [List.nil_append, CType.qualify_nil] at hmatches
    have hyes := hreadable.mpr ⟨hmeaning, hfixed, hreturns⟩
    refine ⟨⟨_, (hread name _).mpr ⟨hyes, rfl, rfl⟩⟩, ?_⟩
    intro name' read hdecl
    obtain ⟨_, hsame, rfl⟩ := (hread name' read).mp hdecl
    exact ⟨hsame, hmatches.mpr hplaced⟩

end

mutual

/-- Where qualifiers do not count, they are placed anywhere. -/
theorem Tree.placed_any : ∀ (t : Tree) (front pending : List Qualifier),
    t.Placed (fun _ _ => True) front pending
  | .leaf _ _, _, _ => trivial
  | .ptr _ t, front, _ => ⟨trivial, t.placed_any front []⟩
  | .array _ t _, _, _ => t.placed_any _ _
  | .tag _ t, _, _ => t.placed_any _ _
  | .func _ t ps, _, _ => ⟨t.placed_any _ [], ps.placed_any⟩

theorem TreeParams.placed_any : ∀ ps : TreeParams, ps.Placed fun _ _ => True
  | .nil => trivial
  | .void _ ps => ps.placed_any
  | .cons _ t ps => ⟨t.placed_any [] [], ps.placed_any⟩

end

/-- A printed declaration with fixed parameters is read with the structure of its type
exactly where every function returns pointers to a leaf. -/
theorem emitDeclEx_structure_iff {ctx : EmitCtx} {fuel id : Nat} {name : CString}
    {pieces : List Piece} {type : CType} (h : emitDeclEx ctx fuel id name = .ok pieces)
    (hnames : ctx.btf.NamesAreIdentifiers) (hname : isIdentifier name = true)
    (hmeans : Means ctx id type) (hfixed : type.FixedParams) :
    Declares (fun _ _ => True) (lex (declText pieces)) name type ↔ type.ReturnsPointers := by
  obtain ⟨t, htree, _⟩ := emitDeclEx_text ctx fuel id name pieces h
  rw [declares_iff h hnames hname htree hmeans]
  constructor
  · exact fun hall => hall.2.1
  · exact fun hreturns => ⟨hfixed, hreturns, t.placed_any [] []⟩

/-- `struct S *(*[2])(int a)` is type 6; type 8 is a pointer to a function that returns
a pointer to such a function. -/
def callbacks : Btf where
  types := [
    { nameOff := 1, kind := .int, size := 4, intInfo := 0x01000020 },
    { nameOff := 5, kind := .struct, size := 4 },
    { kind := .ptr, type := 2 },
    { kind := .funcProto, type := 3, params := [{ nameOff := 7, type := 1 }] },
    { kind := .ptr, type := 4 },
    { kind := .array, array := { type := 5, indexType := 1, nelems := 2 } },
    { kind := .funcProto, type := 5 },
    { kind := .ptr, type := 7 }]
  strs := "\x00int\x00S\x00a\x00".toList

def callbackTree : Tree :=
  .ptr [] (.func [] (.ptr [] (.leaf [] "struct S".toList))
    (.cons ['a'] (.leaf [] "int".toList) .nil))

theorem callbacks_means :
    Means (emitCtx callbacks none) 6 (.array callbackTree.meaning 2) ∧
      Means (emitCtx callbacks none) 8 (.ptr [] (.func callbackTree.meaning .nil false)) := by
  have hcallback : callbackTree.HasMeaning := ⟨trivial, trivial, trivial⟩
  constructor
  · exact (treeOf_tellsMeaning _ 10 6 (.array [] callbackTree 2) rfl _).mpr ⟨hcallback, rfl⟩
  · exact (treeOf_tellsMeaning _ 10 8 (.ptr [] (.func [] callbackTree .nil)) rfl _).mpr
      ⟨⟨hcallback, trivial⟩, rfl⟩

theorem emitDeclEx_structure_callbacks :
    Declares (fun _ _ => True) (lex "struct S * (*x[2])(int a)".toList) ['x']
      (.array callbackTree.meaning 2) := by
  have hprints : emitDeclEx (emitCtx callbacks none) 10 6 ['x'] = .ok [
      .tagName 2 "struct".toList ['S'], .text " *".toList, .text " (*x[2])(".toList, .text [],
      .text "int a".toList, .text ")".toList] := by rfl
  exact (emitDeclEx_structure_iff hprints (by decide) (by decide) callbacks_means.1
    ⟨trivial, ⟨trivial, trivial⟩, rfl⟩).mpr ⟨trivial, trivial, trivial⟩

/-- The declarator of the function that is returned closes before that of the function
that returns it, and C reads no such text. -/
theorem callbacks_not_declares :
    ∃ pieces, emitDeclEx (emitCtx callbacks none) 10 8 ['x'] = .ok pieces ∧
      declText pieces = "struct S * (*)(int a) (*x)(void)".toList ∧
        Means (emitCtx callbacks none) 8 (.ptr [] (.func callbackTree.meaning .nil false)) ∧
        CType.FixedParams (.ptr [] (.func callbackTree.meaning .nil false)) ∧
          ¬Declares (fun _ _ => True) (lex (declText pieces)) ['x']
            (.ptr [] (.func callbackTree.meaning .nil false)) := by
  have htree : treeOf (emitCtx callbacks none) 10 8 =
      some (.ptr [] (.func [] callbackTree .nil)) := rfl
  refine ⟨_, rfl, rfl, callbacks_means.2, ⟨⟨trivial, ⟨trivial, trivial⟩, rfl⟩, trivial, rfl⟩, ?_⟩
  rw [declares_iff rfl (by decide) (by decide) htree callbacks_means.2]
  rintro ⟨_, ⟨hpointers, _⟩, _⟩
  exact hpointers

end MinCorehdr
