import MinCorehdr.Seeds.Join

/-!
# The objects of a run as a set

The closure and the emission read the requirement store only through the members
it keeps, and those depend on what the store holds, not on the order in which it
came to hold it.
-/

namespace MinCorehdr

open Support.Result

/-- The members a store keeps, in terms of what it holds. -/
theorem keepsMember_iff {base : Btf} {requirements : Requirements}
    (h : requirements.Consistent base) {id i : Nat} :
    keepsMember (some requirements) id i = true ↔
      (∀ j, requirements.holds (.member id j) = false) ∨
        requirements.holds (.member id i) = true := by
  have hnone : mchRequirementsHasRecordMembers requirements id = false ↔
      ∀ j, requirements.holds (.member id j) = false := by
    constructor
    · intro hhas j
      change mchRequirementsContainsRecordMember requirements id j = false
      unfold mchRequirementsContainsRecordMember
      rw [if_neg (by rw [hhas]; exact Bool.false_ne_true)]
    · intro hall
      rw [← Bool.not_eq_true]
      intro hhas
      obtain ⟨j, hj⟩ := h.nonempty id hhas
      have hclear := hall j
      rw [show requirements.holds (.member id j) = true from hj] at hclear
      cases hclear
  rw [← hnone]
  simp only [keepsMember, Requirements.holds]
  cases mchRequirementsHasRecordMembers requirements id <;> simp

theorem keepsMember_congr {base : Btf} {left right : Requirements} (hleft : left.Consistent base)
    (hright : right.Consistent base) (h : ∀ key, left.holds key = right.holds key) :
    keepsMember (some left) = keepsMember (some right) := by
  funext id i
  rw [Bool.eq_iff_iff, keepsMember_iff hleft, keepsMember_iff hright]
  simp only [h]

/-! ## Closure and emission -/

section

variable {left right : ClosureOptions} (hexpand : left.expandPointers = right.expandPointers)
  (hkeeps : keepsMember left.requirements = keepsMember right.requirements)

include hexpand hkeeps

theorem typeDeps_congr : typeDeps left = typeDeps right := by
  funext id type
  unfold typeDeps
  rw [hexpand, hkeeps]

theorem closeWorklist_congr (btf : Btf) (fuel : Nat) :
    ∀ state, closeWorklist btf left fuel state = closeWorklist btf right fuel state := by
  induction fuel with
  | zero =>
      intro state
      rfl
  | succ fuel ih =>
      intro state
      have hdeps : addTypeDeps btf left = addTypeDeps btf right := by
        funext id type state
        unfold addTypeDeps
        rw [typeDeps_congr hexpand hkeeps]
      simp only [closeWorklist, hdeps, ih]

theorem closeAndEmit_congr (fuel : Nat) (base : Btf) (seeds : TypeSet) :
    closeAndEmit fuel base seeds left = closeAndEmit fuel base seeds right := by
  unfold closeAndEmit mchComputeDependencyClosureWithOptions mchEmitHeaderWithOptions emitCtx
  simp only [closeWorklist_congr hexpand hkeeps, hkeeps]

end

/-! ## The witness -/

theorem collect_succeeds {α β : Type} {f : α → Except Fault (List β)} {as : List α}
    (h : ∀ a ∈ as, ∃ xs, f a = .ok xs) : ∃ ys, collect f as = .ok ys := by
  induction as with
  | nil => exact ⟨[], rfl⟩
  | cons a as ih =>
      obtain ⟨xs, hxs⟩ := h a List.mem_cons_self
      obtain ⟨ys, hys⟩ := ih fun b hb => h b (List.mem_cons_of_mem a hb)
      exact ⟨xs ++ ys, collect_cons_eq_ok.mpr ⟨xs, ys, hxs, hys, rfl⟩⟩

/-- The store of a run can always be explained. -/
theorem mchRequirementsWriteExplanation_succeeds {base : Btf} {requirements : Requirements}
    (h : requirements.Consistent base) :
    ∃ text, mchRequirementsWriteExplanation base requirements = .ok text := by
  have hline : ∀ trace ∈ requirements.traces, ∃ line, explanationLine base trace = .ok line := by
    intro trace htrace
    have hkey := h.valid trace.key ((h.mem_keys trace.key).mp (List.mem_map_of_mem htrace))
    unfold RequirementTrace.key at hkey
    unfold explanationLine
    cases hkind : trace.kind with
    | typeRoot =>
        rw [hkind] at hkey
        obtain ⟨type, htype⟩ := exists_btfTypeById hkey.1
        rw [htype]
        exact ⟨_, rfl⟩
    | recordMember =>
        rw [hkind] at hkey
        obtain ⟨_, _, type, htype, _, hindex⟩ := hkey
        simp only [htype, List.getElem?_eq_getElem hindex]
        exact ⟨_, rfl⟩
  obtain ⟨lines, hlines⟩ := collect_succeeds hline
  unfold mchRequirementsWriteExplanation
  split
  · exact ⟨_, rfl⟩
  · rw [hlines]
    exact ⟨_, rfl⟩

/-! ## Whole runs -/

/-- The seeds and requirements of two runs over the same set of objects. -/
theorem extractObjects_sameObjects {load : CString → Except Fault ObjectDoc} {base : Btf}
    {paths others : List CString} {final : SeedState × SeedStats}
    (hsame : ∀ path, path ∈ paths ↔ path ∈ others)
    (h : extractObjects load base paths = .ok final) :
    ∃ last, extractObjects load base others = .ok last ∧ last.1.seeds = final.1.seeds ∧
      keepsMember (some last.1.requirements) = keepsMember (some final.1.requirements) := by
  obtain ⟨last, hlast, hkeys, hids⟩ :=
    extractObjects_of_subset (fun path hpath => (hsame path).mpr hpath) h
  obtain ⟨final', hfinal', hkeys', hids'⟩ :=
    extractObjects_of_subset (fun path hpath => (hsame path).mp hpath) hlast
  rw [h] at hfinal'
  cases hfinal'
  have hgood := (extractObjects_extracted hlast).good
  have hgood' := (extractObjects_extracted h).good
  refine ⟨last, hlast, ?_, ?_⟩
  · apply TypeSet.ext_contains
    · rw [hgood.count_eq, hgood'.count_eq]
    · intro id
      rw [Bool.eq_iff_iff]
      exact ⟨hids id, hids' id⟩
  · apply keepsMember_congr hgood.consistent hgood'.consistent
    intro key
    rw [Bool.eq_iff_iff]
    exact ⟨hkeys key, hkeys' key⟩

/-- A run that succeeds, in its parts. -/
theorem generate_eq_ok {load : CString → Except Fault ObjectDoc} {fuel : Nat} {base : Btf}
    {options : Options} {paths : List CString} {out : Output}
    (h : generate load fuel base options paths = .ok out) :
    ∃ state added, extractObjects load base paths = .ok (state, out.seedTotal) ∧
      closeAndEmit fuel base state.seeds (closureOptions options state.requirements) =
        .ok (out.header, added) := by
  obtain ⟨⟨state, total⟩, hextract, h⟩ := bind_eq_ok.mp h
  obtain ⟨⟨header, added⟩, hemit, h⟩ := bind_eq_ok.mp h
  obtain ⟨explanation, _, h⟩ := bind_eq_ok.mp h
  cases h
  exact ⟨state, added, hextract, hemit⟩

theorem generate_of_sameObjects {load : CString → Except Fault ObjectDoc} {fuel : Nat} {base : Btf}
    {options : Options} {paths others : List CString} {out : Output}
    (hsame : ∀ path, path ∈ paths ↔ path ∈ others)
    (h : generate load fuel base options paths = .ok out) :
    ∃ out', generate load fuel base options others = .ok out' ∧ out'.header = out.header := by
  obtain ⟨state, added, hextract, hemit⟩ := generate_eq_ok h
  obtain ⟨⟨last, total'⟩, hlast, hseeds, hkeeps⟩ := extractObjects_sameObjects hsame hextract
  have hemit' : closeAndEmit fuel base last.seeds (closureOptions options last.requirements) =
      .ok (out.header, added) := by
    rw [hseeds, ← hemit]
    apply closeAndEmit_congr
    · rfl
    · exact hkeeps
  have hexplain : ∃ text, explain options base last.requirements = .ok text := by
    unfold explain
    split
    · obtain ⟨text, htext⟩ := mchRequirementsWriteExplanation_succeeds
        (extractObjects_extracted hlast).good.consistent
      rw [htext]
      exact ⟨some text, rfl⟩
    · exact ⟨none, rfl⟩
  obtain ⟨text, htext⟩ := hexplain
  refine ⟨{ header := out.header, explanation := text, seedTotal := total', addedTypes := added },
    ?_, rfl⟩
  unfold generate
  rw [hlast, ok_bind]
  simp only
  rw [hemit', ok_bind]
  simp only
  rw [htext, ok_bind]

/-- Runs over the same set of objects succeed together, and write the same
header. -/
theorem generate_sameObjects {load : CString → Except Fault ObjectDoc} {fuel : Nat} {base : Btf}
    {options : Options} {paths others : List CString}
    (hsame : ∀ path, path ∈ paths ↔ path ∈ others) :
    (Succeeds (generate load fuel base options paths) ↔
        Succeeds (generate load fuel base options others)) ∧
      ∀ out out', generate load fuel base options paths = .ok out →
        generate load fuel base options others = .ok out' →
          headerText out.header = headerText out'.header := by
  have hother : ∀ path, path ∈ others ↔ path ∈ paths := fun path => (hsame path).symm
  constructor
  · constructor
    · rintro ⟨out, hout⟩
      obtain ⟨out', hout', _⟩ := generate_of_sameObjects hsame hout
      exact ⟨out', hout'⟩
    · rintro ⟨out, hout⟩
      obtain ⟨out', hout', _⟩ := generate_of_sameObjects hother hout
      exact ⟨out', hout'⟩
  · intro out out' hout hout'
    obtain ⟨found, hfound, heq⟩ := generate_of_sameObjects hsame hout
    rw [hout'] at hfound
    cases hfound
    rw [heq]

/-- `struct R { int x; int y; }`. -/
def smallBase : Btf where
  types := [
    { nameOff := 1, kind := .struct, size := 8,
      members := [{ nameOff := 3, type := 2 }, { nameOff := 5, type := 2, offset := 32 }] },
    { nameOff := 7, kind := .int, size := 4, intInfo := 0x01000020 }]
  strs := "\x00R\x00x\x00y\x00int\x000:0\x00".toList

/-- A `.BTF.ext` section with one field relocation. -/
def oneRelo (typeId accessStrOff : UInt8) : BtfExt where
  endianness := .little
  raw := [0x9f, 0xeb, 1, 0, 32, 0, 0, 0] ++ List.replicate 16 0 ++ [0, 0, 0, 0, 28, 0, 0, 0] ++
    [16, 0, 0, 0, 0, 0, 0, 0, 1, 0, 0, 0] ++
    [0, 0, 0, 0, typeId, 0, 0, 0, accessStrOff, 0, 0, 0, 0, 0, 0, 0]

/-- The object `a` names `struct R`, any other also reads `R.x`. -/
def loadSmall (path : CString) : Except Fault ObjectDoc :=
  .ok { btf := smallBase, ext := if path = ['a'] then none else some (oneRelo 1 11) }

theorem generate_sameObjects_small :
    (Succeeds (generate loadSmall 10 smallBase {} [['a'], ['b']]) ↔
        Succeeds (generate loadSmall 10 smallBase {} [['b'], ['a'], ['b']])) ∧
      ∀ out out', generate loadSmall 10 smallBase {} [['a'], ['b']] = .ok out →
        generate loadSmall 10 smallBase {} [['b'], ['a'], ['b']] = .ok out' →
          headerText out.header = headerText out'.header := by
  apply generate_sameObjects
  intro path
  simp only [List.mem_cons, List.not_mem_nil, or_false]
  constructor
  · rintro (ha | hb)
    · exact Or.inr (Or.inl ha)
    · exact Or.inl hb
  · rintro (hb | ha | hb)
    · exact Or.inr hb
    · exact Or.inl ha
    · exact Or.inr hb

end MinCorehdr
