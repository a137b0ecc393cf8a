import MinCorehdr.Witness

/-!
# One more object

A further object adds seeds and requirements, and the first requirement on a
member of a record takes its other members away.  Where no record in use loses a
member, the header of more objects has everything the header of fewer has.
-/

namespace MinCorehdr

open Relation Support.Result

def Item.definedId? : Item → Option Nat
  | .enumDef id _ _ => some id
  | .typedefDef id _ _ => some id
  | .recordDef id _ _ _ => some id
  | _ => none

def DefinesType (items : List Item) (id : Nat) : Prop :=
  ∃ item ∈ items, item.definedId? = some id

def PrintsMember (items : List Item) (id i : Nat) : Prop :=
  ∃ item ∈ items, .member id i ∈ item.pieces

/-- Every type definition and every member of `items` is in `items'`. -/
def HeaderGrows (items items' : List Item) : Prop :=
  (∀ id, DefinesType items id → DefinesType items' id) ∧
    ∀ id i, PrintsMember items id i → PrintsMember items' id i

/-- The body of the record is printed, by its own definition or, if it has no
name, inside another. -/
def PrintsBody (ctx : EmitCtx) (required : Set Nat) (id : Nat) : Prop :=
  Reached ctx required (.record id) ∨ IsExpanded ctx required id ∧
    ∃ type, btfTypeById ctx.btf id = some type ∧ type.kind.isRecord = true ∧
      mchBtfTypeName ctx.btf type = []

/-- No member of the record that `less` keeps is lost. -/
def KeepsMore (base : Btf) (less more : Nat → Nat → Bool) (id : Nat) : Prop :=
  ∀ type, btfTypeById base id = some type → ∀ i, i < type.members.length →
    less id i = true → more id i = true

theorem KeepsMore.keptTypes {base : Btf} {less more : Nat → Nat → Bool} {id : Nat} {type : BtfType}
    (h : KeepsMore base less more id) (htype : btfTypeById base id = some type) :
    ∀ to_ ∈ keptTypes less id type, to_ ∈ keptTypes more id type := by
  intro to_ hto
  obtain ⟨member, i, hget, hkeeps, rfl⟩ := mem_keptTypes.mp hto
  obtain ⟨hlt, _⟩ := List.getElem?_eq_some_iff.mp hget
  exact mem_keptTypes.mpr ⟨member, i, hget, h type htype i hlt hkeeps, rfl⟩

/-! ## Two contexts over one base -/

section

variable {base : Btf} {less more : Nat → Nat → Bool} {required required' : Set Nat}

/-- The context that keeps `keeps`. -/
def keepCtx (base : Btf) (keeps : Nat → Nat → Bool) : EmitCtx := ⟨base, keeps⟩

theorem hasNoName_of_declTargets_record {ctx : EmitCtx} {id to_ : Nat} {type : BtfType}
    (htype : btfTypeById ctx.btf id = some type) (hkind : type.kind.isRecord = true)
    (h : to_ ∈ declTargets ctx id) : mchBtfTypeName ctx.btf type = [] := by
  by_contra hname
  unfold declTargets at h
  cases hkindEq : type.kind <;> simp_all [Kind.isRecord]

variable (hprints : ∀ id, PrintsBody (keepCtx base less) required id → KeepsMore base less more id)

include hprints

theorem declTargets_mono {id to_ : Nat} (hid : IsExpanded (keepCtx base less) required id)
    (h : to_ ∈ declTargets (keepCtx base less) id) : to_ ∈ declTargets (keepCtx base more) id := by
  cases htype : btfTypeById base id with
  | none =>
      unfold declTargets at h
      rw [show btfTypeById (keepCtx base less).btf id = none from htype] at h
      cases h
  | some type =>
      by_cases hkind : type.kind.isRecord = true
      · have hname := hasNoName_of_declTargets_record htype hkind h
        have hmore := hprints id (Or.inr ⟨hid, type, htype, hkind, hname⟩)
        have hkept : ∀ keeps, declTargets (keepCtx base keeps) id = keptTypes keeps id type := by
          intro keeps
          unfold declTargets
          simp only [show btfTypeById (keepCtx base keeps).btf id = some type from htype]
          cases hkindEq : type.kind with
          | struct | union => exact if_pos hname
          | _ =>
              rw [hkindEq] at hkind
              cases hkind
        rw [hkept] at h ⊢
        exact hmore.keptTypes htype to_ h
      · have hsame : declTargets (keepCtx base less) id = declTargets (keepCtx base more) id := by
          unfold declTargets
          simp only [show btfTypeById (keepCtx base less).btf id = some type from htype,
            show btfTypeById (keepCtx base more).btf id = some type from htype]
          cases hkindEq : type.kind with
          | struct | union => exact absurd (by rw [hkindEq]; rfl) hkind
          | _ => rfl
        rw [← hsame]
        exact h

theorem expands_mono {node : Node} (hnode : Reached (keepCtx base less) required node)
    {start to_ : Nat} (hstart : start ∈ nodeTypes (keepCtx base less) node)
    (h : Expands (keepCtx base less) start to_) : Expands (keepCtx base more) start to_ := by
  induction h with
  | refl => exact .refl
  | @tail mid last hmid hstep ih =>
      exact ih.tail (declTargets_mono hprints ⟨node, hnode, start, hstart, hmid⟩ hstep)

theorem hardTargets_mono {id to_ : Nat} (hid : IsExpanded (keepCtx base less) required id)
    (h : to_ ∈ hardTargets (keepCtx base less) id) : to_ ∈ hardTargets (keepCtx base more) id := by
  cases htype : btfTypeById base id with
  | none =>
      unfold hardTargets at h
      rw [show btfTypeById (keepCtx base less).btf id = none from htype] at h
      cases h
  | some type =>
      by_cases hkind : type.kind.isRecord = true
      · have hkept : ∀ keeps, hardTargets (keepCtx base keeps) id =
            if isNamedRecord base type then [] else keptTypes keeps id type := by
          intro keeps
          unfold hardTargets
          simp only [show btfTypeById (keepCtx base keeps).btf id = some type from htype]
          cases hkindEq : type.kind with
          | struct | union => rfl
          | _ =>
              rw [hkindEq] at hkind
              cases hkind
        rw [hkept] at h ⊢
        split at h
        next => cases h
        next hunnamed =>
          have hname : mchBtfTypeName base type = [] := by
            simpa [isNamedRecord, hkind] using hunnamed
          rw [if_neg hunnamed]
          exact (hprints id (Or.inr ⟨hid, type, htype, hkind, hname⟩)).keptTypes htype to_ h
      · have hsame : hardTargets (keepCtx base less) id = hardTargets (keepCtx base more) id := by
          unfold hardTargets
          simp only [show btfTypeById (keepCtx base less).btf id = some type from htype,
            show btfTypeById (keepCtx base more).btf id = some type from htype]
          cases hkindEq : type.kind with
          | struct | union => exact absurd (by rw [hkindEq]; rfl) hkind
          | _ => rfl
        rw [← hsame]
        exact h

theorem walkReaches_mono {node : Node} (hnode : Reached (keepCtx base less) required node)
    {start to_ : Mode × Nat} (hstart : start ∈ nodeStarts (keepCtx base less) node)
    (h : WalkReaches (keepCtx base less) start to_) : WalkReaches (keepCtx base more) start to_ := by
  induction h with
  | refl => exact .refl
  | @tail mid last hmid hstep ih =>
      refine ih.tail ?_
      have hid := isExpanded_of_walkReaches hnode hstart hmid
      obtain ⟨mode, id⟩ := mid
      cases mode with
      | soft => exact hstep
      | hard =>
          simp only [walkTargets] at hstep ⊢
          change last ∈ if entersSoft (keepCtx base less) id then _ else _
          split at hstep
          next hsoft =>
            rw [if_pos hsoft]
            exact hstep
          next hsoft =>
            obtain ⟨to_, hto, rfl⟩ := List.mem_map.mp hstep
            rw [if_neg hsoft]
            exact List.mem_map_of_mem (hardTargets_mono hprints hid hto)

theorem nodeStarts_mono {node : Node} (hnode : Reached (keepCtx base less) required node)
    {start : Mode × Nat} (h : start ∈ nodeStarts (keepCtx base less) node) :
    start ∈ nodeStarts (keepCtx base more) node := by
  cases node with
  | typedef id => exact h
  | record id =>
      unfold nodeStarts at h ⊢
      cases htype : btfTypeById base id with
      | none =>
          simp only [show btfTypeById (keepCtx base less).btf id = none from htype] at h
          cases h
      | some type =>
          simp only [show btfTypeById (keepCtx base less).btf id = some type from htype] at h
          simp only [show btfTypeById (keepCtx base more).btf id = some type from htype]
          obtain ⟨to_, hto, rfl⟩ := List.mem_map.mp h
          exact List.mem_map_of_mem ((hprints id (Or.inl hnode)).keptTypes htype to_ hto)

/-- What is in reach stays in reach. -/
theorem reached_mono (hrequired : required ⊆ required') {node : Node}
    (h : Reached (keepCtx base less) required node) : Reached (keepCtx base more) required' node := by
  obtain ⟨start, hstart, hisNode, hreach⟩ := h
  refine ⟨start, hrequired hstart, hisNode, ?_⟩
  induction hreach with
  | refl => exact .refl
  | @tail mid last hmid hneeds ih =>
      have hreached : Reached (keepCtx base less) required mid := ⟨start, hstart, hisNode, hmid⟩
      obtain ⟨from_, hfrom, to_, hwalk, hmem⟩ := hneeds
      exact ih.tail ⟨from_, nodeStarts_mono hprints hreached hfrom, to_,
        walkReaches_mono hprints hreached hfrom hwalk, hmem⟩

/-- What the definition of `node` shows, it still shows. -/
theorem nodeShows_mono {node : Node} (hnode : Reached (keepCtx base less) required node) {id i : Nat}
    (h : NodeShows (keepCtx base less) node (.member id i)) :
    NodeShows (keepCtx base more) node (.member id i) := by
  have hshows : ∀ start ∈ nodeTypes (keepCtx base less) node,
      Shows (keepCtx base less) start (.member id i) →
        Shows (keepCtx base more) start (.member id i) := by
    intro start hstart hshows
    obtain ⟨to_, hexpands, hpiece⟩ := hshows
    refine ⟨to_, expands_mono hprints hnode hstart hexpands, ?_⟩
    obtain ⟨rfl, type, htype, hkind, hname, hlt, hkeeps⟩ := member_mem_ownPieces.mp hpiece
    have hmore := hprints to_
      (Or.inr ⟨⟨node, hnode, start, hstart, hexpands⟩, type, htype, hkind, hname⟩)
    exact member_mem_ownPieces.mpr
      ⟨rfl, type, htype, hkind, hname, hlt, hmore type htype i hlt hkeeps⟩
  cases htype : btfTypeById base node.id with
  | none =>
      simp only [NodeShows, show btfTypeById (keepCtx base less).btf node.id = none from htype] at h
  | some type =>
      simp only [NodeShows, nodeTypes,
        show btfTypeById (keepCtx base less).btf node.id = some type from htype] at h hshows
      simp only [NodeShows, show btfTypeById (keepCtx base more).btf node.id = some type from htype]
      cases node with
      | typedef nodeId => exact hshows _ List.mem_cons_self h
      | record nodeId =>
          have hmore := hprints nodeId (Or.inl hnode)
          rcases h with hown | ⟨to_, hto, hshown⟩
          · left
            obtain ⟨⟨member, j⟩, hmem, heq⟩ := List.mem_map.mp hown
            obtain ⟨hget, hkeeps⟩ := mem_keptMembers.mp hmem
            obtain ⟨hlt, _⟩ := List.getElem?_eq_some_iff.mp hget
            exact List.mem_map.mpr ⟨(member, j),
              mem_keptMembers.mpr ⟨hget, hmore type htype j hlt hkeeps⟩, heq⟩
          · right
            exact ⟨to_, hmore.keptTypes htype to_ hto, hshows to_ hto hshown⟩

end

/-! ## Headers -/

theorem Layout.definesType_iff {ctx : EmitCtx} {required : TypeSet} {fwds enums defs : List Item}
    (h : Layout ctx required fwds enums defs) (id : Nat) :
    DefinesType (headerItems fwds enums defs) id ↔
      (∃ node, node.id = id ∧ Reached ctx required.ids node) ∨
        id ∈ required.ids ∧ hasType ctx isEnumKind id = true := by
  constructor
  · rintro ⟨item, hitem, hid⟩
    have hnode : ∀ node, item.node? = some node → node.id = id →
        ∃ node, node.id = id ∧ Reached ctx required.ids node := by
      intro node hnode hnodeId
      exact ⟨node, hnodeId, (h.reached_of_mem hitem hnode).1⟩
    cases item with
    | text _ => cases hid
    | forwardDecl _ _ _ => cases hid
    | enumDef _ _ _ =>
        cases hid
        obtain ⟨hreq, type, htype, hkind, _⟩ := h.enumDef_mem_iff.mp hitem
        exact Or.inr ⟨hreq, hasType_eq_true.mpr ⟨type, htype, hkind⟩⟩
    | typedefDef _ _ _ => exact Or.inl (hnode _ rfl (Option.some.inj hid))
    | recordDef _ _ _ _ => exact Or.inl (hnode _ rfl (Option.some.inj hid))
  · rintro (⟨node, rfl, hreached⟩ | ⟨hreq, henum⟩)
    · obtain ⟨item, hitem, hnode, _⟩ := h.exists_item hreached
      refine ⟨item, hitem, ?_⟩
      cases item with
      | typedefDef _ _ _ | recordDef _ _ _ _ =>
          cases hnode
          rfl
      | _ => cases hnode
    · obtain ⟨type, htype, hkind⟩ := hasType_eq_true.mp henum
      exact ⟨_, h.enumDef_mem_iff.mpr ⟨hreq, type, htype, hkind, rfl, rfl⟩, rfl⟩

theorem Layout.printsMember_iff {ctx : EmitCtx} {required : TypeSet} {fwds enums defs : List Item}
    (h : Layout ctx required fwds enums defs) (id i : Nat) :
    PrintsMember (headerItems fwds enums defs) id i ↔
      ∃ node, Reached ctx required.ids node ∧ NodeShows ctx node (.member id i) := by
  have htagged : ¬(Piece.member id i).IsText := fun htext => htext
  constructor
  · rintro ⟨item, hitem, hpiece⟩
    obtain ⟨node, hnode, hreached, hfrom⟩ := h.exists_node hitem hpiece
    exact ⟨node, hreached, (nodeShows_of_item hfrom hnode _ htagged).mp hpiece⟩
  · rintro ⟨node, hreached, hshows⟩
    obtain ⟨item, hitem, hnode, hfrom⟩ := h.exists_item hreached
    exact ⟨item, hitem, (nodeShows_of_item hfrom hnode _ htagged).mpr hshows⟩

/-- A member that is shown is kept. -/
theorem NodeShows.member_keeps {ctx : EmitCtx} {node : Node} {id i : Nat}
    (h : NodeShows ctx node (.member id i)) : ctx.keeps id i = true := by
  unfold NodeShows at h
  split at h
  next => exact h.elim
  next =>
    have hshown : ∀ start, Shows ctx start (.member id i) → ctx.keeps id i = true := by
      rintro start ⟨to_, _, hpiece⟩
      obtain ⟨_, _, _, _, _, _, hkeeps⟩ := member_mem_ownPieces.mp hpiece
      exact hkeeps
    split at h
    next =>
      rcases h with hown | ⟨to_, _, hshows⟩
      · obtain ⟨⟨member, j⟩, hmem, heq⟩ := List.mem_map.mp hown
        cases heq
        exact (mem_keptMembers.mp hmem).2
      · exact hshown to_ hshows
    next => exact hshown _ h

section

variable {base : Btf} {less more : Nat → Nat → Bool} {required required' : TypeSet}
  {fwds enums defs fwds' enums' defs' : List Item}
  (hless : Layout (keepCtx base less) required fwds enums defs)
  (hmore : Layout (keepCtx base more) required' fwds' enums' defs')

include hless hmore

/-- A header grows with its required set as long as no record it prints loses a
member. -/
theorem headerGrows_of_keepsMore (hrequired : required.ids ⊆ required'.ids)
    (hprints : ∀ id, PrintsBody (keepCtx base less) required.ids id → KeepsMore base less more id) :
    HeaderGrows (headerItems fwds enums defs) (headerItems fwds' enums' defs') := by
  constructor
  · intro id hid
    rw [hmore.definesType_iff]
    rcases (hless.definesType_iff id).mp hid with ⟨node, hnodeId, hreached⟩ | ⟨hreq, henum⟩
    · exact Or.inl ⟨node, hnodeId, reached_mono hprints hrequired hreached⟩
    · exact Or.inr ⟨hrequired hreq, henum⟩
  · intro id i hmember
    obtain ⟨node, hreached, hshows⟩ := (hless.printsMember_iff id i).mp hmember
    exact (hmore.printsMember_iff id i).mpr
      ⟨node, reached_mono hprints hrequired hreached, nodeShows_mono hprints hreached hshows⟩

/-- And no record it prints may lose a member. -/
theorem keepsMore_of_headerGrows
    (hgrows : HeaderGrows (headerItems fwds enums defs) (headerItems fwds' enums' defs')) {id : Nat}
    (hid : PrintsBody (keepCtx base less) required.ids id) : KeepsMore base less more id := by
  intro type htype i hlt hkeeps
  have hshows : ∃ node, Reached (keepCtx base less) required.ids node ∧
      NodeShows (keepCtx base less) node (.member id i) := by
    rcases hid with hrecord | ⟨⟨node, hreached, start, hstart, hexpands⟩, type', htype', hkind, hname⟩
    · refine ⟨.record id, hrecord, ?_⟩
      simp only [NodeShows, Node.id,
        show btfTypeById (keepCtx base less).btf id = some type from htype]
      left
      exact List.mem_map.mpr ⟨(type.members[i], i),
        mem_keptMembers.mpr ⟨List.getElem?_eq_getElem hlt, hkeeps⟩, rfl⟩
    · obtain rfl : type = type' := Option.some.inj (htype.symm.trans htype')
      refine ⟨node, hreached, ?_⟩
      rw [nodeShows_member_iff hreached.isNode htype hname]
      exact ⟨start, hstart, hexpands,
        member_mem_ownPieces.mpr ⟨rfl, type, htype, hkind, hname, hlt, hkeeps⟩⟩
  obtain ⟨node, _, hshown⟩ := (hmore.printsMember_iff id i).mp
    (hgrows.2 id i ((hless.printsMember_iff id i).mpr hshows))
  exact hshown.member_keeps

end

/-! ## Whole runs -/

/-- The closure grows with its seeds as long as no record it passes loses a
member. -/
theorem closureReaches_mono {base : Btf} {less more : ClosureOptions} {seeds seeds' : TypeSet}
    (hexpand : less.expandPointers = more.expandPointers)
    (hseeds : ∀ id, mchTypeSetContains seeds id = true → mchTypeSetContains seeds' id = true)
    (hkeeps : ∀ id, ClosureReaches base less seeds id →
      KeepsMore base (keepsMember less.requirements) (keepsMember more.requirements) id) {id : Nat}
    (h : ClosureReaches base less seeds id) : ClosureReaches base more seeds' id := by
  obtain ⟨seed, hseed, hreach⟩ := h
  refine ⟨seed, ⟨hseed.1, hseeds seed hseed.2⟩, ?_⟩
  induction hreach with
  | refl => exact .refl
  | @tail mid last hmid hstep ih =>
      obtain ⟨type, htype, hmem, hzero⟩ := hstep
      refine ih.tail ⟨type, htype, ?_, hzero⟩
      have hmore := (hkeeps mid ⟨seed, hseed, hmid⟩).keptTypes htype
      unfold typeDeps at hmem ⊢
      cases hkind : type.kind with
      | struct | union =>
          simp only [hkind] at hmem ⊢
          exact hmore last hmem
      | ptr =>
          simp only [hkind, hexpand] at hmem ⊢
          exact hmem
      | _ =>
          simp only [hkind] at hmem ⊢
          exact hmem

/-- Under the stores of two runs, the record loses no member. -/
def StoreKeepsMore (base : Btf) (less more : Requirements) : Nat → Prop :=
  KeepsMore base (keepsMember (some less)) (keepsMember (some more))

/-- With one more object the header keeps everything it had when no record that
is printed or that the closure passes loses a member, and only when no record
that is printed does. -/
theorem headerGrows_of_append {load : CString → Except Fault ObjectDoc} {base : Btf}
    {paths : List CString} {path : CString} {options : Options} {state state' : SeedState}
    {total total' : SeedStats} {fuel fuel' : Nat} {items items' : List Item} {added added' : Nat}
    (hextract : extractObjects load base paths = .ok (state, total))
    (hemit : closeAndEmit fuel base state.seeds (closureOptions options state.requirements) =
      .ok (items, added))
    (hextract' : extractObjects load base (paths ++ [path]) = .ok (state', total'))
    (hemit' : closeAndEmit fuel' base state'.seeds (closureOptions options state'.requirements) =
      .ok (items', added')) :
    ((∀ id, PrintsBody (storeCtx base state.requirements)
          (closureSet base (closureOptions options state.requirements) state.seeds) id ∨
        ClosureReaches base (closureOptions options state.requirements) state.seeds id →
          StoreKeepsMore base state.requirements state'.requirements id) →
      HeaderGrows items items') ∧
    (HeaderGrows items items' →
      ∀ id, PrintsBody (storeCtx base state.requirements)
          (closureSet base (closureOptions options state.requirements) state.seeds) id →
        StoreKeepsMore base state.requirements state'.requirements id) := by
  have hgood := (extractObjects_extracted hextract).good
  have hgood' := (extractObjects_extracted hextract').good
  obtain ⟨⟨last, _⟩, hlast, _, hseeds⟩ :=
    extractObjects_of_subset (fun p hp => List.mem_append_left [path] hp) hextract'
  rw [hextract] at hlast
  cases hlast
  obtain ⟨required, fwds, enums, defs, rfl, hids, hlayout⟩ :=
    closeAndEmit_layout hgood.count_eq hemit
  obtain ⟨required', fwds', enums', defs', rfl, hids', hlayout'⟩ :=
    closeAndEmit_layout hgood'.count_eq hemit'
  rw [← hids]
  constructor
  · intro hkeeps
    apply headerGrows_of_keepsMore hlayout hlayout'
    · intro id hid
      rw [hids] at hid
      rw [hids']
      refine closureReaches_mono ?_ hseeds (fun other hother => ?_) hid
      · rfl
      · exact hkeeps other (Or.inr hother)
    · exact fun id hid => hkeeps id (Or.inl hid)
  · intro hgrows id hid
    exact keepsMore_of_headerGrows hlayout hlayout' hgrows hid

/-- The members that a run over the objects `paths` keeps. -/
def keepsAfter (paths : List CString) : Option (Nat → Nat → Bool) :=
  (extractObjects loadSmall smallBase paths).toOption.map fun final =>
    keepsMember (some final.1.requirements)

/-- The object `b` reads `R.x`, so with the object `a`, which names `struct R`, nothing is lost. -/
theorem headerGrows_of_append_small : ∃ out out',
    generate loadSmall 10 smallBase {} [['b']] = .ok out ∧
      generate loadSmall 10 smallBase {} ([['b']] ++ [['a']]) = .ok out' ∧
      HeaderGrows out.header out'.header := by
  have hrun : (generate loadSmall 10 smallBase {} [['b']]).toOption.isSome = true := by
    decide +kernel
  have hrun' : (generate loadSmall 10 smallBase {} ([['b']] ++ [['a']])).toOption.isSome = true := by
    decide +kernel
  obtain ⟨out, hout⟩ := exists_ok_of_isSome hrun
  obtain ⟨out', hout'⟩ := exists_ok_of_isSome hrun'
  obtain ⟨state, added, hextract, hemit⟩ := generate_eq_ok hout
  obtain ⟨state', added', hextract', hemit'⟩ := generate_eq_ok hout'
  refine ⟨out, out', hout, hout', (headerGrows_of_append hextract hemit hextract' hemit').1 ?_⟩
  have hkeeps : ∀ less ∈ keepsAfter [['b']], ∀ more ∈ keepsAfter ([['b']] ++ [['a']]),
      ∀ id < btfTypeCnt smallBase, ∀ i < 2, less id i = true → more id i = true := by
    decide +kernel
  have hshort : ∀ id type, btfTypeById smallBase id = some type → type.members.length ≤ 2 := by
    rintro (_ | _ | _ | id) type htype <;> cases htype <;> decide
  intro id _ type htype i hi
  refine hkeeps _ ?_ _ ?_ id (btfTypeById_eq_some_lt htype) i
    (Nat.lt_of_lt_of_le hi (hshort id type htype))
  · rw [keepsAfter, hextract]
    rfl
  · rw [keepsAfter, hextract']
    rfl

/-- The object `a` needs all of `struct R`; with the object `b`, which reads `R.x`,
the member `y` is gone. -/
theorem wholeThenField_shrinks : ∃ out out',
    generate loadSmall 10 smallBase {} [['a']] = .ok out ∧
      generate loadSmall 10 smallBase {} ([['a']] ++ [['b']]) = .ok out' ∧
      ¬HeaderGrows out.header out'.header := by
  let printsY (out : Output) : Bool :=
    out.header.any fun item => decide (.member 1 1 ∈ item.pieces)
  have hwhole : (generate loadSmall 10 smallBase {} [['a']]).toOption.map printsY = some true := by
    decide +kernel
  have hfield : (generate loadSmall 10 smallBase {} ([['a']] ++ [['b']])).toOption.map printsY =
      some false := by
    decide +kernel
  obtain ⟨out, hout, hprints⟩ := exists_ok_of_map hwhole
  obtain ⟨out', hout', hprints'⟩ := exists_ok_of_map hfield
  refine ⟨out, out', hout, hout', ?_⟩
  rintro ⟨_, hmembers⟩
  have hmember : PrintsMember out.header 1 1 := by
    obtain ⟨item, hitem, hpiece⟩ := List.any_eq_true.mp hprints
    exact ⟨item, hitem, of_decide_eq_true hpiece⟩
  obtain ⟨item, hitem, hpiece⟩ := hmembers 1 1 hmember
  have hclear := List.any_eq_false.mp hprints' item hitem
  exact hclear (decide_eq_true hpiece)

end MinCorehdr
