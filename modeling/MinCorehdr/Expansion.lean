import MinCorehdr.Completeness

/-!
# What `--expand-pointers` adds

The option makes the closure follow pointers and changes nothing else: what is printed without
it is printed with it, word for word.
-/

namespace MinCorehdr

open Relation Support.Fuel Support.Result

/-! ## Two headers over one context -/

section

variable {ctx : EmitCtx}

theorem nodeItem_unique {fuel fuel' : Nat} {type : BtfType} {node : Node} {item item' : Item}
    (h : nodeItem ctx fuel type node = .ok item) (h' : nodeItem ctx fuel' type node = .ok item') :
    item = item' := by
  have hsucc : ∀ fuel item, nodeItem ctx fuel type node = .ok item →
      nodeItem ctx (fuel + 1) type node = .ok item := fun _ _ => nodeItem_succ
  have hmore := ok_of_le hsucc h (Nat.le_max_left fuel fuel')
  have hmore' := ok_of_le hsucc h' (Nat.le_max_right fuel fuel')
  exact Except.ok.inj (hmore.symm.trans hmore')

/-- What the item says of its entry is what the context says. -/
def Item.FromContext (ctx : EmitCtx) : Item → Prop
  | .enumDef id name values => .enumDef id name values = enumItem ctx id
  | item => item.FromWalk ctx

theorem Item.FromContext.eq {item item' : Item} (h : item.FromContext ctx) (h' : item'.FromContext ctx)
    {entry : Entry} (hentry : item.toEntry = some entry) (hentry' : item'.toEntry = some entry) :
    item = item' := by
  cases item with
  | text _ => cases hentry
  | forwardDecl id keyword name =>
      cases hentry
      cases item' <;> cases hentry'
      obtain ⟨type, htype, _, rfl, rfl, _⟩ := h
      obtain ⟨type', htype', _, rfl, rfl, _⟩ := h'
      cases htype.symm.trans htype'
      rfl
  | enumDef id name values =>
      cases hentry
      cases item' <;> cases hentry'
      exact h.trans h'.symm
  | typedefDef id name decl =>
      cases hentry
      cases item' <;> cases hentry'
      obtain ⟨type, fuel, htype, _, _, hitem⟩ := h
      obtain ⟨type', fuel', htype', _, _, hitem'⟩ := h'
      cases htype.symm.trans htype'
      exact nodeItem_unique hitem hitem'
  | recordDef id keyword name body =>
      cases hentry
      cases item' <;> cases hentry'
      obtain ⟨type, fuel, htype, _, _, hitem⟩ := h
      obtain ⟨type', fuel', htype', _, _, hitem'⟩ := h'
      cases htype.symm.trans htype'
      exact nodeItem_unique hitem hitem'

theorem Wanted.mono {required required' : Set Nat} (hrequired : required ⊆ required') {entry : Entry}
    (h : Wanted ctx required entry) : Wanted ctx required' entry := by
  have hreached : ∀ node, Reached ctx required node → Reached ctx required' node := by
    rintro node ⟨start, hid, hisNode, hreach⟩
    exact ⟨start, hrequired hid, hisNode, hreach⟩
  cases entry with
  | forward id =>
      rcases h with ⟨hid, htag⟩ | ⟨node, hnode, hdeclares⟩
      · exact Or.inl ⟨hrequired hid, htag⟩
      · exact Or.inr ⟨node, hreached node hnode, hdeclares⟩
  | enum id => exact ⟨hrequired h.1, h.2⟩
  | definition node => exact hreached node h

variable {required required' : TypeSet} {fwds enums defs fwds' enums' defs' : List Item}

/-- The items that are the same in each header. -/
def frameItems : List Item := headerOpening ++ .text ['\n'] :: headerClosing

theorem Layout.frame_or_entry (h : Layout ctx required fwds enums defs) {item : Item}
    (hitem : item ∈ headerItems fwds enums defs) :
    item ∈ frameItems ∨ item.FromContext ctx ∧ ∃ entry, item.toEntry = some entry := by
  simp only [headerItems, List.mem_append, List.mem_cons] at hitem
  simp only [frameItems, List.mem_append, List.mem_cons]
  rcases hitem with (((hopening | hfwd) | hbreak | henum) | hdef) | hclosing
  · exact Or.inl (Or.inl hopening)
  · right
    rw [h.fwds_eq] at hfwd
    obtain ⟨id, hid, rfl⟩ := List.mem_map.mp hfwd
    obtain ⟨type, htype, hforward⟩ := hasType_eq_true.mp (List.mem_filter.mp hid).2
    have hboth : (type.kind.isRecord = true ∨ type.kind = .fwd) ∧ mchBtfTypeName ctx.btf type ≠ [] := by
      simpa [isForwardable] using hforward
    unfold forwardItem
    rw [htype]
    exact ⟨⟨type, htype, hboth.1, rfl, rfl, hboth.2⟩, _, rfl⟩
  · exact Or.inl (Or.inr (Or.inl hbreak))
  · right
    rw [h.enums_eq] at henum
    obtain ⟨id, hid, rfl⟩ := List.mem_map.mp henum
    obtain ⟨type, htype, _⟩ := hasType_eq_true.mp (List.mem_filter.mp hid).2
    have hitem : enumItem ctx id =
        .enumDef id (mchBtfTypeName ctx.btf type) (enumerators ctx.btf type) := by
      unfold enumItem
      rw [htype]
    rw [hitem]
    exact ⟨hitem.symm, _, rfl⟩
  · right
    have hfrom := h.defs_from item hdef
    cases item with
    | text _ => cases hfrom
    | enumDef _ _ _ => cases hfrom
    | forwardDecl _ _ _ => exact ⟨hfrom, _, rfl⟩
    | typedefDef _ _ _ => exact ⟨hfrom, _, rfl⟩
    | recordDef _ _ _ _ => exact ⟨hfrom, _, rfl⟩
  · exact Or.inl (Or.inr (Or.inr hclosing))

theorem mem_headerItems_of_frame {item : Item} (h : item ∈ frameItems) :
    item ∈ headerItems fwds enums defs := by
  simp only [frameItems, List.mem_append, List.mem_cons] at h
  simp only [headerItems, List.mem_append, List.mem_cons]
  rcases h with hopening | hbreak | hclosing
  · exact Or.inl (Or.inl (Or.inl (Or.inl hopening)))
  · exact Or.inl (Or.inl (Or.inr (Or.inl hbreak)))
  · exact Or.inr hclosing

theorem toEntry_of_frame {item : Item} (h : item ∈ frameItems) : item.toEntry = none := by
  have hall : ∀ item ∈ frameItems, item.toEntry = none := by
    decide
  exact hall item h

/-- A header has what the header of fewer types has. -/
theorem emitHeader_subset {fuel fuel' : Nat} {items items' : List Item}
    (hrequired : required.ids ⊆ required'.ids) (h : emitHeader ctx fuel required = .ok items)
    (h' : emitHeader ctx fuel' required' = .ok items') : items ⊆ items' := by
  have hwanted := (emitHeader_entries h).2
  have hwanted' := (emitHeader_entries h').2
  obtain ⟨fwds, enums, defs, rfl, hlayout⟩ := emitHeader_layout h
  obtain ⟨fwds', enums', defs', rfl, hlayout'⟩ := emitHeader_layout h'
  intro item hitem
  rcases hlayout.frame_or_entry hitem with hframe | ⟨hfrom, entry, hentry⟩
  · exact mem_headerItems_of_frame hframe
  · have hown := (hwanted entry).mp (List.mem_filterMap.mpr ⟨item, hitem, hentry⟩)
    obtain ⟨item', hitem', hentry'⟩ := List.mem_filterMap.mp ((hwanted' entry).mpr (hown.mono hrequired))
    rcases hlayout'.frame_or_entry hitem' with hframe | ⟨hfrom', _⟩
    · rw [toEntry_of_frame hframe] at hentry'
      cases hentry'
    · rw [hfrom.eq hfrom' hentry hentry']
      exact hitem'

/-- Fewer types of a header that can be printed can be printed. -/
theorem HeaderDefinable.mono {required required' : Set Nat} (h : HeaderDefinable ctx required')
    (hrequired : required ⊆ required') : HeaderDefinable ctx required where
  typed := fun id hid => h.typed id (hrequired hid)
  definable := by
    rintro node ⟨start, hid, hisNode, hreach⟩
    exact h.definable node ⟨start, hrequired hid, hisNode, hreach⟩

end

/-! ## Runs -/

section

variable {base : Btf} {state : SeedState} {options : ClosureOptions}

/-- Following pointers, a closure that succeeds has all that it has without. -/
theorem closure_of_expandPointers {seeds required : TypeSet} {added : Nat}
    (hcount : seeds.count = btfTypeCnt base)
    (h : mchComputeDependencyClosureWithOptions base seeds { options with expandPointers := true } =
      .ok (required, added)) :
    ∃ required' added',
      mchComputeDependencyClosureWithOptions base seeds { options with expandPointers := false } =
        .ok (required', added') ∧ required'.ids ⊆ required.ids ∧ added' ≤ added := by
  have hreaches : ∀ id, ClosureReaches base { options with expandPointers := false } seeds id →
      ClosureReaches base { options with expandPointers := true } seeds id :=
    fun id hid => ClosureReaches.mono (Set.Subset.refl _) (by rfl) (fun _ => rfl) hid
  have hdeps : ∀ id type dep, dep ∈ typeDeps { options with expandPointers := false } id type →
      dep ∈ typeDeps { options with expandPointers := true } id type := by
    intro id type dep hdep
    unfold typeDeps at hdep ⊢
    cases hkind : type.kind <;> simp_all
  cases hrun : mchComputeDependencyClosureWithOptions base seeds
      { options with expandPointers := false } with
  | error fault =>
      obtain ⟨_, hinvalid⟩ := closure_eq_error hcount hrun
      obtain ⟨id, type, dep, hid, htype, hdep, hrange⟩ := reachesInvalid_iff.mp hinvalid
      obtain ⟨err, herr⟩ := closure_of_reachesInvalid hcount
        (reachesInvalid_iff.mpr
          ⟨id, type, dep, hreaches id hid, htype, hdeps id type dep hdep, hrange⟩)
      rw [h] at herr
      cases herr
  | ok closed =>
      obtain ⟨required', added'⟩ := closed
      have hids := (contains_closure_iff hcount h).2
      have hids' := (contains_closure_iff hcount hrun).2
      have hsub : required'.ids ⊆ required.ids :=
        fun id hid => (hids id).mpr (hreaches id ((hids' id).mp hid))
      refine ⟨required', added', rfl, hsub, ?_⟩
      rw [(closure_eq_ok hcount h).2.2.2, (closure_eq_ok hcount hrun).2.2.2]
      exact Set.ncard_le_ncard (Set.sdiff_subset_sdiff_left hsub) (required.finite_ids.sdiff)

end

/-- A run that succeeds with `--expand-pointers` succeeds without, where the definitions it
prints need one another in no circle; it then prints less, and nothing else. -/
theorem generate_expandPointers {load : CString → Except Fault ObjectDoc} {fuel : Nat} {base : Btf}
    {options : Options} {paths : List CString} {out : Output}
    (h : generate load fuel base { options with expandPointers := true } paths = .ok out)
    (hacyclic : Demand.Acyclic (⨆ path ∈ paths, objectDemand load base path) base true) :
    ∃ fuel' less, generate load fuel' base { options with expandPointers := false } paths = .ok less ∧
      less.header ⊆ out.header ∧ less.addedTypes ≤ out.addedTypes ∧
        less.explanation = out.explanation ∧ less.seedTotal = out.seedTotal := by
  obtain ⟨⟨state, total⟩, hextract, h⟩ := bind_eq_ok.mp h
  obtain ⟨⟨header, added⟩, hemit, h⟩ := bind_eq_ok.mp h
  obtain ⟨explanation, hexplain, h⟩ := bind_eq_ok.mp h
  cases h
  obtain ⟨⟨required, added⟩, hclosure, hemit⟩ := bind_eq_ok.mp hemit
  obtain ⟨items, hitems, hemit⟩ := bind_eq_ok.mp hemit
  cases hemit
  have hgood := (extractObjects_extracted hextract).good
  obtain ⟨required', added', hclosure', hsub, hadded⟩ := @closure_of_expandPointers base
    (closureOptions options state.requirements) state.seeds required added hgood.count_eq hclosure
  have hids : required.ids = state.demand.selected base true := SeedState.ids_closed hgood rfl hclosure
  rw [← extractObjects_demand hextract] at hacyclic
  unfold Demand.Acyclic at hacyclic
  rw [state.demand_ctx hgood, ← hids] at hacyclic
  have hdefinable := (HeaderDefinable.of_emitHeader hitems).mono hsub
  have hacyclic' : ∀ node, Reached (emitCtx base (some state.requirements)) required'.ids node →
      ¬TransGen (Needs (emitCtx base (some state.requirements))) node node := by
    rintro node ⟨start, hid, hisNode, hreach⟩
    exact hacyclic node ⟨start, hsub hid, hisNode, hreach⟩
  obtain ⟨items', fuel', hfinishes⟩ := hdefinable.finishes hacyclic'
  have hitems' := hfinishes fuel' (Nat.le_refl fuel')
  refine ⟨fuel', { header := items', explanation, seedTotal := total, addedTypes := added' }, ?_,
    emitHeader_subset hsub hitems' hitems, hadded, rfl, rfl⟩
  have hemit' : closeAndEmit fuel' base state.seeds
      (closureOptions { options with expandPointers := false } state.requirements) =
        .ok (items', added') :=
    bind_eq_ok.mpr ⟨_, hclosure', bind_eq_ok.mpr ⟨items', hitems', rfl⟩⟩
  exact bind_eq_ok.mpr ⟨_, hextract, bind_eq_ok.mpr ⟨_, hemit', bind_eq_ok.mpr ⟨_, hexplain, rfl⟩⟩⟩

/-- What `struct R` has behind its pointers is declared, not defined. -/
theorem recordBehindPointer_not_needs {keeps : Nat → Nat → Bool} {node dep : Node} :
    ¬Needs ⟨recordBehindPointer, keeps⟩ node dep := by
  have hwalks : ∀ from_ ∈ [(Mode.hard, 2), (.soft, 2), (.soft, 3), (.hard, 4), (.soft, 0)],
      (∀ to_ ∈ walkTargets ⟨recordBehindPointer, keeps⟩ from_, to_ ∈ [(Mode.soft, 2), (.soft, 3)]) ∧
        walkNodes ⟨recordBehindPointer, keeps⟩ from_ = [] := by
    intro from_ hfrom
    simp only [List.mem_cons, List.not_mem_nil, or_false] at hfrom
    rcases hfrom with rfl | rfl | rfl | rfl | rfl
    · exact ⟨fun to_ hto => List.mem_cons.mpr (Or.inl (List.mem_singleton.mp hto)), rfl⟩
    · exact ⟨fun to_ hto => List.mem_cons_of_mem _ hto, rfl⟩
    all_goals exact ⟨fun to_ hto => absurd hto List.not_mem_nil, rfl⟩
  have hpairs : ∀ to_ ∈ [(Mode.soft, 2), (.soft, 3)],
      to_ ∈ [(Mode.hard, 2), (.soft, 2), (.soft, 3), (.hard, 4), (.soft, 0)] := by
    decide
  apply not_needs_of_closed (nodeStarts_of_types ?_ ?_ node) ?_ fun from_ hfrom => (hwalks from_ hfrom).2
  · rintro (_ | _ | _ | _ | _ | id) type htype member hmember <;> cases htype
    · cases hmember
    · rcases List.mem_pair.mp hmember with rfl | rfl <;> decide
    · cases hmember
    · obtain rfl := List.mem_singleton.mp hmember
      decide
    · cases hmember
  · rintro (_ | _ | _ | _ | _ | id) type htype <;> cases htype
    all_goals
      change (Mode.soft, _) ∈ _
      decide
  · exact fun from_ hfrom to_ hto => hpairs to_ ((hwalks from_ hfrom).1 to_ hto)

theorem generate_expandPointers_recordBehindPointer : ∃ out fuel less,
    generate (fun _ => .ok { btf := smallBase, ext := none }) 10 recordBehindPointer
        { expandPointers := true } [['a']] = .ok out ∧
      generate (fun _ => .ok { btf := smallBase, ext := none }) fuel recordBehindPointer {} [['a']] =
        .ok less ∧
      less.header ⊆ out.header := by
  have hrun : (generate (fun _ => .ok { btf := smallBase, ext := none }) 10 recordBehindPointer
      { expandPointers := true } [['a']]).toOption.isSome = true := by
    decide +kernel
  obtain ⟨out, hout⟩ := exists_ok_of_isSome hrun
  obtain ⟨fuel, less, hless, hheader, _⟩ := @generate_expandPointers
    (fun _ => .ok { btf := smallBase, ext := none }) 10 recordBehindPointer {} [['a']] out hout (by
      intro node _ hcycle
      obtain ⟨mid, hneeds, _⟩ := TransGen.head'_iff.mp hcycle
      exact recordBehindPointer_not_needs hneeds)
  exact ⟨out, fuel, less, hout, hless, hheader⟩

end MinCorehdr
