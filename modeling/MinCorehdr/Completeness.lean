import MinCorehdr.Correctness
import MinCorehdr.Emitter.Success

/-!
# When a run succeeds

The exit status of a run with an output path, in terms of the base BTF, of what the objects
hold, and of the definitions that their demand selects.
-/

namespace MinCorehdr

open Relation Support.DepthFirst Support.Fuel Support.Result Support.Stdio

/-- No definition that the demand selects needs itself, at any depth. -/
def Demand.Acyclic (demand : Demand) (base : Btf) (expandPointers : Bool) : Prop :=
  ∀ node, Reached (demand.ctx base) (demand.selected base expandPointers) node →
    ¬TransGen (Needs (demand.ctx base)) node node

/-- What is selected refers to types that there are, and can be printed. -/
structure Demand.HasHeader (demand : Demand) (base : Btf) (expandPointers : Bool) : Prop where
  inRange : ∀ id ∈ demand.selected base expandPointers, ∀ dep,
    Refers base expandPointers demand.Keeps id dep → dep < btfTypeCnt base
  definable : HeaderDefinable (demand.ctx base) (demand.selected base expandPointers)

/-! ## From a seed state to its header -/

section

variable {base : Btf} {state : SeedState} {options : ClosureOptions}

theorem SeedState.refers_iff (hgood : state.Good base)
    (hrequirements : options.requirements = some state.requirements) {id dep : Nat} :
    Refers base options.expandPointers state.demand.Keeps id dep ↔
      ∃ type, btfTypeById base id = some type ∧ dep ∈ typeDeps options id type :=
  MinCorehdr.refers_iff fun _ _ => by
    rw [hrequirements]
    exact state.demand_keeps hgood

/-- The closure succeeds where what is selected refers to types that there are. -/
theorem SeedState.closes_iff (hgood : state.Good base)
    (hrequirements : options.requirements = some state.requirements) :
    (∃ closed, mchComputeDependencyClosureWithOptions base state.seeds options = .ok closed) ↔
      ∀ id ∈ state.demand.selected base options.expandPointers, ∀ dep,
        Refers base options.expandPointers state.demand.Keeps id dep → dep < btfTypeCnt base := by
  have hinvalid : ReachesInvalid base options state.seeds ↔
      ∃ id ∈ state.demand.selected base options.expandPointers, ∃ dep,
        Refers base options.expandPointers state.demand.Keeps id dep ∧ btfTypeCnt base ≤ dep := by
    rw [← closureSet_eq_selected hgood hrequirements, reachesInvalid_iff]
    simp only [SeedState.refers_iff hgood hrequirements]
    constructor
    · rintro ⟨id, type, dep, hreach, htype, hdep, hrange⟩
      exact ⟨id, hreach, dep, ⟨type, htype, hdep⟩, hrange⟩
    · rintro ⟨id, hreach, dep, ⟨type, htype, hdep⟩, hrange⟩
      exact ⟨id, type, dep, hreach, htype, hdep, hrange⟩
  constructor
  · rintro ⟨closed, h⟩ id hid dep hrefers
    by_contra hrange
    obtain ⟨err, herr⟩ := closure_of_reachesInvalid hgood.count_eq
      (hinvalid.mpr ⟨id, hid, dep, hrefers, by omega⟩)
    rw [h] at herr
    cases herr
  · intro hall
    cases h : mchComputeDependencyClosureWithOptions base state.seeds options with
    | ok closed => exact ⟨closed, rfl⟩
    | error fault =>
        obtain ⟨_, hreaches⟩ := closure_eq_error hgood.count_eq h
        obtain ⟨id, hid, dep, hrefers, hrange⟩ := hinvalid.mp hreaches
        have hlt := hall id hid dep hrefers
        omega

theorem SeedState.ids_closed (hgood : state.Good base)
    (hrequirements : options.requirements = some state.requirements) {required : TypeSet} {added : Nat}
    (h : mchComputeDependencyClosureWithOptions base state.seeds options = .ok (required, added)) :
    required.ids = state.demand.selected base options.expandPointers := by
  obtain ⟨_, hids⟩ := contains_closure_iff hgood.count_eq h
  rw [← closureSet_eq_selected hgood hrequirements]
  exact Set.ext hids

/-- A closed state is printed where its definitions can be. -/
theorem SeedState.emits (hgood : state.Good base)
    (hrequirements : options.requirements = some state.requirements) {required : TypeSet} {added : Nat}
    (h : mchComputeDependencyClosureWithOptions base state.seeds options = .ok (required, added))
    (hacyclic : state.demand.Acyclic base options.expandPointers)
    (hheader : state.demand.HasHeader base options.expandPointers) :
    Finishes fun fuel => mchEmitHeaderWithOptions fuel base required (some state.requirements) := by
  have hids := SeedState.ids_closed hgood hrequirements h
  have hdefinable := hheader.definable
  unfold Demand.Acyclic at hacyclic
  rw [state.demand_ctx hgood, ← hids] at hacyclic hdefinable
  exact hdefinable.finishes hacyclic

/-- A state whose header was printed has one. -/
theorem SeedState.hasHeader (hgood : state.Good base)
    (hrequirements : options.requirements = some state.requirements) {required : TypeSet} {added : Nat}
    (h : mchComputeDependencyClosureWithOptions base state.seeds options = .ok (required, added))
    {fuel : Nat} {items : List Item}
    (hemit : mchEmitHeaderWithOptions fuel base required (some state.requirements) = .ok items) :
    state.demand.HasHeader base options.expandPointers := by
  constructor
  · exact (SeedState.closes_iff hgood hrequirements).mp ⟨_, h⟩
  · rw [state.demand_ctx hgood, ← SeedState.ids_closed hgood hrequirements h]
    exact .of_emitHeader hemit

end

/-! ## From the options to the exit status -/

/-- Nothing fails that is not up to the input. -/
structure Env.Works (env : Env) (opts : CliOptions) (path : CString) (files : Files) : Prop where
  typeSet : env.typeSetFails = false
  requirements : env.requirementsFails = false
  opens : ∃ files' tmp, openTempOutput env path files = (files', .ok tmp)
  room : ∀ fuel header, Generates fuel env opts header →
    (headerText header).length ≤ env.output.capacity
  close : env.closeFails = false
  rename : env.renameFails = false
  stderr : env.stderrFails = false

section

variable {fuel : Nat} {env : Env} {opts : CliOptions} {world : World} {path : CString}

theorem selectTypes_of_ok {base : Btf} {state : SeedState} {total : SeedStats} {required : TypeSet}
    {added : Nat} (htypeSet : env.typeSetFails = false) (hrequirements : env.requirementsFails = false)
    (hbase : env.loadBase opts.btfPath = .ok base)
    (hextract : extractObjects env.loadObject base opts.objects = .ok (state, total))
    (hclosure : mchComputeDependencyClosureWithOptions base state.seeds
      (opts.closure state.requirements) = .ok (required, added)) :
    selectTypes env opts = .ok { base, requirements := state.requirements, required } := by
  obtain ⟨index, hindex, hrun⟩ := bind_eq_ok.mp hextract
  unfold selectTypes
  rw [hbase, ok_bind, hindex, ok_bind, if_neg (by simp [htypeSet]), if_neg (by simp [hrequirements]),
    hrun, ok_bind]
  exact bind_eq_ok.mpr ⟨_, hclosure, rfl⟩

/-- Where nothing fails, a header that is printed arrives. -/
theorem writeHeaderToPath_of_works (hworks : env.Works opts path world.files) {selection : Selection}
    (hselect : selectTypes env opts = .ok selection) {items : List Item}
    (hemit : mchEmitHeaderWithOptions fuel selection.base selection.required
      (some selection.requirements) = .ok items) :
    ∃ files, writeHeaderToPath fuel env selection path world.files = (files, .ok ()) := by
  have hroom := hworks.room fuel items (generates_iff.mpr ⟨selection, hselect, hemit⟩)
  obtain ⟨files', tmp, hopen⟩ := hworks.opens
  have hwrote := wrote_puts env.output (headerText items)
  have hearly := env.output.early_le (headerText items).length
  have herror : (({} : Stream Char).puts env.output (headerText items)).error = false := by
    rw [hwrote.error_eq]
    exact decide_eq_false (by omega)
  have hflush : ((({} : Stream Char).puts env.output (headerText items)).flush env.output).error =
      false := by
    rw [hwrote.flush.2]
    exact decide_eq_false (by omega)
  unfold writeHeaderToPath emitTo
  rw [hopen, hemit]
  simp only [herror, Bool.false_eq_true, if_false, closeOutput, hflush, hworks.close, Bool.or_self,
    hworks.rename]
  exact ⟨_, rfl⟩

theorem main_of_generates (hruns : opts.Runs) (hpath : opts.outputPath = some path)
    (hworks : env.Works opts path world.files) {selection : Selection}
    (hselect : selectTypes env opts = .ok selection) {items : List Item}
    (hemit : mchEmitHeaderWithOptions fuel selection.base selection.required
      (some selection.requirements) = .ok items) :
    ∃ world', main fuel env opts world = some (0, world') := by
  obtain ⟨files, hwrite⟩ := writeHeaderToPath_of_works hworks hselect hemit
  rw [main_of_runs hruns, hselect]
  simp only [writeOutput, hpath, hwrite, writeExplanation_eq hselect, hworks.stderr, Bool.false_eq_true,
    and_false, if_false]
  exact ⟨_, rfl⟩

end

/-- Where nothing else fails and no definitions need one another in a circle, a run exits with 0
exactly if the base BTF can be indexed, each object answered, and the header that their demand
selects be printed. -/
theorem main_succeeds_iff {env : Env} {opts : CliOptions} {world : World} {path : CString} {base : Btf}
    {content : CString → ObjectContent} (hruns : opts.Runs) (hpath : opts.outputPath = some path)
    (hworks : env.Works opts path world.files) (hbase : env.loadBase opts.btfPath = .ok base)
    (hformat : base.InFormat) (hsearch : base.Searchable)
    (hcontent : ∀ path ∈ opts.objects, HasContent env.loadObject path (content path))
    (hrefs : ∀ path ∈ opts.objects, (content path).btf.RefsInRange)
    (hacyclic : Demand.Acyclic (⨆ path ∈ opts.objects, (content path).demand base) base
      opts.expandPointers) :
    (∃ fuel, ∀ more, fuel ≤ more → ∃ world', main more env opts world = some (0, world')) ↔
      (∃ index, mchBtfIndexInit base = .ok index) ∧
        (∀ path ∈ opts.objects, (content path).Answerable base) ∧
          Demand.HasHeader (⨆ path ∈ opts.objects, (content path).demand base) base
            opts.expandPointers := by
  have hextracts := extractObjects_succeeds_iff hformat hsearch hcontent hrefs
  rw [← and_assoc, ← hextracts]
  constructor
  · rintro ⟨fuel, h⟩
    obtain ⟨world', hmain⟩ := h fuel (Nat.le_refl fuel)
    obtain ⟨selection, items, hselect, hemit, _⟩ := main_writes hruns hpath hmain
    obtain ⟨_, _, state, total, added, hown, hextract, hrequirements, hclosure⟩ :=
      selectTypes_eq_ok hselect
    cases hbase.symm.trans hown
    refine ⟨⟨_, hextract⟩, ?_⟩
    rw [← extractObjects_demand_eq hformat hsearch hcontent hrefs hextract]
    rw [hrequirements] at hemit
    exact SeedState.hasHeader (extractObjects_extracted hextract).good rfl hclosure hemit
  · rintro ⟨⟨⟨state, total⟩, hextract⟩, hheader⟩
    have hgood := (extractObjects_extracted hextract).good
    rw [← extractObjects_demand_eq hformat hsearch hcontent hrefs hextract] at hacyclic hheader
    obtain ⟨⟨required, added⟩, hclosure⟩ :=
      (@SeedState.closes_iff base state (opts.closure state.requirements) hgood rfl).mpr hheader.inRange
    have hselect := selectTypes_of_ok hworks.typeSet hworks.requirements hbase hextract hclosure
    obtain ⟨items, fuel, hemit⟩ := SeedState.emits hgood rfl hclosure hacyclic hheader
    exact ⟨fuel, fun more hmore => main_of_generates hruns hpath hworks hselect (hemit more hmore)⟩

/-- The header of a run is the same on every budget that prints one. -/
theorem Generates.eq_of_budgets {fuel fuel' : Nat} {env : Env} {opts : CliOptions}
    {header header' : List Item} (h : Generates fuel env opts header)
    (h' : Generates fuel' env opts header') : header = header' := by
  obtain ⟨selection, hselect, hemit⟩ := generates_iff.mp h
  obtain ⟨selection', hselect', hemit'⟩ := generates_iff.mp h'
  cases hselect.symm.trans hselect'
  exact emitHeader_unique hemit hemit'

/-- Walks that stay among pairs without definitions need none. -/
theorem not_needs_of_closed {ctx : EmitCtx} {pairs : List (Mode × Nat)} {node dep : Node}
    (hstarts : ∀ start ∈ nodeStarts ctx node, start ∈ pairs)
    (hclosed : ∀ from_ ∈ pairs, ∀ to_ ∈ walkTargets ctx from_, to_ ∈ pairs)
    (hnone : ∀ from_ ∈ pairs, walkNodes ctx from_ = []) : ¬Needs ctx node dep := by
  intro hneeds
  have hdep : dep ∈ ([] : List Node) := by
    refine hneeds.follow pairs hstarts hclosed fun from_ hfrom other hother => ?_
    rwa [hnone from_ hfrom] at hother
  cases hdep

/-- Where a definition starts, in terms of what the types of the base refer to. -/
theorem nodeStarts_of_types {ctx : EmitCtx} {pairs : List (Mode × Nat)}
    (hmembers : ∀ id type, btfTypeById ctx.btf id = some type →
      ∀ member ∈ type.members, (.hard, member.type) ∈ pairs)
    (htargets : ∀ id type, btfTypeById ctx.btf id = some type →
      ((if typedefTargetNeedsHardDeps ctx type.type then .hard else .soft), type.type) ∈ pairs)
    (node : Node) : ∀ start ∈ nodeStarts ctx node, start ∈ pairs := by
  intro start hstart
  unfold nodeStarts at hstart
  cases node with
  | record id =>
      cases htype : btfTypeById ctx.btf id with
      | none => simp [htype] at hstart
      | some type =>
          simp only [htype] at hstart
          obtain ⟨dep, hdep, rfl⟩ := List.mem_map.mp hstart
          obtain ⟨member, i, hmember, _, rfl⟩ := mem_keptTypes.mp hdep
          exact hmembers id type htype member (List.mem_of_getElem? hmember)
  | typedef id =>
      cases htype : btfTypeById ctx.btf id with
      | none => simp [htype] at hstart
      | some type =>
          simp only [htype, List.mem_singleton] at hstart
          rw [hstart]
          exact htargets id type htype

/-- The members of `struct R` are integers, so no definition needs another. -/
theorem smallBase_not_needs {keeps : Nat → Nat → Bool} {node dep : Node} :
    ¬Needs ⟨smallBase, keeps⟩ node dep := by
  have hwalks : ∀ from_ ∈ [(Mode.hard, 2), (.soft, 0)],
      walkTargets ⟨smallBase, keeps⟩ from_ = [] ∧ walkNodes ⟨smallBase, keeps⟩ from_ = [] := by
    intro from_ hfrom
    rcases List.mem_pair.mp hfrom with rfl | rfl <;> exact ⟨rfl, rfl⟩
  apply not_needs_of_closed (nodeStarts_of_types ?_ ?_ node) ?_ fun from_ hfrom => (hwalks from_ hfrom).2
  · rintro (_ | _ | _ | id) type htype member hmember <;> cases htype
    · cases hmember
    · rcases List.mem_pair.mp hmember with rfl | rfl <;> decide
    · cases hmember
  · rintro (_ | _ | _ | id) type htype <;> cases htype
    all_goals exact List.mem_cons_of_mem _ List.mem_cons_self
  · intro from_ hfrom to_ hto
    rw [(hwalks from_ hfrom).1] at hto
    cases hto

theorem smallBase_acyclic (demand : Demand) (expandPointers : Bool) :
    demand.Acyclic smallBase expandPointers := by
  intro node _ hcycle
  obtain ⟨mid, hneeds, _⟩ := TransGen.head'_iff.mp hcycle
  exact smallBase_not_needs hneeds

theorem readsWritten_works : readsWritten.1.Works readsWritten.2 ['h'] (fun _ => none) := by
  have hshort : (generate loadWritten 10 smallBase {} [['a'], ['b']]).toOption.map
      (fun out => decide ((headerText out.header).length ≤ 4096)) = some true := by
    decide +kernel
  obtain ⟨out, hout, hlength⟩ := exists_ok_of_map hshort
  have hheader : Generates 10 readsWritten.1 readsWritten.2 out.header :=
    ⟨rfl, rfl, smallBase, out, rfl, hout, rfl⟩
  refine ⟨rfl, rfl, ⟨_, _, rfl⟩, fun fuel header h => ?_, rfl, rfl, rfl⟩
  rw [h.eq_of_budgets hheader]
  exact of_decide_eq_true hlength

theorem main_succeeds_iff_readsWritten :
    (∃ fuel, ∀ more, fuel ≤ more → ∃ world',
      main more readsWritten.1 readsWritten.2 { files := fun _ => none } = some (0, world')) ↔
      (∃ index, mchBtfIndexInit smallBase = .ok index) ∧
        (∀ path ∈ [['a'], ['b']], (writtenContent path).Answerable smallBase) ∧
          Demand.HasHeader (⨆ path ∈ [['a'], ['b']], (writtenContent path).demand smallBase) smallBase
            false := by
  exact main_succeeds_iff ⟨rfl, rfl⟩ rfl readsWritten_works rfl (.of_types (by decide) (by decide))
    (.of_named (by decide)) hasContent_written (fun _ _ => smallBase_refsInRange) (smallBase_acyclic _ _)

end MinCorehdr
