import Mathlib.Data.Set.Card
import MinCorehdr.Provenance

/-!
# The seeds that `--stats` counts

A type is a seed of the first that asks for it: a candidate that matches it, a relocation that
starts at it, or a relocation that comes to it through a member.  `--stats` counts the
candidates, the relocations, and what the first two have brought in.
-/

namespace MinCorehdr

open Support.FirstAsked Support.Result

/-! ## Asks for seeds -/

/-- How a type comes to be a seed. -/
inductive SeedReason
  | candidate | root | member
  deriving DecidableEq

abbrev SeedAsk := Ask Nat SeedReason

open Classical in
/-- A candidate asks for its match, a type that is no candidate does not ask. -/
noncomputable def candidateAsks (base object : Btf) (pair : BtfType × Nat) : List SeedAsk :=
  if IsCandidate object pair.2 then [⟨.candidate, { baseId | Seeded base object pair.2 baseId }⟩]
  else []

def reloSeedAsks (base object : Btf) (placed : PlacedRelo) : List SeedAsk :=
  [⟨.root, { baseId | ChainEnds base object 32 placed.relo.typeId (.base baseId) }⟩,
    ⟨.member, (reloDemand base object placed.relo).1⟩]

noncomputable def ObjectText.seedAsks (base : Btf) (text : ObjectText) : List SeedAsk :=
  (text.btf.types.zipIdx 1).flatMap (candidateAsks base text.btf) ++
    text.doc.placed.flatMap (reloSeedAsks base text.btf)

noncomputable def runSeedAsks (base : Btf) (text : CString → ObjectText) (paths : List CString) :
    List SeedAsk :=
  paths.flatMap fun path => (text path).seedAsks base

/-- The types whose first ask has this reason. -/
def firstAskedBy (asks : List SeedAsk) (reason : SeedReason) : Set Nat :=
  { id | EnteredFirst Prod.mk Prod.snd asks (reason, id) }

open Classical in
noncomputable def seedStatsOf (asks : List SeedAsk) : SeedStats where
  candidates := asks.countP fun ask => ask.origin = .candidate
  kernelTypes := (firstAskedBy asks .candidate).ncard
  programLocalTypes := asks.countP fun ask => ask.origin = .candidate ∧ ask.keys = ∅
  coreRelocations := asks.countP fun ask => ask.origin = .root
  coreKernelTypes := (firstAskedBy asks .root).ncard

/-! ## Tallies -/

open Classical in
/-- The numbers, with the new seeds read off a log. -/
noncomputable def tally (asks : List SeedAsk) (log : List (SeedReason × Nat)) : SeedStats where
  candidates := asks.countP fun ask => ask.origin = .candidate
  kernelTypes := log.countP fun seed => seed.1 = .candidate
  programLocalTypes := asks.countP fun ask => ask.origin = .candidate ∧ ask.keys = ∅
  coreRelocations := asks.countP fun ask => ask.origin = .root
  coreKernelTypes := log.countP fun seed => seed.1 = .root

theorem tally_append (asks asks' : List SeedAsk) (log log' : List (SeedReason × Nat)) :
    tally (asks ++ asks') (log ++ log') = (tally asks log).add (tally asks' log') := by
  simp [tally, SeedStats.add, List.countP_append]

theorem SeedStats.add_assoc (first second third : SeedStats) :
    (first.add second).add third = first.add (second.add third) := by
  simp [SeedStats.add, Nat.add_assoc]

theorem SeedStats.zero_add (stats : SeedStats) : ({} : SeedStats).add stats = stats := by
  simp [SeedStats.add]

/-- Each seed has one entry in the log, that of its first ask. -/
theorem countP_log {asks : List SeedAsk} {log : List (SeedReason × Nat)}
    (h : Logs Prod.mk Prod.snd ∅ asks log) (reason : SeedReason) :
    log.countP (fun seed => seed.1 = reason) = (firstAskedBy asks reason).ncard := by
  have hnodup : ((log.filter fun seed => seed.1 = reason).map Prod.snd).Nodup :=
    h.nodup.1.sublist (List.filter_sublist.map Prod.snd)
  have hset : firstAskedBy asks reason =
      ((log.filter fun seed => seed.1 = reason).map Prod.snd).toFinset := by
    ext id
    have hmem := h.mem_iff (reason, id)
    simpa [firstAskedBy] using hmem.symm
  rw [hset, Set.ncard_coe_finset, List.toFinset_card_of_nodup hnodup, List.length_map,
    List.countP_eq_length_filter]

theorem tally_eq {asks : List SeedAsk} {log : List (SeedReason × Nat)}
    (h : Logs Prod.mk Prod.snd ∅ asks log) : tally asks log = seedStatsOf asks := by
  unfold tally seedStatsOf
  rw [countP_log h, countP_log h]

def SeedState.seedIds (state : SeedState) : Set Nat :=
  { id | mchTypeSetContains state.seeds id = true }

/-- The asks have been answered and counted. -/
structure Tallied (base : Btf) (before after : SeedState × SeedStats) (asks : List SeedAsk) :
    Prop where
  good : after.1.Good base
  seedIds_eq : after.1.seedIds = heldAfter before.1.seedIds asks
  tallies : ∃ log, after.2 = before.2.add (tally asks log) ∧
    Logs Prod.mk Prod.snd before.1.seedIds asks log

section

variable {base : Btf} {before mid after state : SeedState × SeedStats} {asks asks' : List SeedAsk}

theorem Tallied.refl (h : state.1.Good base) : Tallied base state state [] :=
  ⟨h, (heldAfter_nil _).symm, [], by simp [tally, SeedStats.add], .nil⟩

theorem Tallied.trans (h : Tallied base before mid asks) (h' : Tallied base mid after asks') :
    Tallied base before after (asks ++ asks') := by
  obtain ⟨log, heq, hlogs⟩ := h.tallies
  obtain ⟨log', heq', hlogs'⟩ := h'.tallies
  rw [h.seedIds_eq] at hlogs'
  refine ⟨h'.good, ?_, log ++ log', ?_, hlogs.append hlogs'⟩
  · rw [h'.seedIds_eq, h.seedIds_eq, heldAfter_append]
  · rw [heq', heq, tally_append, SeedStats.add_assoc]

theorem Tallied.foldlM {α : Type}
    {step : SeedState × SeedStats → α → Except Fault (SeedState × SeedStats)}
    {asksOf : α → List SeedAsk} {as : List α}
    (h : ∀ a ∈ as, ∀ r r', r.1.Good base → step r a = .ok r' → Tallied base r r' (asksOf a))
    {r r' : SeedState × SeedStats} (hgood : r.1.Good base) (hrun : as.foldlM step r = .ok r') :
    Tallied base r r' (as.flatMap asksOf) :=
  foldlM_collects (P := fun r : SeedState × SeedStats => r.1.Good base) (R := Tallied base)
    (fun _ hr => Tallied.refl hr) (fun _ _ _ _ _ hfirst hrest => hfirst.trans hrest)
    (fun _ _ _ htallied => htallied.good) h hgood hrun

end

/-! ## Objects -/

section

variable {base object : Btf} {index : BtfIndex} {path : CString} {text : ObjectText}
  {load : CString → Except Fault ObjectDoc} {state final : SeedState × SeedStats}

theorem requireTypeRoot_seeds {before after : SeedState} {id : Nat} {origin : Option RequirementOrigin}
    (h : requireTypeRoot before id origin = .ok after) : after.seeds = before.seeds := by
  obtain ⟨_, _, rfl⟩ := withRequirements_eq_ok.mp h
  rfl

theorem seedIds_addSeed {before : SeedState} {id : Nat} (hid : id < before.seeds.count) :
    (addSeed before id).1.seedIds = before.seedIds ∪ {id} := by
  ext other
  change mchTypeSetContains (mchTypeSetAdd before.seeds id).1 other = true ↔ _
  rw [contains_mchTypeSetAdd]
  simp [SeedState.seedIds, hid, or_comm]

/-- An ask for one type is entered where the type is new. -/
theorem addSeed_logs {before : SeedState} {id : Nat} (reason : SeedReason)
    (hid : id < before.seeds.count) :
    Logs Prod.mk Prod.snd before.seedIds [⟨reason, {id}⟩]
      (if (addSeed before id).2 then [(reason, id)] else []) := by
  have hfresh : (addSeed before id).2 = true ↔ id ∉ before.seedIds := by
    have hsnd : (addSeed before id).2 = true ↔ id < before.seeds.count ∧
        mchTypeSetContains before.seeds id = false := mchTypeSetAdd_snd before.seeds id
    simpa [SeedState.seedIds, hid] using hsnd
  by_cases hnew : id ∈ before.seedIds
  · rw [if_neg (hfresh.not.mpr (not_not.mpr hnew))]
    refine .single (by simp) (by simp) fun key => ?_
    simp +contextual [hnew]
  · rw [if_pos (hfresh.mpr hnew)]
    refine .single (by simp) (by simp) fun key => ?_
    simp +contextual [hnew]

/-- Types below a bound that are asked for have a log. -/
theorem exists_logs (reason : SeedReason) (held keys : Set Nat) {n : Nat}
    (h : ∀ id ∈ keys, id < n) : ∃ log,
      Logs Prod.mk Prod.snd held [⟨reason, keys⟩] log ∧ ∀ seed ∈ log, seed.1 = reason := by
  classical
  have hentry : ∀ seed ∈ ((List.range n).filter fun id => id ∈ keys ∧ id ∉ held).map
      (Prod.mk reason), seed = (reason, seed.2) := by
    intro seed hseed
    obtain ⟨id, _, rfl⟩ := List.mem_map.mp hseed
    rfl
  have hids : (((List.range n).filter fun id => id ∈ keys ∧ id ∉ held).map (Prod.mk reason)).map
      Prod.snd = (List.range n).filter fun id => id ∈ keys ∧ id ∉ held := by
    simp [Function.comp_def]
  refine ⟨_, .single hentry ?_ fun key => ?_, fun seed hseed => congrArg Prod.fst (hentry seed hseed)⟩
  · rw [hids]
    exact List.nodup_range.filter _
  · rw [hids]
    simp only [List.mem_filter, List.mem_range, decide_eq_true_eq, and_iff_right_iff_imp]
    exact fun hkey => h key hkey.1

theorem countP_of_reason {log : List (SeedReason × Nat)} {reason reason' : SeedReason}
    (h : ∀ seed ∈ log, seed.1 = reason) (hne : reason ≠ reason') :
    log.countP (fun seed => seed.1 = reason') = 0 := by
  refine List.countP_eq_zero.mpr fun seed hseed => ?_
  rw [h seed hseed]
  simpa using hne

theorem seeded_eq_singleton {id baseId : Nat} (h : Seeded base object id baseId) :
    { other | Seeded base object id other } = {baseId} := by
  ext other
  constructor
  · intro hother
    cases hother.2.unique h.2
    rfl
  · rintro rfl
    exact h

theorem chainEnds_eq_singleton {id baseId : Nat} (h : ChainEnds base object 32 id (.base baseId)) :
    { other | ChainEnds base object 32 id (.base other) } = {baseId} := by
  ext other
  constructor
  · intro hother
    cases ChainEnds.unique hother h
    rfl
  · rintro rfl
    exact h

/-- What is asked for after a part of it. -/
theorem heldAfter_pair_of_subset {held keys keys' : Set Nat} {reason reason' : SeedReason}
    (h : keys ⊆ keys') : heldAfter held [⟨reason, keys⟩, ⟨reason', keys'⟩] = held ∪ keys' := by
  ext id
  simp only [heldAfter, Set.mem_union, Set.mem_ofPred_eq, List.mem_cons, List.not_mem_nil,
    exists_eq_or_imp, or_false, exists_eq_left]
  have hpart : id ∈ keys → id ∈ keys' := fun hid => h hid
  constructor
  · rintro (hid | hid | hid)
    · exact Or.inl hid
    · exact Or.inr (hpart hid)
    · exact Or.inr hid
  · rintro (hid | hid)
    · exact Or.inl hid
    · exact Or.inr (Or.inr hid)

/-- A candidate is counted, and so is its match where it is new. -/
theorem seedObjectType_tallied {pair : BtfType × Nat} (hindex : mchBtfIndexInit base = .ok index)
    (hformat : base.InFormat) (hrefs : object.RefsInRange) (hzero : pair.2 ≠ 0)
    (htype : btfTypeById object pair.2 = some pair.1) (hgood : state.1.Good base)
    (h : seedObjectType index object path state pair = .ok final) :
    Tallied base state final (candidateAsks base object pair) := by
  have hadds := (@seedObjectType_asks base object index path hindex hformat hrefs state pair hzero
    htype hgood).adds final h
  rcases seedObjectType_eq_ok hindex hrefs hzero htype h with
    ⟨hnot, rfl⟩ | ⟨hcandidate, hnone, rfl⟩ | ⟨baseId, mid, hseeded, hrequire, rfl⟩
  · rw [candidateAsks, if_neg hnot]
    exact .refl hgood
  · have hkeys : { baseId | Seeded base object pair.2 baseId } = ∅ :=
      Set.eq_empty_of_forall_notMem hnone
    rw [candidateAsks, if_pos hcandidate, hkeys]
    refine ⟨hgood, ?_, [], by simp [tally, SeedStats.add], .single (by simp) (by simp) (by simp)⟩
    ext id
    simp [heldAfter]
  · have hseeds := requireTypeRoot_seeds hrequire
    have hsame : mid.seedIds = state.1.seedIds := by rw [SeedState.seedIds, hseeds, SeedState.seedIds]
    have hid : baseId < mid.seeds.count := by
      rw [hseeds, hgood.count_eq]
      exact hseeded.2.base_lt rfl
    have hlogs := addSeed_logs .candidate hid
    rw [candidateAsks, if_pos hseeded.1, seeded_eq_singleton hseeded]
    rw [hsame] at hlogs
    refine ⟨hadds.good, ?_, _, ?_, hlogs⟩
    · rw [seedIds_addSeed hid, hsame]
      ext other
      simp [heldAfter, or_comm]
    · cases (addSeed mid baseId).2 <;> simp [tally, SeedStats.add]

/-- A relocation is counted, and so is its root where it is new. -/
theorem extractRelo_tallied {placed : PlacedRelo} (hindex : mchBtfIndexInit base = .ok index)
    (hformat : base.InFormat) (hsearch : base.Searchable) (hrefs : text.btf.RefsInRange)
    (hgood : state.1.Good base)
    (h : text.doc.extractRelo index text.btf path state placed = .ok final) :
    Tallied base state final (reloSeedAsks base text.btf placed) := by
  have hasks := @extractRelo_asks base text.btf index path text.doc hindex hformat hsearch hrefs state
    placed hgood
  have hadds := hasks.adds final h
  obtain ⟨baseId, rooted, hroot, _, _, hstats⟩ := extractRelo_eq_ok hindex hrefs h
  obtain ⟨baseId', members, hrelo⟩ := hasks.succeeds_iff.mp ⟨final, h⟩
  cases hrelo.1.unique hroot
  have hown : baseId ∈ (reloDemand base text.btf placed.relo).1 := by
    rw [reloDemand_eq hrelo]
    exact Or.inl rfl
  have hfinal : final.1.seedIds = state.1.seedIds ∪ (reloDemand base text.btf placed.relo).1 :=
    congrArg Prod.fst hadds.demand_eq
  have hid : baseId < state.1.seeds.count := by
    rw [hgood.count_eq]
    exact hroot.base_lt rfl
  obtain ⟨log, hlogs, hreason⟩ := exists_logs .member (heldAfter state.1.seedIds
    [⟨SeedReason.root, {baseId}⟩])
    (reloDemand base text.btf placed.relo).1 fun id hmem => by
      have hseed : id ∈ final.1.seedIds := hfinal ▸ Or.inr hmem
      exact lt_count_of_contains hseed
  have hcandidates := @countP_of_reason log .member .candidate hreason nofun
  have hroots := @countP_of_reason log .member .root hreason nofun
  unfold reloSeedAsks
  rw [chainEnds_eq_singleton hroot]
  refine ⟨hadds.good, ?_, _, ?_, (addSeed_logs .root hid).append hlogs⟩
  · rw [hfinal]
    exact (heldAfter_pair_of_subset (Set.singleton_subset_iff.mpr hown)).symm
  · rw [hstats]
    cases (addSeed state.1 baseId).2 <;> simp [tally, SeedStats.add, hcandidates, hroots]

/-- An object is counted by its asks for seeds. -/
theorem extractObject_tallied (hindex : mchBtfIndexInit base = .ok index) (hformat : base.InFormat)
    (hsearch : base.Searchable) (htext : HasText load path text) (hrefs : text.btf.RefsInRange)
    (hgood : state.1.Good base) (h : extractObject load index state path = .ok final) :
    Tallied base state final (text.seedAsks base) := by
  obtain ⟨seeded, last, hseeds, hrelos, rfl⟩ := extractObject_eq_ok htext h
  have hfirst : Tallied base (state.1, {}) seeded
      ((text.btf.types.zipIdx 1).flatMap (candidateAsks base text.btf)) := by
    refine Tallied.foldlM (fun pair hpair r r' hr hstep => ?_) hgood hseeds
    obtain ⟨hzero, htype⟩ := mem_types_zipIdx hpair
    exact seedObjectType_tallied hindex hformat hrefs hzero htype hr hstep
  have hsecond : Tallied base seeded last (text.doc.placed.flatMap (reloSeedAsks base text.btf)) :=
    Tallied.foldlM (fun placed _ r r' hr hstep =>
      extractRelo_tallied hindex hformat hsearch hrefs hr hstep) hfirst.good hrelos
  obtain ⟨hlast, hids, log, hstats, hlogs⟩ := hfirst.trans hsecond
  refine ⟨hlast, hids, log, ?_, hlogs⟩
  rw [hstats, SeedStats.zero_add]
  rfl

end

/-! ## Runs -/

theorem seedIds_initialSeedState (base : Btf) : (initialSeedState base).seedIds = ∅ :=
  congrArg Prod.fst (demand_initialSeedState base)

/-- The seeds that a run reports: each is counted once, for the first that asks for it. -/
theorem generate_seedTotal {load : CString → Except Fault ObjectDoc} {fuel : Nat} {base : Btf}
    {options : Options} {text : CString → ObjectText} {paths : List CString} {out : Output}
    (hformat : base.InFormat) (hsearch : base.Searchable)
    (htext : ∀ path ∈ paths, HasText load path (text path))
    (hrefs : ∀ path ∈ paths, (text path).btf.RefsInRange)
    (h : generate load fuel base options paths = .ok out) :
    out.seedTotal = seedStatsOf (runSeedAsks base text paths) := by
  obtain ⟨⟨state, total⟩, hextract, h⟩ := bind_eq_ok.mp h
  obtain ⟨⟨header, added⟩, _, h⟩ := bind_eq_ok.mp h
  obtain ⟨explanation, _, h⟩ := bind_eq_ok.mp h
  cases h
  obtain ⟨index, hindex, hrun⟩ := bind_eq_ok.mp hextract
  have htallied : Tallied base (initialSeedState base, {}) (state, total)
      (runSeedAsks base text paths) :=
    Tallied.foldlM (fun path hpath r r' hr hstep => extractObject_tallied hindex hformat hsearch
      (htext path hpath) (hrefs path hpath) hr hstep) (initialSeedState_good base) hrun
  obtain ⟨log, hstats, hlogs⟩ := htallied.tallies
  rw [seedIds_initialSeedState] at hlogs
  rw [SeedStats.zero_add, tally_eq hlogs] at hstats
  exact hstats

theorem generate_seedTotal_written : ∃ out,
    generate loadWritten 10 smallBase { explain := true } [['a'], ['b']] = .ok out ∧
      out.seedTotal = seedStatsOf (runSeedAsks smallBase writtenText [['a'], ['b']]) := by
  obtain ⟨out, hout⟩ := exists_ok_of_isSome generate_written_isSome
  exact ⟨out, hout, generate_seedTotal (.of_types (by decide) (by decide)) (.of_named (by decide))
    hasText_written (fun _ _ => smallBase_refsInRange) hout⟩

end MinCorehdr
