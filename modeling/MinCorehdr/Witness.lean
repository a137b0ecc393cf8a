import MinCorehdr.Emitter.Declared
import MinCorehdr.Union

/-!
# The witness and the header

Every requirement a run records comes with the seed of its type, so the closure
has the type.  A type with a name is then printed with the members recorded for
it.  A record without a name is printed only where a definition expands it.
-/

namespace MinCorehdr

open Relation Support.Result

/-- The text the header owes to a root. -/
def ShowsRoot (base : Btf) (items : List Item) (id : Nat) : Prop :=
  ∃ type, btfTypeById base id = some type ∧
    match type.kind with
    | .struct | .union => ∃ keyword name body, .recordDef id keyword name body ∈ items
    | .enum | .enum64 => ∃ name values, .enumDef id name values ∈ items
    | .typedef => ∃ name decl, .typedefDef id name decl ∈ items
    | .fwd => ∃ keyword name, .forwardDecl id keyword name ∈ items
    | _ => False

/-- The body of a record shows the member: its own definition if the record has a
name, otherwise the body inside some definition. -/
def ShowsMember (base : Btf) (items : List Item) (id i : Nat) : Prop :=
  ∃ item ∈ items, .member id i ∈ item.pieces ∧
    ∀ type, btfTypeById base id = some type → mchBtfTypeName base type ≠ [] →
      item.node? = some (.record id)

def ShowsKey (base : Btf) (items : List Item) : RequirementKey → Prop
  | .root id => ShowsRoot base items id
  | .member id i => ShowsMember base items id i

/-- Whatever the store holds, and so every line of the witness, is shown. -/
def WitnessShown (base : Btf) (requirements : Requirements) (items : List Item) : Prop :=
  (∀ key, requirements.holds key = true → ShowsKey base items key) ∧
    ∀ trace ∈ requirements.traces, ShowsKey base items trace.key

/-! ## Members that are shown -/

theorem member_mem_ownPieces {ctx : EmitCtx} {id id' i : Nat} :
    .member id i ∈ ownPieces ctx id' ↔ id' = id ∧ ∃ type, btfTypeById ctx.btf id = some type ∧
      type.kind.isRecord = true ∧ mchBtfTypeName ctx.btf type = [] ∧
        i < type.members.length ∧ ctx.keeps id i = true := by
  constructor
  · intro h
    unfold ownPieces at h
    cases htype : btfTypeById ctx.btf id' with
    | none => simp [htype] at h
    | some type =>
        by_cases hname : mchBtfTypeName ctx.btf type = [] <;> cases hkind : type.kind <;>
          simp only [htype, hkind, hname, List.mem_cons, List.not_mem_nil, reduceCtorEq, or_false,
            if_true, if_false] at h
        all_goals
          obtain ⟨⟨member, j⟩, hmem, heq⟩ := List.mem_map.mp h
          cases heq
          obtain ⟨hget, hkeeps⟩ := mem_keptMembers.mp hmem
          obtain ⟨hlt, _⟩ := List.getElem?_eq_some_iff.mp hget
          exact ⟨rfl, type, htype, by simp [hkind, Kind.isRecord], hname, hlt, hkeeps⟩
  · rintro ⟨rfl, type, htype, hkind, hname, hlt, hkeeps⟩
    have hmem : (Piece.member id' i) ∈
        (keptMembers ctx.keeps id' type).map (fun m => Piece.member id' m.2) :=
      List.mem_map.mpr ⟨(type.members[i], i),
        mem_keptMembers.mpr ⟨List.getElem?_eq_getElem hlt, hkeeps⟩, rfl⟩
    unfold ownPieces
    rw [htype]
    cases hkindEq : type.kind <;> simp_all [Kind.isRecord]

/-- A record without a name shows its members where a definition expands it. -/
theorem nodeShows_member_iff {ctx : EmitCtx} {node : Node} {id i : Nat} {type : BtfType}
    (hnode : isNode ctx node = true) (htype : btfTypeById ctx.btf id = some type)
    (hname : mchBtfTypeName ctx.btf type = []) :
    NodeShows ctx node (.member id i) ↔
      ∃ start ∈ nodeTypes ctx node, Expands ctx start id ∧ .member id i ∈ ownPieces ctx id := by
  have hshows : ∀ start, Shows ctx start (.member id i) ↔
      Expands ctx start id ∧ .member id i ∈ ownPieces ctx id := by
    intro start
    constructor
    · rintro ⟨to_, hreach, hpiece⟩
      obtain ⟨rfl, _⟩ := member_mem_ownPieces.mp hpiece
      exact ⟨hreach, hpiece⟩
    · rintro ⟨hreach, hpiece⟩
      exact ⟨id, hreach, hpiece⟩
  obtain ⟨own, hown, hfits⟩ := isNode_eq_true.mp hnode
  simp only [NodeShows, nodeTypes, hown]
  cases node with
  | typedef nodeId => simp [hshows]
  | record nodeId =>
      have hother : .member id i ∉
          (keptMembers ctx.keeps nodeId own).map (fun m => Piece.member nodeId m.2) := by
        intro hmem
        obtain ⟨_, _, heq⟩ := List.mem_map.mp hmem
        cases heq
        change btfTypeById ctx.btf id = some own at hown
        rw [htype] at hown
        cases hown
        simp [Node.Fits, isNamedRecord, hname] at hfits
      simp [hshows, hother]

/-! ## Roots and members of a run -/

/-- The context in which a run emits. -/
def storeCtx (base : Btf) (requirements : Requirements) : EmitCtx :=
  emitCtx base (some requirements)

section

variable {base : Btf} {requirements : Requirements} {required : TypeSet}
  {fwds enums defs : List Item}
  (hlayout : Layout (storeCtx base requirements) required fwds enums defs)

include hlayout

theorem exists_definition {node : Node} {type : BtfType} (hid : node.id ∈ required.ids)
    (htype : btfTypeById base node.id = some type)
    (hfits : node.Fits (storeCtx base requirements) type = true) :
    ∃ item ∈ headerItems fwds enums defs, item.node? = some node ∧
      item.FromWalk (storeCtx base requirements) := by
  apply hlayout.exists_item
  exact ⟨node, hid, isNode_eq_true.mpr ⟨type, htype, hfits⟩, .refl⟩

theorem exists_enumDef {id : Nat} {type : BtfType} (hid : id ∈ required.ids)
    (htype : btfTypeById base id = some type) (hkind : type.kind = .enum ∨ type.kind = .enum64) :
    ∃ name values, .enumDef id name values ∈ headerItems fwds enums defs := by
  have henum : isEnumKind type = true := by
    rcases hkind with hkind | hkind <;> simp [isEnumKind, hkind]
  have hmem := (hlayout.enumItem_mem_front htype henum).mpr hid
  have hitem : enumItem (storeCtx base requirements) id =
      .enumDef id (mchBtfTypeName base type) (enumerators base type) := by
    unfold enumItem
    rw [show btfTypeById (storeCtx base requirements).btf id = some type from htype]
    rfl
  rw [hitem] at hmem
  exact ⟨_, _, List.mem_append_left _ (List.mem_append_left _ hmem)⟩

theorem exists_forwardDecl {id : Nat} {type : BtfType} (hid : id ∈ required.ids)
    (htype : btfTypeById base id = some type) (hkind : type.kind = .fwd)
    (hname : mchBtfTypeName base type ≠ []) :
    ∃ keyword name, .forwardDecl id keyword name ∈ headerItems fwds enums defs := by
  have hitem : forwardItem (storeCtx base requirements) id =
      .forwardDecl id (recordKeyword type) (mchBtfTypeName base type) := by
    unfold forwardItem
    rw [show btfTypeById (storeCtx base requirements).btf id = some type from htype]
    rfl
  have hmem : forwardItem (storeCtx base requirements) id ∈ fwds := by
    rw [hlayout.fwds_eq]
    apply List.mem_map_of_mem
    rw [List.mem_filter, mem_requiredIds]
    refine ⟨hid, hasType_eq_true.mpr ⟨type, htype, ?_⟩⟩
    change ((type.kind.isRecord || type.kind == .fwd) &&
      decide (mchBtfTypeName base type ≠ [])) = true
    simp [hkind, hname]
  rw [hitem] at hmem
  refine ⟨recordKeyword type, mchBtfTypeName base type, ?_⟩
  simp [headerItems, hmem]

/-- Every required type that can be a root is in the header. -/
theorem showsRoot_of_required {id : Nat} (hroot : IsRootType base id) (hid : id ∈ required.ids) :
    ShowsRoot base (headerItems fwds enums defs) id := by
  obtain ⟨_, type, htype, hkind⟩ := hroot
  have hrecord : type.kind.isRecord = true → mchBtfTypeName base type ≠ [] →
      ∃ keyword name body, .recordDef id keyword name body ∈ headerItems fwds enums defs := by
    intro hrecord hname
    obtain ⟨item, hitem, hnode, _⟩ := @exists_definition base requirements required fwds enums defs
      hlayout (.record id) type hid htype (by
        change (type.kind.isRecord && decide (mchBtfTypeName base type ≠ [])) = true
        simp [hrecord, hname])
    cases item with
    | recordDef id' keyword name body =>
        cases hnode
        exact ⟨keyword, name, body, hitem⟩
    | _ => cases hnode
  have htypedef : type.kind = .typedef → mchBtfTypeName base type ≠ [] →
      ∃ name decl, .typedefDef id name decl ∈ headerItems fwds enums defs := by
    intro htypedef hname
    obtain ⟨item, hitem, hnode, _⟩ := @exists_definition base requirements required fwds enums defs
      hlayout (.typedef id) type hid htype (by
        change (type.kind == .typedef && decide (mchBtfTypeName base type ≠ [])) = true
        simp [htypedef, hname])
    cases item with
    | typedefDef id' name decl =>
        cases hnode
        exact ⟨name, decl, hitem⟩
    | _ => cases hnode
  refine ⟨type, htype, ?_⟩
  rcases hkind with ⟨hindexed, hname⟩ | henum
  · cases hkind : type.kind with
    | struct | union => exact hrecord (by rw [hkind]; rfl) hname
    | enum | enum64 => exact exists_enumDef hlayout hid htype (by simp [hkind])
    | typedef => exact htypedef hkind hname
    | fwd => exact exists_forwardDecl hlayout hid htype hkind hname
    | _ =>
        rw [hkind] at hindexed
        cases hindexed
  · have hdef := exists_enumDef hlayout hid htype henum
    rcases henum with henum | henum <;> simpa [henum] using hdef

end

/-- The members recorded for a record with a name are in its definition; those
of a record without one are shown exactly where a definition expands it. -/
theorem showsMember_iff {base : Btf} {requirements : Requirements} {required : TypeSet}
    {fwds enums defs : List Item}
    (hlayout : Layout (storeCtx base requirements) required fwds enums defs)
    (hstore : requirements.Consistent base) {id i : Nat} {type : BtfType}
    (hid : id ∈ required.ids) (hkey : requirements.holds (.member id i) = true)
    (htype : btfTypeById base id = some type) :
    ShowsMember base (headerItems fwds enums defs) id i ↔
      (mchBtfTypeName base type = [] →
        ∃ node, Reached (storeCtx base requirements) required.ids node ∧
          ∃ start ∈ nodeTypes (storeCtx base requirements) node,
            Expands (storeCtx base requirements) start id) := by
  obtain ⟨_, _, type', htype', hrecord, hindex⟩ := hstore.valid _ hkey
  rw [htype] at htype'
  cases htype'
  have hkeeps : (storeCtx base requirements).keeps id i = true :=
    (keepsMember_iff hstore).mpr (Or.inr hkey)
  have htagged : ¬(Piece.member id i).IsText := fun htext => htext
  by_cases hname : mchBtfTypeName base type = []
  · have hown : .member id i ∈ ownPieces (storeCtx base requirements) id :=
      member_mem_ownPieces.mpr ⟨rfl, type, htype, hrecord, hname, hindex, hkeeps⟩
    constructor
    · rintro ⟨item, hitem, hpiece, _⟩ _
      obtain ⟨node, hnode, hreached, hfrom⟩ := hlayout.exists_node hitem hpiece
      have hshows := (nodeShows_of_item hfrom hnode _ htagged).mp hpiece
      obtain ⟨start, hstart, hexpands, _⟩ :=
        (nodeShows_member_iff hreached.isNode htype hname).mp hshows
      exact ⟨node, hreached, start, hstart, hexpands⟩
    · intro hexpanded
      obtain ⟨node, hreached, start, hstart, hexpands⟩ := hexpanded hname
      obtain ⟨item, hitem, hnode, hfrom⟩ := hlayout.exists_item hreached
      refine ⟨item, hitem, ?_, ?_⟩
      · rw [nodeShows_of_item hfrom hnode _ htagged,
          nodeShows_member_iff hreached.isNode htype hname]
        exact ⟨start, hstart, hexpands, hown⟩
      · intro other hother hnamed
        rw [htype] at hother
        cases hother
        exact absurd hname hnamed
  · refine ⟨fun _ hnone => absurd hnone hname, fun _ => ?_⟩
    obtain ⟨item, hitem, hnode, hfrom⟩ := @exists_definition base requirements required fwds enums
      defs hlayout (.record id) type hid htype (by
        change (type.kind.isRecord && decide (mchBtfTypeName base type ≠ [])) = true
        simp [hrecord, hname])
    refine ⟨item, hitem, ?_, fun _ _ _ => hnode⟩
    rw [nodeShows_of_item hfrom hnode _ htagged]
    simp only [NodeShows, Node.id,
      show btfTypeById (storeCtx base requirements).btf id = some type from htype]
    left
    exact List.mem_map.mpr ⟨(type.members[i], i),
      mem_keptMembers.mpr ⟨List.getElem?_eq_getElem hindex, hkeeps⟩, rfl⟩

/-! ## Whole runs -/

/-- The witness is shown exactly when every record without a name that has
recorded members is expanded by a definition in reach of the seeds. -/
theorem witnessShown_iff {load : CString → Except Fault ObjectDoc} {base : Btf}
    {paths : List CString} {options : Options} {state : SeedState} {total : SeedStats} {fuel : Nat}
    {items : List Item} {added : Nat}
    (hextract : extractObjects load base paths = .ok (state, total))
    (hemit : closeAndEmit fuel base state.seeds (closureOptions options state.requirements) =
      .ok (items, added)) :
    WitnessShown base state.requirements items ↔
      ∀ id i type, state.requirements.holds (.member id i) = true →
        btfTypeById base id = some type → mchBtfTypeName base type = [] →
          IsExpanded (storeCtx base state.requirements)
            (closureSet base (closureOptions options state.requirements) state.seeds) id := by
  have hextracted := extractObjects_extracted hextract
  have hstore := hextracted.good.consistent
  obtain ⟨required, fwds, enums, defs, rfl, hids, hlayout⟩ :=
    closeAndEmit_layout hextracted.good.count_eq hemit
  change Layout (storeCtx base state.requirements) required fwds enums defs at hlayout
  rw [← hids]
  have hrequired : ∀ key, state.requirements.holds key = true → key.typeId ≠ 0 →
      key.typeId ∈ required.ids := by
    intro key hkey hzero
    rw [hids]
    exact ⟨key.typeId, ⟨hzero, hextracted.seeded key hkey⟩, .refl⟩
  have hmember : ∀ id i, state.requirements.holds (.member id i) = true →
      id ∈ required.ids ∧ ∃ type, btfTypeById base id = some type := by
    intro id i hkey
    obtain ⟨_, _, type, htype, hrecord, _⟩ := hstore.valid _ hkey
    refine ⟨hrequired _ hkey ?_, type, htype⟩
    rintro (rfl : id = 0)
    cases htype
    cases hrecord
  constructor
  · rintro ⟨hshown, _⟩ id i type hkey htype hname
    obtain ⟨hid, _⟩ := hmember id i hkey
    exact (showsMember_iff hlayout hstore hid hkey htype).mp (hshown _ hkey) hname
  · intro hexpanded
    have hshown : ∀ key, state.requirements.holds key = true →
        ShowsKey base (headerItems fwds enums defs) key := by
      intro key hkey
      cases key with
      | root id =>
          have hroot : IsRootType base id := hextracted.rooted _ hkey
          exact showsRoot_of_required hlayout hroot (hrequired _ hkey hroot.1)
      | member id i =>
          obtain ⟨hid, type, htype⟩ := hmember id i hkey
          exact (showsMember_iff hlayout hstore hid hkey htype).mpr (hexpanded id i type hkey htype)
    refine ⟨hshown, fun trace htrace => hshown _ ?_⟩
    exact (hstore.mem_keys trace.key).mp (List.mem_map_of_mem htrace)

theorem witnessShown_iff_small : ∃ state total items added,
    extractObjects loadSmall smallBase [['a'], ['b']] = .ok (state, total) ∧
      closeAndEmit 10 smallBase state.seeds (closureOptions {} state.requirements) =
        .ok (items, added) ∧
      (WitnessShown smallBase state.requirements items ↔
        ∀ id i type, state.requirements.holds (.member id i) = true →
          btfTypeById smallBase id = some type → mchBtfTypeName smallBase type = [] →
            IsExpanded (storeCtx smallBase state.requirements)
              (closureSet smallBase (closureOptions {} state.requirements) state.seeds) id) := by
  have hrun : (generate loadSmall 10 smallBase {} [['a'], ['b']]).toOption.isSome = true := by
    decide +kernel
  obtain ⟨out, hout⟩ := exists_ok_of_isSome hrun
  obtain ⟨state, added, hextract, hemit⟩ := generate_eq_ok hout
  exact ⟨state, out.seedTotal, out.header, added, hextract, hemit,
    witnessShown_iff hextract hemit⟩

/-- `struct R { struct { T *x; } *p; }` with `typedef struct { int a; } T`. -/
def wrapperBase : Btf where
  types := [
    { nameOff := 1, kind := .struct, size := 8, members := [{ nameOff := 3, type := 2 }] },
    { kind := .ptr, type := 3 },
    { kind := .struct, size := 8, members := [{ nameOff := 5, type := 4 }] },
    { kind := .ptr, type := 5 },
    { nameOff := 7, kind := .typedef, type := 6 },
    { kind := .struct, size := 4, members := [{ nameOff := 9, type := 7 }] },
    { nameOff := 11, kind := .int, size := 4, intInfo := 0x01000020 }]
  strs := "\x00R\x00p\x00x\x00T\x00a\x00int\x00".toList

/-- The same record, written without the typedef, and a read of `R.p->x->a`. -/
def wrapperObject : ObjectDoc where
  btf := {
    types := [
      { nameOff := 1, kind := .struct, size := 8, members := [{ nameOff := 3, type := 2 }] },
      { kind := .ptr, type := 3 },
      { kind := .struct, size := 8, members := [{ nameOff := 5, type := 4 }] },
      { kind := .ptr, type := 5 },
      { kind := .struct, size := 4, members := [{ nameOff := 7, type := 6 }] },
      { nameOff := 9, kind := .int, size := 4, intInfo := 0x01000020 }]
    strs := "\x00R\x00p\x00x\x00a\x00int\x000:0:0:0\x00".toList }
  ext := some (oneRelo 1 13)

def wrapperDefs : List Item := [
  .recordDef 1 "struct".toList ['R'] [.text " \x7b\n".toList, .member 1 0,
    .text "struct".toList, .text " \x7b\n".toList, .member 3 0, .typedefName 5 ['T'],
    .text " *x".toList, .text ";\n".toList, .text "\x7d".toList, .text " *p".toList,
    .text ";\n".toList, .text "\x7d".toList]]

/-- The member `a` of the record behind the typedef is recorded and explained, but
nothing prints the record. -/
theorem wrapper_notShown : ∃ state total added,
    extractObjects (fun _ => .ok wrapperObject) wrapperBase [['a']] = .ok (state, total) ∧
      closeAndEmit 10 wrapperBase state.seeds (closureOptions {} state.requirements) =
        .ok (headerItems [.forwardDecl 1 "struct".toList ['R']] [] wrapperDefs, added) ∧
      ¬WitnessShown wrapperBase state.requirements
        (headerItems [.forwardDecl 1 "struct".toList ['R']] [] wrapperDefs) := by
  have hrun : (extractObjects (fun _ => .ok wrapperObject) wrapperBase [['a']] >>= fun extracted =>
      closeAndEmit 10 wrapperBase extracted.1.seeds
        (closureOptions {} extracted.1.requirements) >>= fun emitted =>
          .ok (extracted.1.requirements.holds (.member 6 0), emitted.1)) =
        (.ok (true, headerItems [.forwardDecl 1 "struct".toList ['R']] [] wrapperDefs) :
          Except Fault (Bool × List Item)) := by
    decide +kernel
  obtain ⟨⟨state, total⟩, hextract, hrest⟩ := bind_eq_ok.mp hrun
  obtain ⟨⟨items, added⟩, hemit, hpair⟩ := bind_eq_ok.mp hrest
  obtain ⟨hholds, rfl⟩ := Prod.mk.inj (Except.ok.inj hpair)
  refine ⟨state, total, added, hextract, hemit, ?_⟩
  rintro ⟨hshown, _⟩
  obtain ⟨item, hitem, hpiece, _⟩ := hshown _ hholds
  revert item
  decide

end MinCorehdr
