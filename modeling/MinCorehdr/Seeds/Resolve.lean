import MinCorehdr.BtfIndex

/-!
# Resolving an object type to a base type

The name of an object type is looked up in the base index; when there is no
match the walk goes on behind typedefs and qualifiers, at most 32 types deep.
-/

namespace MinCorehdr

def isSeedableKind (kind : Kind) : Bool :=
  match kind with
  | .struct | .union | .enum | .enum64 | .typedef | .fwd => true
  | _ => false

def isChainKind (kind : Kind) : Bool :=
  match kind with
  | .typedef | .volatile | .const | .restrict | .typeTag => true
  | _ => false

/-- The last type looked up: its id, its name once there is one, its kind. -/
structure ResolutionQuery where
  id : Nat
  name : Option CString := none
  kind : Kind := .unkn
  deriving DecidableEq, Repr

def orAnonymous (name : CString) : CString :=
  if name = [] then "<anonymous>".toList else name

def setResolutionDetail (objectBtf : Btf) (rootTypeId : Nat) (query : ResolutionQuery)
    (reference baseResult : CString) (err : MchError) : MchError :=
  let rootType :=
    if rootTypeId < btfTypeCnt objectBtf then btfTypeById objectBtf rootTypeId else none
  let rootKind := match rootType with
    | none => "<invalid>".toList
    | some type => mchBtfKindName type.kind
  let rootName := match rootType with
    | none => "<invalid>".toList
    | some type => orAnonymous (mchBtfTypeName objectBtf type)
  mchErrorSetDetail (reference ++ " object type: id ".toList ++ decimal rootTypeId ++ [' '] ++
    rootKind ++ " '".toList ++ rootName ++ "'; base BTF query: id ".toList ++ decimal query.id ++
    [' '] ++ mchBtfKindName query.kind ++ " '".toList ++ orAnonymous (query.name.getD []) ++
    "' -> ".toList ++ baseResult) err

/-- A diagnostic of the resolution: text, file, detail and hint. -/
def resolutionFailure {α : Type} (objectBtf : Btf) (objectTypeId : Nat)
    (objectPath reference : CString) (query : ResolutionQuery) (text baseResult hint : CString) :
    Except Fault α :=
  onError (mchErrorSetHint hint ∘
    setResolutionDetail objectBtf objectTypeId query reference baseResult ∘
    mchErrorSetFile objectPath)
    (fail text)

/-- The loop over the chain.  The first argument is what is left of its 32
rounds; `none` is a program-local type. -/
def resolveObjectTypeFrom (baseIndex : BtfIndex) (objectBtf : Btf) (objectTypeId : Nat)
    (objectPath reference : CString) (allowProgramLocal : Bool) :
    Nat → Nat → Option CString → ResolutionQuery → Except Fault (Option Nat)
  | 0, _, _, query =>
      resolutionFailure objectBtf objectTypeId objectPath reference query
        ("object BTF type chain is too deep at type id ".toList ++ decimal objectTypeId)
        "type chain too deep before base lookup".toList
        "check for an unexpected typedef or modifier cycle".toList
  | depth + 1, id, rootName, query =>
      if id = 0 ∨ btfTypeCnt objectBtf ≤ id then
        onError (mchErrorSetFile objectPath)
          (fail (reference ++ " references invalid object type id ".toList ++ decimal id))
      else
        match btfTypeById objectBtf id with
        | none =>
            onError (mchErrorSetFile objectPath)
              (fail ("object BTF is missing type id ".toList ++ decimal id))
        | some type =>
            let name := mchBtfTypeName objectBtf type
            let rootName := if rootName = none ∧ name ≠ [] then some name else rootName
            let noMatch (query : ResolutionQuery) : Except Fault (Option Nat) :=
              if isChainKind type.kind then
                resolveObjectTypeFrom baseIndex objectBtf objectTypeId objectPath reference
                  allowProgramLocal depth type.type rootName query
              else if allowProgramLocal then
                .ok none
              else
                let query := if query.name = none then ⟨id, some name, type.kind⟩ else query
                resolutionFailure objectBtf objectTypeId objectPath reference query
                  ("failed to resolve kernel type '".toList ++
                    rootName.getD "<anonymous>".toList ++ ['\''])
                  "no same-name, same-kind match".toList
                  "verify that --btf points to the intended target kernel BTF".toList
            if isSeedableKind type.kind ∧ name ≠ [] then
              let query := ⟨id, some name, type.kind⟩
              match mchBtfIndexLookup baseIndex name type.kind with
              | .ambiguous =>
                  resolutionFailure objectBtf objectTypeId objectPath reference query
                    ("ambiguous kernel type '".toList ++ name ++ "' (".toList ++
                      mchBtfKindName type.kind ++ [')'])
                    "ambiguous base matches".toList
                    "v0.1 requires exactly one same-name, same-kind base BTF match".toList
              | .unique baseId => .ok (some baseId)
              | .missing => noMatch query
            else if (type.kind = .enum ∨ type.kind = .enum64) ∧ name = [] then
              let query := ⟨id, some name, type.kind⟩
              match mchBtfIndexLookupAnonymousEnum baseIndex objectBtf type with
              | .ambiguous =>
                  resolutionFailure objectBtf objectTypeId objectPath reference query
                    "ambiguous anonymous kernel enum".toList "ambiguous base matches".toList
                    "v0.1 requires exactly one base BTF match for anonymous enums".toList
              | .unique baseId => .ok (some baseId)
              | .missing => noMatch query
            else
              noMatch query

def resolveObjectTypeToBase (baseIndex : BtfIndex) (objectBtf : Btf) (objectTypeId : Nat)
    (objectPath reference : CString) (allowProgramLocal : Bool) : Except Fault (Option Nat) :=
  resolveObjectTypeFrom baseIndex objectBtf objectTypeId objectPath reference allowProgramLocal 32
    objectTypeId none { id := objectTypeId }

/-- What is resolved is a type a root requirement can be about; only a lookup
that allows program-local types resolves nothing. -/
theorem resolveObjectTypeFrom_eq_ok {base : Btf} {index : BtfIndex} {object : Btf}
    {objectTypeId : Nat} {path reference : CString} {allow : Bool} (hindex : index.Sound base)
    (depth : Nat) :
    ∀ {id : Nat} {rootName : Option CString} {query : ResolutionQuery} {resolved : Option Nat},
      resolveObjectTypeFrom index object objectTypeId path reference allow depth id rootName query =
        .ok resolved →
      (resolved = none → allow = true) ∧ ∀ baseId, resolved = some baseId → IsRootType base baseId := by
  induction depth with
  | zero =>
      intro id rootName query resolved h
      cases h
  | succ depth ih =>
      intro id rootName query resolved h
      rw [resolveObjectTypeFrom] at h
      split at h
      next => cases h
      next =>
        split at h
        next => cases h
        next type htype =>
          have hfound : ∀ baseId, (Except.ok (some baseId) : Except Fault (Option Nat)) = .ok resolved →
              IsRootType base baseId →
              (resolved = none → allow = true) ∧
                ∀ other, resolved = some other → IsRootType base other := by
            intro baseId heq hroot
            cases heq
            refine ⟨nofun, fun other hother => ?_⟩
            cases hother
            exact hroot
          have hmissing : ∀ {rootName query text baseResult hint query'},
              (if isChainKind type.kind = true then
                resolveObjectTypeFrom index object objectTypeId path reference allow depth type.type
                  rootName query
              else if allow = true then .ok none
              else resolutionFailure object objectTypeId path reference query' text baseResult
                hint) = .ok resolved →
              (resolved = none → allow = true) ∧
                ∀ other, resolved = some other → IsRootType base other := by
            intro rootName query text baseResult hint query' h
            split at h
            next => exact ih h
            next =>
              split at h
              next hallow =>
                cases h
                exact ⟨fun _ => hallow, nofun⟩
              next => cases h
          simp only at h
          split at h
          next hseed =>
            split at h
            next => cases h
            next baseId hlookup =>
              apply hfound baseId h
              exact (mchBtfIndexLookup_unique hindex hlookup).isRootType hseed.1 hseed.2
            next => exact hmissing h
          next =>
            split at h
            next =>
              split at h
              next => cases h
              next baseId hlookup =>
                exact hfound baseId h (mchBtfIndexLookupAnonymousEnum_unique hindex hlookup)
              next => exact hmissing h
            next => exact hmissing h

theorem resolveObjectTypeToBase_eq_ok {base : Btf} {index : BtfIndex} {object : Btf}
    {objectTypeId : Nat} {path reference : CString} {allow : Bool} {resolved : Option Nat}
    (hindex : index.Sound base)
    (h : resolveObjectTypeToBase index object objectTypeId path reference allow = .ok resolved) :
    (resolved = none → allow = true) ∧ ∀ baseId, resolved = some baseId → IsRootType base baseId :=
  resolveObjectTypeFrom_eq_ok hindex 32 h

end MinCorehdr
