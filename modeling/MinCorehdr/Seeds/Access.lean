import MinCorehdr.Requirements
import MinCorehdr.TypeSet

/-!
# Field relocations and the members they need

A field relocation names a root type and an access string `"0:i:j:..."`.  The
walk follows the string through the object's types and, by member name, through
the base types, and records the base members it passes.
-/

namespace MinCorehdr

/-- The seed set and the requirement store all objects share. -/
structure SeedState where
  seeds : TypeSet
  requirements : Requirements

/-- `struct bpf_core_relo`; `kind` is the number stored in the record. -/
structure CoreRelo where
  insnOff : Nat
  typeId : Nat
  accessStrOff : Nat
  kind : Nat
  deriving DecidableEq, Repr

def coreReloKindName : Nat → CString
  | 0 => "FIELD_BYTE_OFFSET".toList
  | 1 => "FIELD_BYTE_SIZE".toList
  | 2 => "FIELD_EXISTS".toList
  | 3 => "FIELD_SIGNED".toList
  | 4 => "FIELD_LSHIFT_U64".toList
  | 5 => "FIELD_RSHIFT_U64".toList
  | 6 => "TYPE_ID_LOCAL".toList
  | 7 => "TYPE_ID_TARGET".toList
  | 8 => "TYPE_EXISTS".toList
  | 9 => "TYPE_SIZE".toList
  | 10 => "ENUMVAL_EXISTS".toList
  | 11 => "ENUMVAL_VALUE".toList
  | 12 => "TYPE_MATCHES".toList
  | _ => "UNKNOWN".toList

def isFieldReloKind (kind : Nat) : Bool :=
  match kind with
  | 0 | 1 | 2 | 3 | 4 | 5 => true
  | _ => false

/-- At most 64 steps through typedefs, qualifiers, tags, pointers and arrays:
the id reached, and its type unless the walk fell off. -/
def peelAccessTypeFrom (btf : Btf) : Nat → Nat → Nat × Option BtfType
  | 0, id => (id, none)
  | depth + 1, id =>
      if id = 0 ∨ btfTypeCnt btf ≤ id then (id, none)
      else
        match btfTypeById btf id with
        | none => (id, none)
        | some type =>
            match type.kind with
            | .typedef | .volatile | .const | .restrict | .declTag | .typeTag | .ptr =>
                peelAccessTypeFrom btf depth type.type
            | .array => peelAccessTypeFrom btf depth type.array.type
            | _ => (id, some type)

def peelAccessType (btf : Btf) (id : Nat) : Nat × Option BtfType := peelAccessTypeFrom btf 64 id

/-- A record reached by `peelAccessType`. -/
def peelToRecord (btf : Btf) (id : Nat) : Option (Nat × BtfType) :=
  match peelAccessType btf id with
  | (id, some type) => if type.kind.isRecord then some (id, type) else none
  | (_, none) => none

def isDigit (c : Char) : Bool := decide ('0'.toNat ≤ c.toNat ∧ c.toNat ≤ '9'.toNat)

/-- The digit loop: the value read, in a `uint64_t`, and what is left. -/
def parseDigits : CString → Nat → Option (Nat × CString)
  | [], parsed => some (parsed, [])
  | c :: rest, parsed =>
      if isDigit c then
        let parsed := (parsed * 10 + (c.toNat - '0'.toNat)) % 2 ^ 64
        if uint32Max < parsed then none else parseDigits rest parsed
      else
        some (parsed, c :: rest)

/-- One component of an access string and the cursor after it and its colon. -/
def parseAccessComponent (cursor : CString) : Option (Nat × CString) :=
  match cursor with
  | [] => none
  | c :: _ =>
      if isDigit c then
        match parseDigits cursor 0 with
        | none => none
        | some (parsed, []) => some (parsed, [])
        | some (parsed, ':' :: rest) => some (parsed, rest)
        | some (_, _ :: _) => none
      else
        none

/-- The member the base record offers: by name when there is one, otherwise at
the object's index. -/
def findBaseMember (baseBtf : Btf) (baseRecord : BtfType) (memberName : Option CString)
    (fallbackIndex : Nat) : Option Nat :=
  match memberName with
  | some (c :: name) =>
      baseRecord.members.findIdx? (fun member =>
        btfNameByOffset baseBtf member.nameOff = some (c :: name))
  | _ => if baseRecord.members.length ≤ fallbackIndex then none else some fallbackIndex

def SeedState.withRequirements (state : SeedState) :
    Requirements × Except Fault Unit → Except Fault SeedState
  | (requirements, .ok ()) => .ok { state with requirements := requirements }
  | (_, .error fault) => .error fault

/-- `mch_requirements_add_record_member` and `mch_type_set_add` on one record. -/
def requireMember (baseBtf : Btf) (state : SeedState) (recordId memberIndex : Nat)
    (origin : Option RequirementOrigin) : Except Fault SeedState := do
  let state ← state.withRequirements
    (mchRequirementsAddRecordMember allGranted baseBtf state.requirements recordId memberIndex
      origin)
  .ok { state with seeds := (mchTypeSetAdd state.seeds recordId).1 }

/-- A name that is present and not empty. -/
def isNamed : Option CString → Bool
  | some (_ :: _) => true
  | _ => false

/-- The loop over the anonymous members of a record: the first in which `search`
finds the name is recorded too. -/
def searchAnonymousMembers (baseBtf : Btf) (recordId : Nat) (origin : Option RequirementOrigin)
    (search : SeedState → Nat → BtfType → Except Fault (SeedState × Option Nat)) :
    List (BtfMember × Nat) → SeedState → Except Fault (SeedState × Option Nat)
  | [], state => .ok (state, none)
  | (member, i) :: rest, state =>
      if isNamed (btfNameByOffset baseBtf member.nameOff) then
        searchAnonymousMembers baseBtf recordId origin search rest state
      else
        match peelToRecord baseBtf member.type with
        | none => searchAnonymousMembers baseBtf recordId origin search rest state
        | some (nestedId, nested) => do
            let (state, found) ← search state nestedId nested
            match found with
            | none => searchAnonymousMembers baseBtf recordId origin search rest state
            | some memberType => do
                let state ← requireMember baseBtf state recordId i origin
                .ok (state, some memberType)

/-- `none` is the result 0, `some` the result 1 with the type of the member.
The first argument is what is left of the 17 levels the search may use. -/
def markBaseMemberPath (baseBtf : Btf) (memberName : Option CString)
    (origin : Option RequirementOrigin) :
    Nat → Nat → SeedState → Nat → BtfType → Except Fault (SeedState × Option Nat)
  | 0, _, _, _, _ => fail "CO-RE member search through anonymous records is too deep".toList
  | levels + 1, fallbackIndex, state, recordId, record =>
      match findBaseMember baseBtf record memberName fallbackIndex with
      | some memberIndex => do
          let state ← requireMember baseBtf state recordId memberIndex origin
          .ok (state, (record.members[memberIndex]?).map BtfMember.type)
      | none =>
          if isNamed memberName = false then .ok (state, none)
          else
            searchAnonymousMembers baseBtf recordId origin
              (markBaseMemberPath baseBtf memberName origin levels uint32Max)
              record.members.zipIdx state

def unsupportedAccess {α : Type} (objectPath access : CString) : Except Fault α :=
  onError (mchErrorSetFile objectPath)
    (fail ("CO-RE relocation has unsupported access string '".toList ++ access ++ ['\'']))

def accessNotThroughRecords {α : Type} (objectPath access : CString) (objectId baseId : Nat) :
    Except Fault α :=
  onError (mchErrorSetDetail ("access: ".toList ++ access ++ "; object type id: ".toList ++
      decimal objectId ++ "; base type id: ".toList ++ decimal baseId) ∘
    mchErrorSetFile objectPath)
    (fail "CO-RE relocation access does not resolve through records".toList)

def invalidAccessMember {α : Type} (objectPath access : CString) (objectId memberIndex : Nat) :
    Except Fault α :=
  onError (mchErrorSetDetail ("access: ".toList ++ access ++ "; object type id: ".toList ++
      decimal objectId) ∘
    mchErrorSetFile objectPath)
    (fail ("CO-RE relocation references invalid member ".toList ++ decimal memberIndex))

def unresolvedMember {α : Type} (baseBtf : Btf) (objectPath access : CString)
    (baseRecord : BtfType) (memberName : Option CString) : Except Fault α :=
  onError (mchErrorSetHint "verify that --btf points to the intended target kernel BTF".toList ∘
    mchErrorSetDetail ("access: ".toList ++ access ++ "; base record: ".toList ++
      mchBtfKindName baseRecord.kind ++ " '".toList ++ mchBtfTypeName baseBtf baseRecord ++
      ['\'']) ∘
    mchErrorSetFile objectPath)
    (fail ("failed to resolve CO-RE member '".toList ++
      (if isNamed memberName then memberName.getD [] else "<anonymous>".toList) ++ ['\'']))

/-- The loop over the components after the root. -/
def recordAccessPath (baseBtf objectBtf : Btf) (objectPath access : CString)
    (origin : Option RequirementOrigin) :
    Nat → CString → Nat → Nat → SeedState → Except Fault SeedState
  | 0, _, _, _, _ => .error .outOfFuel
  | fuel + 1, cursor, objectId, currentBaseId, state =>
      if cursor = [] then .ok state
      else
        match parseAccessComponent cursor with
        | none => unsupportedAccess objectPath access
        | some (objectMemberIndex, cursor) =>
            match peelToRecord objectBtf objectId, peelToRecord baseBtf currentBaseId with
            | some (objectId, objectRecord), some (currentBaseId, baseRecord) =>
                match objectRecord.members[objectMemberIndex]? with
                | none => invalidAccessMember objectPath access objectId objectMemberIndex
                | some objectMember => do
                    let memberName := btfNameByOffset objectBtf objectMember.nameOff
                    let (state, memberMatch) ← onError (mchErrorSetFile objectPath)
                      (markBaseMemberPath baseBtf memberName origin 17 objectMemberIndex state
                        currentBaseId baseRecord)
                    match memberMatch with
                    | none => unresolvedMember baseBtf objectPath access baseRecord memberName
                    | some baseMemberType =>
                        recordAccessPath baseBtf objectBtf objectPath access origin fuel cursor
                          objectMember.type baseMemberType state
            | _, _ =>
                accessNotThroughRecords objectPath access (peelAccessType objectBtf objectId).1
                  (peelAccessType baseBtf currentBaseId).1

/-- Each component takes a character, so the string's length bounds the loop. -/
def recordCoreReloRequirements (baseBtf objectBtf : Btf) (objectPath : CString) (relo : CoreRelo)
    (baseId : Nat) (access : Option CString) (origin : Option RequirementOrigin)
    (state : SeedState) : Except Fault SeedState :=
  match access with
  | none => .ok state
  | some access =>
      if isFieldReloKind relo.kind = false ∨ access = [] then .ok state
      else
        match parseAccessComponent access with
        | none => unsupportedAccess objectPath access
        | some (_, cursor) =>
            recordAccessPath baseBtf objectBtf objectPath access origin (access.length + 1) cursor
              relo.typeId baseId state

end MinCorehdr
