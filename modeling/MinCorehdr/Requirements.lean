import MinCorehdr.Error
import MinCorehdr.Support.Bitset
import MinCorehdr.Support.Result

/-!
# The requirement store

Which base types the objects need as roots, which members of which records they
need, and for each the origin of the first call that asked for it.  A record
without recorded members is kept whole by the closure and by the emitter; one
with recorded members keeps only those.

`granted` says which of a call's allocations succeed.
-/

namespace MinCorehdr

open Support.Bitset

inductive RequirementSource
  | unknown | objectBtf | coreRelo
  deriving DecidableEq, Repr

structure RequirementOrigin where
  source : RequirementSource
  objectPath : Option CString := none
  detail : Option CString := none
  access : Option CString := none
  location : Option CString := none
  deriving DecidableEq, Repr

inductive TraceKind
  | typeRoot | recordMember
  deriving DecidableEq, Repr

structure RequirementTrace where
  kind : TraceKind
  source : RequirementSource
  typeId : Nat
  memberIndex : Nat
  objectPath : Option CString := none
  detail : Option CString := none
  access : Option CString := none
  location : Option CString := none
  deriving DecidableEq, Repr

/-- `struct mch_requirements`.  A missing word list is the `NULL` of a record
that has no recorded member; the proofs say that the arrays have the lengths
they were allocated with. -/
structure Requirements where
  typeRootWords : Words
  recordMemberWords : List (Option Words)
  recordMemberCounts : List Nat
  traces : List RequirementTrace
  traceCapacity : Nat
  typeCount : Nat
  typeRoots : Nat
  recordMembers : Nat
  length_typeRootWords : typeRootWords.length = wordsFor typeCount
  length_recordMemberWords : recordMemberWords.length = max 1 typeCount
  length_recordMemberCounts : recordMemberCounts.length = max 1 typeCount
  length_memberWords : ∀ id words, recordMemberWords[id]? = some (some words) →
    words.length = wordsFor (recordMemberCounts.getD id 0)

inductive AllocSite
  | memberWords | objectPath | detail | access | location | traceGrowth
  deriving DecidableEq, Repr

/-- Every allocation succeeds. -/
def allGranted : AllocSite → Bool := fun _ => true

def uint32Max : Nat := 2 ^ 32 - 1

def sizeMax : Nat := 2 ^ 64 - 1

/-- `sizeof(struct mch_requirement_trace)` on the 64-bit host. -/
def traceSize : Nat := 48

def bitsetContains (words : Option Words) (count id : Nat) : Bool :=
  match words with
  | none => false
  | some words => if count ≤ id then false else testBit words id

def bitsetAdd (words : Words) (count id : Nat) : Words :=
  if count ≤ id then words else if testBit words id then words else setBit words id

def dupOptional (granted : Bool) : Option CString → Except Fault (Option CString)
  | none => .ok none
  | some [] => .ok none
  | some text =>
      if granted then .ok (some text)
      else fail "out of memory while recording requirement trace".toList

/-- The capacity of the trace list after room for one more has been made. -/
def ensureTraceCapacity (granted : AllocSite → Bool) (requirements : Requirements) :
    Except Fault Nat :=
  if requirements.traces.length < requirements.traceCapacity then
    .ok requirements.traceCapacity
  else
    let nextCapacity :=
      if requirements.traceCapacity = 0 then 16 else requirements.traceCapacity * 2 % 2 ^ 64
    if nextCapacity < requirements.traceCapacity ∨ sizeMax / traceSize < nextCapacity then
      fail "requirement trace list is too large".toList
    else if granted .traceGrowth then
      .ok nextCapacity
    else
      fail "out of memory while growing requirement trace list".toList

def originSource : Option RequirementOrigin → RequirementSource
  | none => .unknown
  | some origin => origin.source

def appendTrace (granted : AllocSite → Bool) (requirements : Requirements) (kind : TraceKind)
    (typeId memberIndex : Nat) (origin : Option RequirementOrigin) :
    Except Fault Requirements :=
  if uint32Max < typeId ∨ uint32Max < memberIndex then
    fail "requirement trace references an unsupported type or member id".toList
  else do
    let source := originSource origin
    let objectPath ← dupOptional (granted .objectPath) (origin.bind (·.objectPath))
    let detail ← dupOptional (granted .detail) (origin.bind (·.detail))
    let access ← dupOptional (granted .access) (origin.bind (·.access))
    let location ← dupOptional (granted .location) (origin.bind (·.location))
    let capacity ← ensureTraceCapacity granted requirements
    .ok { requirements with
      traces := requirements.traces ++
        [{ kind, source, typeId, memberIndex, objectPath, detail, access, location }]
      traceCapacity := capacity }

def mchRequirementsInit (typeCount : Nat) : Requirements where
  typeRootWords := List.replicate (wordsFor typeCount) 0#64
  recordMemberWords := List.replicate (max 1 typeCount) none
  recordMemberCounts := List.replicate (max 1 typeCount) 0
  traces := []
  traceCapacity := 0
  typeCount := typeCount
  typeRoots := 0
  recordMembers := 0
  length_typeRootWords := length_zeroWords typeCount
  length_recordMemberWords := List.length_replicate
  length_recordMemberCounts := List.length_replicate
  length_memberWords := by
    intro id words h
    rw [List.getElem?_replicate] at h
    split at h <;> cases h

def mchRequirementsContainsTypeRoot (requirements : Requirements) (typeId : Nat) : Bool :=
  bitsetContains (some requirements.typeRootWords) requirements.typeCount typeId

theorem length_bitsetAdd (words : Words) (count id : Nat) :
    (bitsetAdd words count id).length = words.length := by
  unfold bitsetAdd
  split
  · rfl
  · split
    · rfl
    · exact length_setBit words id

/-- The store after the call, and what the call returned. -/
def mchRequirementsAddTypeRoot (granted : AllocSite → Bool) (requirements : Requirements)
    (typeId : Nat) (origin : Option RequirementOrigin) : Requirements × Except Fault Unit :=
  if requirements.typeCount ≤ typeId then
    (requirements, fail ("requirements reference invalid type id ".toList ++ decimal typeId))
  else if mchRequirementsContainsTypeRoot requirements typeId then
    (requirements, .ok ())
  else
    match appendTrace granted requirements .typeRoot typeId 0 origin with
    | .error fault => (requirements, .error fault)
    | .ok requirements =>
        ({ requirements with
            typeRootWords := bitsetAdd requirements.typeRootWords requirements.typeCount typeId
            typeRoots := requirements.typeRoots + 1
            length_typeRootWords := by
              rw [length_bitsetAdd, requirements.length_typeRootWords] },
          .ok ())

def mchRequirementsHasRecordMembers (requirements : Requirements) (typeId : Nat) : Bool :=
  decide (typeId < requirements.typeCount) &&
    (requirements.recordMemberWords.getD typeId none).isSome

def mchRequirementsContainsRecordMember (requirements : Requirements)
    (typeId memberIndex : Nat) : Bool :=
  if mchRequirementsHasRecordMembers requirements typeId then
    bitsetContains (requirements.recordMemberWords.getD typeId none)
      (requirements.recordMemberCounts.getD typeId 0) memberIndex
  else
    false

/-- The test the closure and the emitter make before they use a member: a
record with recorded members keeps only those, any other record keeps all. -/
def keepsMember (requirements : Option Requirements) (typeId memberIndex : Nat) : Bool :=
  match requirements with
  | none => true
  | some requirements =>
      !(mchRequirementsHasRecordMembers requirements typeId &&
        !mchRequirementsContainsRecordMember requirements typeId memberIndex)

/-- The members of a record that pass the test, with their indexes. -/
def keptMembers (keeps : Nat → Nat → Bool) (typeId : Nat) (record : BtfType) :
    List (BtfMember × Nat) :=
  record.members.zipIdx.filter (fun member => keeps typeId member.2)

def keptTypes (keeps : Nat → Nat → Bool) (typeId : Nat) (record : BtfType) : List Nat :=
  (keptMembers keeps typeId record).map (fun member => member.1.type)

theorem mem_keptMembers {keeps : Nat → Nat → Bool} {typeId : Nat} {record : BtfType}
    {member : BtfMember} {i : Nat} :
    (member, i) ∈ keptMembers keeps typeId record ↔
      record.members[i]? = some member ∧ keeps typeId i = true := by
  rw [keptMembers, List.mem_filter, List.mk_mem_zipIdx_iff_getElem?]

theorem mem_keptTypes {keeps : Nat → Nat → Bool} {typeId : Nat} {record : BtfType} {id : Nat} :
    id ∈ keptTypes keeps typeId record ↔
      ∃ member i, record.members[i]? = some member ∧ keeps typeId i = true ∧ member.type = id := by
  simp only [keptTypes, List.mem_map, Prod.exists, mem_keptMembers, and_assoc]

theorem getElem?_set_some {α : Type} {l : List α} {i j : Nat} {a b : α}
    (h : (l.set i a)[j]? = some b) : i = j ∧ a = b ∨ i ≠ j ∧ l[j]? = some b := by
  rw [List.getElem?_set] at h
  split at h
  next heq =>
    split at h
    · exact Or.inl ⟨heq, Option.some.inj h⟩
    · cases h
  next hne => exact Or.inr ⟨hne, h⟩

/-- Give record `typeId` the word list `words` for `count` members. -/
def setRecordMemberWords (requirements : Requirements) (typeId : Nat) (words : Words)
    (count : Nat) (hid : typeId < requirements.typeCount)
    (hwords : words.length = wordsFor count) : Requirements :=
  { requirements with
    recordMemberWords := requirements.recordMemberWords.set typeId (some words)
    recordMemberCounts := requirements.recordMemberCounts.set typeId count
    length_recordMemberWords := by
      rw [List.length_set, requirements.length_recordMemberWords]
    length_recordMemberCounts := by
      rw [List.length_set, requirements.length_recordMemberCounts]
    length_memberWords := by
      intro id words' h
      have hlt : typeId < requirements.recordMemberCounts.length := by
        rw [requirements.length_recordMemberCounts]
        omega
      rw [List.getD_eq_getElem?_getD, List.getElem?_set]
      rcases getElem?_set_some h with ⟨rfl, heq⟩ | ⟨hne, hget⟩
      · cases heq
        rw [if_pos rfl, if_pos hlt]
        exact hwords
      · rw [if_neg hne, ← List.getD_eq_getElem?_getD]
        exact requirements.length_memberWords id words' hget }

/-- The lazily allocated word list of a record, zeroed when it is new. -/
def ensureRecordMemberWords (granted : AllocSite → Bool) (requirements : Requirements)
    (typeId memberCount : Nat) (hid : typeId < requirements.typeCount) :
    Except Fault Requirements :=
  match requirements.recordMemberWords.getD typeId none with
  | some _ => .ok requirements
  | none =>
      if granted .memberWords then
        .ok (setRecordMemberWords requirements typeId
          (List.replicate (wordsFor memberCount) 0#64) memberCount hid
          List.length_replicate)
      else
        fail "out of memory while recording required record members".toList

/-- `bitset_add` on the words of one record. -/
def markRecordMember (requirements : Requirements) (typeId memberIndex : Nat) : Requirements :=
  match hget : requirements.recordMemberWords[typeId]? with
  | some (some words) =>
      if hid : typeId < requirements.typeCount then
        setRecordMemberWords requirements typeId
          (bitsetAdd words (requirements.recordMemberCounts.getD typeId 0) memberIndex)
          (requirements.recordMemberCounts.getD typeId 0) hid
          (by rw [length_bitsetAdd, requirements.length_memberWords typeId words hget])
      else requirements
  | _ => requirements

/-- The store after the call, and what the call returned.  A failure to append
the trace leaves the word list allocated before it. -/
def mchRequirementsAddRecordMember (granted : AllocSite → Bool) (btf : Btf)
    (requirements : Requirements) (typeId memberIndex : Nat)
    (origin : Option RequirementOrigin) : Requirements × Except Fault Unit :=
  if hid : requirements.typeCount ≤ typeId then
    (requirements, fail ("requirements reference invalid type id ".toList ++ decimal typeId))
  else
    match btfTypeById btf typeId with
    | none =>
        (requirements,
          fail ("requirements reference non-record type id ".toList ++ decimal typeId))
    | some type =>
        if type.kind.isRecord = false then
          (requirements,
            fail ("requirements reference non-record type id ".toList ++ decimal typeId))
        else if type.members.length ≤ memberIndex then
          (requirements,
            fail ("requirements reference invalid member ".toList ++ decimal memberIndex ++
              " on type id ".toList ++ decimal typeId))
        else
          match ensureRecordMemberWords granted requirements typeId type.members.length
              (Nat.not_le.mp hid) with
          | .error fault => (requirements, .error fault)
          | .ok requirements =>
              if mchRequirementsContainsRecordMember requirements typeId memberIndex then
                (requirements, .ok ())
              else
                match appendTrace granted requirements .recordMember typeId memberIndex origin with
                | .error fault => (requirements, .error fault)
                | .ok requirements =>
                    let requirements := markRecordMember requirements typeId memberIndex
                    ({ requirements with recordMembers := requirements.recordMembers + 1 }, .ok ())

/-! ## The witness -/

def sourceName : RequirementSource → CString
  | .objectBtf => "object BTF".toList
  | .coreRelo => "CO-RE relocation".toList
  | .unknown => "unknown".toList

def typeNameOrAnonymous (btf : Btf) (type : BtfType) : CString :=
  let name := mchBtfTypeName btf type
  if name = [] then "<anonymous>".toList else name

def memberNameOrAnonymous (btf : Btf) (member : BtfMember) : CString :=
  match btfNameByOffset btf member.nameOff with
  | none => "<anonymous>".toList
  | some [] => "<anonymous>".toList
  | some name => name

/-- `"; label: text"` when there is a text. -/
def optionalField (label : CString) : Option CString → CString
  | none => []
  | some text => label ++ text

def explanationLine (btf : Btf) (trace : RequirementTrace) : Except Fault CString := do
  match btfTypeById btf trace.typeId with
  | none =>
      fail ("requirement trace references missing type id ".toList ++ decimal trace.typeId)
  | some type =>
      let head ← match trace.kind with
        | .recordMember =>
            match type.members[trace.memberIndex]? with
            | none =>
                fail ("requirement trace references missing member ".toList ++
                  decimal trace.memberIndex ++ " on type id ".toList ++ decimal trace.typeId)
            | some member =>
                .ok ("  - member: ".toList ++
                  (if type.kind = .union then "union ".toList else "struct ".toList) ++
                  typeNameOrAnonymous btf type ++ ['.'] ++ memberNameOrAnonymous btf member)
        | .typeRoot =>
            .ok ("  - root: ".toList ++ mchBtfKindName type.kind ++ [' '] ++
              typeNameOrAnonymous btf type)
      .ok (head ++ "; source: ".toList ++ sourceName trace.source ++
        optionalField [' '] trace.detail ++ optionalField "; access: ".toList trace.access ++
        optionalField "; location: ".toList trace.location ++
        optionalField "; file: ".toList trace.objectPath ++ ['\n'])

/-- The text `--explain` prints, on a stream that accepts it. -/
def mchRequirementsWriteExplanation (btf : Btf) (requirements : Requirements) :
    Except Fault CString := do
  let lines ←
    if requirements.traces = [] then .ok "  direct requirements: 0\n".toList
    else Support.Result.collect (explanationLine btf) requirements.traces
  .ok ("requirements:\n".toList ++ lines)

end MinCorehdr
