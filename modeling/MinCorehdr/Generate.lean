import MinCorehdr.Closure
import MinCorehdr.Emitter.Header
import MinCorehdr.Seeds.Objects

/-!
# A run of the program

The core of `main`: every object adds to one seed set and one requirement
store, the seeds are closed, and the header of the closed set is emitted.
-/

namespace MinCorehdr

open Support.Result

/-- What libbpf parses of an object file. -/
structure ObjectDoc where
  btf : Btf
  ext : Option BtfExt

structure Options where
  expandPointers : Bool := false
  explain : Bool := false

/-- What a successful run produces. -/
structure Output where
  header : List Item
  explanation : Option CString
  seedTotal : SeedStats
  addedTypes : Nat

/-- One round of the loop over the objects.  `load` is `mch_load_object_btf`. -/
def extractObject (load : CString → Except Fault ObjectDoc) (baseIndex : BtfIndex)
    (state : SeedState × SeedStats) (path : CString) : Except Fault (SeedState × SeedStats) := do
  let object ← load path
  let (seedState, stats) ←
    mchExtractObjectSeedsWithRequirements baseIndex object.btf path state.1 {}
  let (seedState, stats) ←
    mchExtractCoreReloSeedsWithRequirements baseIndex object.btf object.ext path seedState stats
  .ok (seedState, state.2.add stats)

def initialSeedState (base : Btf) : SeedState where
  seeds := mchTypeSetInit (btfTypeCnt base)
  requirements := mchRequirementsInit (btfTypeCnt base)

def extractObjects (load : CString → Except Fault ObjectDoc) (base : Btf) (paths : List CString) :
    Except Fault (SeedState × SeedStats) := do
  let baseIndex ← mchBtfIndexInit base
  paths.foldlM (extractObject load baseIndex) (initialSeedState base, {})

/-- The closure and the emission, under the same requirements. -/
def closeAndEmit (fuel : Nat) (base : Btf) (seeds : TypeSet) (options : ClosureOptions) :
    Except Fault (List Item × Nat) := do
  let (required, addedTypes) ← mchComputeDependencyClosureWithOptions base seeds options
  let header ← mchEmitHeaderWithOptions fuel base required options.requirements
  .ok (header, addedTypes)

def closureOptions (options : Options) (requirements : Requirements) : ClosureOptions where
  expandPointers := options.expandPointers
  requirements := some requirements

/-- The text of `--explain`, if it was asked for. -/
def explain (options : Options) (base : Btf) (requirements : Requirements) :
    Except Fault (Option CString) :=
  if options.explain then (mchRequirementsWriteExplanation base requirements).map some
  else .ok none

/-- `main`, from the parsed base BTF to the written header. -/
def generate (load : CString → Except Fault ObjectDoc) (fuel : Nat) (base : Btf)
    (options : Options) (paths : List CString) : Except Fault Output := do
  let (state, seedTotal) ← extractObjects load base paths
  let (header, addedTypes) ←
    closeAndEmit fuel base state.seeds (closureOptions options state.requirements)
  let explanation ← explain options base state.requirements
  .ok { header, explanation, seedTotal, addedTypes }

end MinCorehdr
