import Mathlib.Logic.Function.Basic
import MinCorehdr.Seeds.Enumerators
import MinCorehdr.Support.Stdio
import MinCorehdr.Union

/-!
# The program and the files around it

`main` from the parsed options on: what it does to the output file and to
standard output, whichever of its steps fail.
-/

namespace MinCorehdr

open Support.Result Support.Stdio

/-- `struct mch_cli_options`, without what only concerns standard error. -/
structure CliOptions where
  btfPath : CString
  objects : List CString
  outputPath : Option CString := none
  expandPointers : Bool := false
  explain : Bool := false
  help : Bool := false
  version : Bool := false

/-- The contents of the files there are. -/
abbrev Files := CString → Option CString

structure World where
  files : Files
  stdout : Stream Char := {}

/-- What the run finds around it, and which of its steps fail. -/
structure Env where
  loadBase : CString → Except Fault Btf
  loadObject : CString → Except Fault ObjectDoc
  typeSetFails : Bool := false
  requirementsFails : Bool := false
  pid : Nat := 1
  /-- `open` fails at this attempt, for another reason than an existing file. -/
  openFails : Nat → Bool := fun _ => false
  fdopenFails : Bool := false
  /-- The temporary file. -/
  output : Device
  closeFails : Bool := false
  renameFails : Bool := false
  stdout : Device
  stderrFails : Bool := false
  /-- `strerror(errno)`. -/
  errnoText : CString := []
  /-- What an emission that fails has printed before. -/
  partialText : CString := []
  helpText : CString := []
  versionText : CString := []

/-- What the run has when it starts to print. -/
structure Selection where
  base : Btf
  requirements : Requirements
  required : TypeSet

def CliOptions.closure (opts : CliOptions) (requirements : Requirements) : ClosureOptions :=
  closureOptions { expandPointers := opts.expandPointers } requirements

/-- `main` up to the closure. -/
def selectTypes (env : Env) (opts : CliOptions) : Except Fault Selection := do
  let base ← env.loadBase opts.btfPath
  let baseIndex ← mchBtfIndexInit base
  if env.typeSetFails then
    fail "out of memory while preparing required type set".toList
  else if env.requirementsFails then
    fail "out of memory while preparing requirements".toList
  else do
    let (state, _) ← opts.objects.foldlM (extractObject env.loadObject baseIndex)
      (initialSeedState base, {})
    let (required, _) ← mchComputeDependencyClosureWithOptions base state.seeds
      (opts.closure state.requirements)
    .ok { base, requirements := state.requirements, required }

/-- `mch_emit_header_with_options` on a stream; the last thing it does is to ask
the stream for errors. -/
def emitTo (fuel : Nat) (env : Env) (selection : Selection) (device : Device)
    (out : Stream Char) : Stream Char × Except Fault Unit :=
  match mchEmitHeaderWithOptions fuel selection.base selection.required
      (some selection.requirements) with
  | .error fault => (out.puts device env.partialText, .error fault)
  | .ok items =>
      let out := out.puts device (headerText items)
      if out.error then (out, .error (.error {})) else (out, .ok ())

def outputFailure {α : Type} (path text : CString) : Except Fault α :=
  onError (mchErrorSetFile path) (fail text)

def removeFile (files : Files) (path : CString) : Files := Function.update files path none

/-- `"%s.tmp.%ld.%u"`. -/
def tmpPath (path : CString) (pid attempt : Nat) : CString :=
  path ++ ".tmp.".toList ++ decimal pid ++ ['.'] ++ decimal attempt

/-- The attempts that are left; a name that exists is passed over. -/
def openTempFrom (env : Env) (path : CString) (files : Files) :
    Nat → Nat → Files × Except Fault CString
  | 0, _ => (files, outputFailure path "failed to create a unique temporary output path".toList)
  | left + 1, attempt =>
      let tmp := tmpPath path env.pid attempt
      if 1024 ≤ tmp.length then
        (files, outputFailure path "output path is too long".toList)
      else if env.openFails attempt then
        (files, outputFailure path ("failed to open output: ".toList ++ env.errnoText))
      else
        match files tmp with
        | some _ => openTempFrom env path files left (attempt + 1)
        | none =>
            let files := Function.update files tmp (some [])
            if env.fdopenFails then
              (removeFile files tmp,
                outputFailure path ("failed to open output: ".toList ++ env.errnoText))
            else
              (files, .ok tmp)

def openTempOutput (env : Env) (path : CString) (files : Files) : Files × Except Fault CString :=
  openTempFrom env path files 128 0

/-- `fclose`: the rest of the buffer is written, then the descriptor is closed. -/
def closeOutput (env : Env) (path : CString) (out : Stream Char) : Except Fault Unit → Except Fault Unit
  | .error fault => .error fault
  | .ok () =>
      if (out.flush env.output).error || env.closeFails then
        outputFailure path ("failed to close output: ".toList ++ env.errnoText)
      else
        .ok ()

def renameFile (files : Files) (tmp path : CString) : Files :=
  removeFile (Function.update files path (files tmp)) tmp

def writeHeaderToPath (fuel : Nat) (env : Env) (selection : Selection) (path : CString)
    (files : Files) : Files × Except Fault Unit :=
  match openTempOutput env path files with
  | (files, .error fault) => (files, .error fault)
  | (files, .ok tmp) =>
      let (out, emitted) := emitTo fuel env selection env.output {}
      let files := Function.update files tmp (some (out.flush env.output).accepted)
      match closeOutput env path out emitted with
      | .error fault => (removeFile files tmp, .error fault)
      | .ok () =>
          if env.renameFails then
            (removeFile files tmp,
              outputFailure path ("failed to replace output: ".toList ++ env.errnoText))
          else
            (renameFile files tmp path, .ok ())

/-- The header goes to the output path if there is one, else to standard output. -/
def writeOutput (fuel : Nat) (env : Env) (opts : CliOptions) (selection : Selection)
    (world : World) : World × Except Fault Unit :=
  match opts.outputPath with
  | some path =>
      let (files, written) := writeHeaderToPath fuel env selection path world.files
      ({ world with files }, written)
  | none =>
      let (stdout, written) := emitTo fuel env selection env.stdout world.stdout
      ({ world with stdout }, written)

/-- The witness goes to standard error, which the run's end does not look at again. -/
def writeExplanation (env : Env) (opts : CliOptions) (selection : Selection) : Except Fault Unit :=
  if opts.explain then do
    let _ ← mchRequirementsWriteExplanation selection.base selection.requirements
    if env.stderrFails then fail "failed to write requirement witness".toList else .ok ()
  else
    .ok ()

/-- At the end of the process standard output is flushed, with no one to see whether
that works.  A run that does not end has no exit status. -/
def finish (env : Env) (world : World) : Except Fault Unit → Option (Nat × World)
  | .ok () => some (0, { world with stdout := world.stdout.flush env.stdout })
  | .error (.error _) => some (1, { world with stdout := world.stdout.flush env.stdout })
  | .error .outOfFuel | .error .outOfBounds => none

/-- The exit status and the world it leaves. -/
def main (fuel : Nat) (env : Env) (opts : CliOptions) (world : World) : Option (Nat × World) :=
  if opts.help then
    finish env { world with stdout := world.stdout.puts env.stdout env.helpText } (.ok ())
  else if opts.version then
    finish env { world with stdout := world.stdout.puts env.stdout env.versionText } (.ok ())
  else
    match selectTypes env opts with
    | .error fault => finish env world (.error fault)
    | .ok selection =>
        match writeOutput fuel env opts selection world with
        | (world, .error fault) => finish env world (.error fault)
        | (world, .ok ()) => finish env world (writeExplanation env opts selection)

/-- The header of the run: nothing before the printing fails, and this is printed. -/
def Generates (fuel : Nat) (env : Env) (opts : CliOptions) (header : List Item) : Prop :=
  env.typeSetFails = false ∧ env.requirementsFails = false ∧ ∃ base out,
    env.loadBase opts.btfPath = .ok base ∧
    generate env.loadObject fuel base { expandPointers := opts.expandPointers } opts.objects =
      .ok out ∧ out.header = header

theorem Generates.unique {fuel : Nat} {env : Env} {opts : CliOptions} {header other : List Item}
    (h : Generates fuel env opts header) (hother : Generates fuel env opts other) :
    header = other := by
  obtain ⟨_, _, base, out, hbase, hout, rfl⟩ := h
  obtain ⟨_, _, base', out', hbase', hout', rfl⟩ := hother
  cases hbase.symm.trans hbase'
  cases hout.symm.trans hout'
  rfl

/-! ## The steps before the printing -/

section

variable {fuel : Nat} {env : Env} {opts : CliOptions}

theorem selectTypes_eq_ok {selection : Selection} (h : selectTypes env opts = .ok selection) :
    env.typeSetFails = false ∧ env.requirementsFails = false ∧ ∃ state seedTotal added,
      env.loadBase opts.btfPath = .ok selection.base ∧
      extractObjects env.loadObject selection.base opts.objects = .ok (state, seedTotal) ∧
      selection.requirements = state.requirements ∧
      mchComputeDependencyClosureWithOptions selection.base state.seeds
        (opts.closure state.requirements) = .ok (selection.required, added) := by
  obtain ⟨base, hbase, h⟩ := bind_eq_ok.mp h
  obtain ⟨baseIndex, hindex, h⟩ := bind_eq_ok.mp h
  split at h
  · cases h
  next htypeSet =>
    split at h
    · cases h
    next hrequirements =>
      obtain ⟨⟨state, seedTotal⟩, hstate, h⟩ := bind_eq_ok.mp h
      obtain ⟨⟨required, added⟩, hclosure, h⟩ := bind_eq_ok.mp h
      cases h
      exact ⟨by simpa using htypeSet, by simpa using hrequirements, state, seedTotal, added, hbase,
        bind_eq_ok.mpr ⟨baseIndex, hindex, hstate⟩, rfl, hclosure⟩

/-- What the emission prints is the header of the run, and conversely. -/
theorem generates_iff {header : List Item} : Generates fuel env opts header ↔
    ∃ selection, selectTypes env opts = .ok selection ∧
      mchEmitHeaderWithOptions fuel selection.base selection.required
        (some selection.requirements) = .ok header := by
  constructor
  · rintro ⟨htypeSet, hrequirements, base, out, hbase, hgenerate, rfl⟩
    obtain ⟨⟨state, seedTotal⟩, hextract, h⟩ := bind_eq_ok.mp hgenerate
    obtain ⟨⟨header, added⟩, hemit, h⟩ := bind_eq_ok.mp h
    obtain ⟨⟨required, addedTypes⟩, hclosure, hemit⟩ := bind_eq_ok.mp hemit
    obtain ⟨items, hitems, hemit⟩ := bind_eq_ok.mp hemit
    cases hemit
    cases h
    obtain ⟨baseIndex, hindex, hstate⟩ := bind_eq_ok.mp hextract
    refine ⟨{ base, requirements := state.requirements, required }, ?_, hitems⟩
    unfold selectTypes
    rw [hbase, ok_bind, hindex, ok_bind, if_neg (by simp [htypeSet]), if_neg (by simp [hrequirements]),
      hstate, ok_bind]
    exact bind_eq_ok.mpr ⟨_, hclosure, rfl⟩
  · rintro ⟨selection, hselect, hitems⟩
    obtain ⟨htypeSet, hrequirements, state, seedTotal, added, hbase, hextract, hreq, hclosure⟩ :=
      selectTypes_eq_ok hselect
    rw [hreq] at hitems
    refine ⟨htypeSet, hrequirements, selection.base, { header, explanation := none, seedTotal, addedTypes := added }, hbase, ?_, rfl⟩
    refine bind_eq_ok.mpr ⟨_, hextract, bind_eq_ok.mpr ⟨(header, added), ?_, rfl⟩⟩
    exact bind_eq_ok.mpr ⟨_, hclosure, bind_eq_ok.mpr ⟨header, hitems, rfl⟩⟩

/-- The witness of a run fails only as standard error does. -/
theorem writeExplanation_eq {selection : Selection} (h : selectTypes env opts = .ok selection) :
    writeExplanation env opts selection =
      if opts.explain = true ∧ env.stderrFails = true then
        fail "failed to write requirement witness".toList
      else .ok () := by
  obtain ⟨_, _, state, _, _, _, hextract, hreq, _⟩ := selectTypes_eq_ok h
  obtain ⟨text, htext⟩ := mchRequirementsWriteExplanation_succeeds
    (extractObjects_extracted hextract).good.consistent
  unfold writeExplanation
  rw [hreq, htext, ok_bind]
  cases opts.explain with
  | false => rfl
  | true => cases env.stderrFails <;> rfl

end

/-! ## The temporary file -/

section

variable {fuel : Nat} {env : Env} {selection : Selection} {path : CString} {files files' : Files}

theorem tmpPath_ne (path : CString) (pid attempt : Nat) : tmpPath path pid attempt ≠ path := by
  intro heq
  have hlength := congrArg List.length heq
  unfold tmpPath at hlength
  simp only [List.length_append] at hlength
  have hdot : (".tmp.".toList).length = 5 := rfl
  omega

theorem removeFile_created {tmp : CString} (hnew : files tmp = none) (content : Option CString) :
    removeFile (Function.update files tmp content) tmp = files := by
  unfold removeFile
  rw [Function.update_idem, ← hnew, Function.update_eq_self]

/-- Either nothing has changed, or a new empty file is open. -/
theorem openTempFrom_cases {left attempt : Nat} {result : Except Fault CString}
    (h : openTempFrom env path files left attempt = (files', result)) :
    (files' = files ∧ ∃ err, result = .error (.error err)) ∨
      ∃ tmp, result = .ok tmp ∧ tmp ≠ path ∧ files tmp = none ∧
        files' = Function.update files tmp (some []) := by
  have hfails : ∀ text, (∃ err, (outputFailure path text : Except Fault CString) =
      .error (.error err)) := fun text => ⟨_, rfl⟩
  induction left generalizing attempt with
  | zero =>
      cases h
      exact Or.inl ⟨rfl, hfails _⟩
  | succ left ih =>
      rw [openTempFrom] at h
      dsimp only at h
      split at h
      · cases h
        exact Or.inl ⟨rfl, hfails _⟩
      · split at h
        · cases h
          exact Or.inl ⟨rfl, hfails _⟩
        · split at h
          · exact ih h
          next hnew =>
            split at h
            · cases h
              exact Or.inl ⟨removeFile_created hnew (some []), hfails _⟩
            · cases h
              exact Or.inr ⟨_, rfl, tmpPath_ne _ _ _, hnew, rfl⟩

theorem closeOutput_eq_ok {out : Stream Char} {emitted : Except Fault Unit}
    (h : closeOutput env path out emitted = .ok ()) :
    emitted = .ok () ∧ (out.flush env.output).error = false := by
  cases emitted with
  | error fault => cases h
  | ok done =>
      rw [closeOutput] at h
      split at h
      · cases h
      next hclosed =>
        rw [Bool.not_eq_true, Bool.or_eq_false_iff] at hclosed
        exact ⟨rfl, hclosed.1⟩

/-- An emission that succeeds has put the whole header into the stream. -/
theorem emitTo_eq_ok {device : Device} {out : Stream Char}
    (h : emitTo fuel env selection device {} = (out, .ok ())) :
    ∃ items, mchEmitHeaderWithOptions fuel selection.base selection.required
        (some selection.requirements) = .ok items ∧
      out = ({} : Stream Char).puts device (headerText items) ∧ out.error = false := by
  unfold emitTo at h
  split at h
  · cases h
  next items hitems =>
    dsimp only at h
    split at h
    · cases h
    next herror =>
      cases h
      exact ⟨items, hitems, rfl, by simpa using herror⟩

/-- Writing to a path replaces it by the whole header or leaves every file as it was. -/
theorem writeHeaderToPath_cases {result : Except Fault Unit}
    (h : writeHeaderToPath fuel env selection path files = (files', result)) :
    (files' = files ∧ ∃ fault, result = .error fault) ∨
      result = .ok () ∧ ∃ items, mchEmitHeaderWithOptions fuel selection.base selection.required
          (some selection.requirements) = .ok items ∧
        files' = Function.update files path (some (headerText items)) := by
  unfold writeHeaderToPath at h
  cases hopen : openTempOutput env path files with
  | mk opened outcome =>
      rw [hopen] at h
      rcases openTempFrom_cases hopen with ⟨rfl, err, rfl⟩ | ⟨tmp, rfl, hne, hnew, rfl⟩
      · cases h
        exact Or.inl ⟨rfl, _, rfl⟩
      · dsimp only at h
        rw [Function.update_idem] at h
        cases hemit : emitTo fuel env selection env.output {} with
        | mk out emitted =>
            rw [hemit] at h
            dsimp only at h
            split at h
            next fault hclose =>
              cases h
              exact Or.inl ⟨removeFile_created hnew _, fault, rfl⟩
            next hclose =>
              split at h
              · cases h
                exact Or.inl ⟨removeFile_created hnew _, _, rfl⟩
              · cases h
                obtain ⟨rfl, hflush⟩ := closeOutput_eq_ok hclose
                obtain ⟨items, hitems, rfl, _⟩ := emitTo_eq_ok hemit
                refine Or.inr ⟨rfl, items, hitems, ?_⟩
                obtain ⟨haccepted, herror⟩ := (wrote_puts env.output (headerText items)).flush
                rw [herror, decide_eq_false_iff_not, Nat.not_lt] at hflush
                unfold renameFile
                rw [Function.update_self, haccepted, List.take_of_length_le hflush,
                  Function.update_comm hne]
                have hback : Function.update files path (some (headerText items)) tmp = none := by
                  rw [Function.update_of_ne hne]
                  exact hnew
                exact removeFile_created hback _

end

/-! ## The output file -/

section

variable {fuel : Nat} {env : Env} {opts : CliOptions} {world world' : World} {status : Nat}

/-- The run is one that generates a header. -/
def CliOptions.Runs (opts : CliOptions) : Prop := opts.help = false ∧ opts.version = false

theorem main_of_runs (hruns : opts.Runs) : main fuel env opts world =
    match selectTypes env opts with
    | .error fault => finish env world (.error fault)
    | .ok selection =>
        match writeOutput fuel env opts selection world with
        | (world, .error fault) => finish env world (.error fault)
        | (world, .ok ()) => finish env world (writeExplanation env opts selection) := by
  unfold main
  rw [hruns.1, hruns.2, if_neg Bool.false_ne_true, if_neg Bool.false_ne_true]

theorem finish_eq_some {result : Except Fault Unit}
    (h : finish env world result = some (status, world')) :
    world' = { world with stdout := world.stdout.flush env.stdout } ∧
      (status = 0 ∧ result = .ok () ∨ status = 1 ∧ ∃ err, result = .error (.error err)) := by
  cases result with
  | ok done =>
      cases h
      exact ⟨rfl, Or.inl ⟨rfl, rfl⟩⟩
  | error fault =>
      cases fault with
      | error err =>
          cases h
          exact ⟨rfl, Or.inr ⟨rfl, err, rfl⟩⟩
      | outOfFuel | outOfBounds => cases h

/-- A run that ends has left every file alone, or replaced the output by the header
it generates; the witness is all that can fail after that. -/
theorem main_outputFile {path : CString} (hpath : opts.outputPath = some path) (hruns : opts.Runs)
    (h : main fuel env opts world = some (status, world')) :
    (∀ other, other ≠ path → world'.files other = world.files other) ∧
      (status = 0 → ∃ header, Generates fuel env opts header ∧
        world'.files path = some (headerText header)) ∧
      (status ≠ 0 → world'.files path = world.files path ∨
        opts.explain = true ∧ env.stderrFails = true ∧ ∃ header, Generates fuel env opts header ∧
          world'.files path = some (headerText header)) := by
  rw [main_of_runs hruns] at h
  have huntouched : ∀ fault, finish env world (.error fault) = some (status, world') →
      world'.files = world.files ∧ status ≠ 0 := by
    intro fault hfinish
    obtain ⟨rfl, ⟨_, hok⟩ | ⟨rfl, _⟩⟩ := finish_eq_some hfinish
    · cases hok
    · exact ⟨rfl, Nat.one_ne_zero⟩
  cases hselect : selectTypes env opts with
  | error fault =>
      rw [hselect] at h
      obtain ⟨hfiles, hstatus⟩ := huntouched fault h
      rw [hfiles]
      exact ⟨fun _ _ => rfl, fun hzero => (hstatus hzero).elim, fun _ => Or.inl rfl⟩
  | ok selection =>
      rw [hselect] at h
      dsimp only at h
      unfold writeOutput at h
      rw [hpath] at h
      dsimp only at h
      cases hwrite : writeHeaderToPath fuel env selection path world.files with
      | mk files written =>
          rw [hwrite] at h
          rcases writeHeaderToPath_cases hwrite with ⟨rfl, fault, rfl⟩ | ⟨rfl, items, hitems, rfl⟩
          · obtain ⟨hfiles, hstatus⟩ := huntouched fault h
            rw [hfiles]
            exact ⟨fun _ _ => rfl, fun hzero => (hstatus hzero).elim, fun _ => Or.inl rfl⟩
          · have hgenerates : Generates fuel env opts items :=
              generates_iff.mpr ⟨selection, hselect, hitems⟩
            obtain ⟨rfl, hresult⟩ := finish_eq_some h
            refine ⟨fun other hne => Function.update_of_ne hne _ _, fun _ =>
              ⟨items, hgenerates, Function.update_self _ _ _⟩, fun hstatus => Or.inr ?_⟩
            rcases hresult with ⟨hzero, _⟩ | ⟨_, err, hwitness⟩
            · exact (hstatus hzero).elim
            · rw [writeExplanation_eq hselect] at hwitness
              split at hwitness
              next hboth =>
                exact ⟨hboth.1, hboth.2, items, hgenerates, Function.update_self _ _ _⟩
              next => cases hwitness

end

/-- A run over an object that names `enum E`, with what is still free to fail. -/
def smallEnv (stdoutCapacity : Nat) (stderrFails : Bool) : Env where
  loadBase := fun _ => .ok (enumOnly [3])
  loadObject := fun _ => .ok { btf := enumOnly [3], ext := none }
  output := { size := 64, capacity := 4096 }
  stdout := { size := 4096, capacity := stdoutCapacity }
  stderrFails := stderrFails

def smallOptions (outputPath : Option CString) (explain : Bool) : CliOptions where
  btfPath := ['b']
  objects := [['a']]
  outputPath := outputPath
  explain := explain

set_option maxRecDepth 8000 in
theorem main_outputFile_small :
    ∃ status world',
      main 10 (smallEnv 0 false) (smallOptions (some ['h']) false) { files := fun _ => none } =
        some (status, world') ∧
      (∀ other, other ≠ ['h'] → world'.files other = none) ∧
      (status = 0 → ∃ header,
        Generates 10 (smallEnv 0 false) (smallOptions (some ['h']) false) header ∧
          world'.files ['h'] = some (headerText header)) := by
  have hends : (main 10 (smallEnv 0 false) (smallOptions (some ['h']) false)
      { files := fun _ => none }).isSome = true := by decide
  obtain ⟨⟨status, world'⟩, hmain⟩ := Option.isSome_iff_exists.mp hends
  obtain ⟨hothers, hzero, _⟩ := main_outputFile rfl ⟨rfl, rfl⟩ hmain
  exact ⟨status, world', hmain, hothers, hzero⟩

set_option maxRecDepth 8000 in
/-- The witness cannot be written: the exit status is 1, and the file that was not
there holds the header. -/
theorem witnessFails_replacesOutput :
    ∃ status world',
      main 10 (smallEnv 0 true) (smallOptions (some ['h']) true) { files := fun _ => none } =
        some (status, world') ∧ status ≠ 0 ∧ world'.files ['h'] ≠ none := by
  have hends : (main 10 (smallEnv 0 true) (smallOptions (some ['h']) true)
      { files := fun _ => none }).map (fun result => (result.1, (result.2.files ['h']).isSome)) =
        some (1, true) := by decide
  obtain ⟨⟨status, world'⟩, hmain, hresult⟩ := Option.map_eq_some_iff.mp hends
  obtain ⟨hstatus, hfile⟩ := Prod.mk.inj hresult
  have hone : status = 1 := hstatus
  refine ⟨status, world', hmain, ?_, ?_⟩
  · rw [hone]
    exact Nat.one_ne_zero
  · exact Option.isSome_iff_ne_none.mp hfile

section

variable {fuel : Nat} {env : Env} {opts : CliOptions} {world world' : World} {status : Nat}

/-! ## Standard output -/

/-- Every byte of the header of the run is accepted by the file behind standard output. -/
def Delivered (fuel : Nat) (env : Env) (opts : CliOptions) (world : World) : Prop :=
  ∃ header, Generates fuel env opts header ∧ world.stdout.accepted = headerText header

/-- Another step fails, or the file accepts the header, or its writes begin to
fail in what leaves the buffer while the header is printed. -/
def StdoutChecked (fuel : Nat) (env : Env) (opts : CliOptions) : Prop :=
  ∀ header, Generates fuel env opts header → opts.explain = true ∧ env.stderrFails = true ∨
    (headerText header).length ≤ env.stdout.capacity ∨
    env.stdout.capacity < env.stdout.early (headerText header).length

/-- The exit of a run that prints `header` to a new standard output. -/
theorem main_stdout {header : List Item} (hstdout : world.stdout = {})
    (hout : opts.outputPath = none) (hruns : opts.Runs) (hheader : Generates fuel env opts header) :
    (¬(opts.explain = true ∧ env.stderrFails = true) ∧
        env.stdout.early (headerText header).length ≤ env.stdout.capacity →
      ∃ world', main fuel env opts world = some (0, world')) ∧
    ∀ world', main fuel env opts world = some (0, world') →
      ¬(opts.explain = true ∧ env.stderrFails = true) ∧
        env.stdout.early (headerText header).length ≤ env.stdout.capacity ∧
        world'.stdout.accepted = (headerText header).take env.stdout.capacity := by
  obtain ⟨selection, hselect, hitems⟩ := generates_iff.mp hheader
  have hwrote := wrote_puts env.stdout (headerText header)
  have hflush := hwrote.flush.1
  have hemit : emitTo fuel env selection env.stdout {} =
      if (({} : Stream Char).puts env.stdout (headerText header)).error = true then
        (({} : Stream Char).puts env.stdout (headerText header), .error (.error {}))
      else (({} : Stream Char).puts env.stdout (headerText header), .ok ()) := by
    unfold emitTo
    rw [hitems]
  rw [main_of_runs hruns, hselect]
  dsimp only
  unfold writeOutput
  rw [hout, hstdout, hemit, hwrote.error_eq]
  by_cases hearly : env.stdout.capacity < env.stdout.early (headerText header).length
  · rw [decide_eq_true hearly, if_pos rfl]
    refine ⟨fun hboth => absurd hearly (Nat.not_lt.mpr hboth.2), fun world' hmain => ?_⟩
    cases hmain
  · rw [decide_eq_false hearly, if_neg Bool.false_ne_true]
    dsimp only
    rw [writeExplanation_eq hselect]
    by_cases hwitness : opts.explain = true ∧ env.stderrFails = true
    · rw [if_pos hwitness]
      refine ⟨fun hboth => absurd hwitness hboth.1, fun world' hmain => ?_⟩
      cases hmain
    · rw [if_neg hwitness]
      refine ⟨fun _ => ⟨_, rfl⟩, fun world' hmain => ?_⟩
      cases hmain
      exact ⟨hwitness, Nat.not_lt.mp hearly, hflush⟩

/-- Exit status 0 of a run to standard output means that the header was delivered
exactly where no write is left to fail after the stream was last asked for errors. -/
theorem main_delivers_iff (hstdout : world.stdout = {}) (hout : opts.outputPath = none)
    (hruns : opts.Runs) :
    (∀ world', main fuel env opts world = some (0, world') → Delivered fuel env opts world') ↔
      StdoutChecked fuel env opts := by
  constructor
  · intro hdelivers header hheader
    obtain ⟨hsucceeds, hexit⟩ := main_stdout hstdout hout hruns hheader
    by_contra hnot
    simp only [not_or, Nat.not_le, Nat.not_lt] at hnot
    obtain ⟨hwitness, hshort, hearly⟩ := hnot
    obtain ⟨world', hmain⟩ := hsucceeds ⟨hwitness, hearly⟩
    obtain ⟨other, hother, haccepted⟩ := hdelivers world' hmain
    obtain ⟨_, _, htake⟩ := hexit world' hmain
    rw [hheader.unique hother] at hshort htake
    have hlength := congrArg List.length (haccepted.symm.trans htake)
    rw [List.length_take] at hlength
    omega
  · intro hchecked world' hmain
    -- a run that exits with 0 has printed a header
    have hgenerates : ∃ header, Generates fuel env opts header := by
      have hrun := hmain
      rw [main_of_runs hruns] at hrun
      cases hselect : selectTypes env opts with
      | error fault =>
          rw [hselect] at hrun
          obtain ⟨_, ⟨_, hok⟩ | ⟨hone, _⟩⟩ := finish_eq_some hrun
          · cases hok
          · cases hone
      | ok selection =>
          cases hitems : mchEmitHeaderWithOptions fuel selection.base selection.required
              (some selection.requirements) with
          | ok items => exact ⟨items, generates_iff.mpr ⟨selection, hselect, hitems⟩⟩
          | error fault =>
              rw [hselect] at hrun
              dsimp only at hrun
              unfold writeOutput emitTo at hrun
              rw [hout, hitems] at hrun
              obtain ⟨_, ⟨_, hok⟩ | ⟨hone, _⟩⟩ := finish_eq_some hrun
              · cases hok
              · cases hone
    obtain ⟨header, hheader⟩ := hgenerates
    obtain ⟨hwitness, hearly, htake⟩ := (main_stdout hstdout hout hruns hheader).2 world' hmain
    refine ⟨header, hheader, ?_⟩
    rcases hchecked header hheader with hfails | hfits | hlate
    · exact (hwitness hfails).elim
    · rw [htake, List.take_of_length_le hfits]
    · omega

end

theorem headerText_ne_nil {fuel : Nat} {base : Btf} {required : TypeSet}
    {requirements : Option Requirements} {header : List Item}
    (h : mchEmitHeaderWithOptions fuel base required requirements = .ok header) :
    headerText header ≠ [] := by
  obtain ⟨fwds, enums, defs, rfl, _⟩ := emitHeader_layout h
  unfold headerItems headerOpening headerText
  simp only [List.cons_append, List.flatMap_cons]
  exact List.cons_ne_nil _ _

theorem main_delivers_small :
    (∀ world', main 10 (smallEnv 0 false) (smallOptions none false) { files := fun _ => none } =
        some (0, world') → Delivered 10 (smallEnv 0 false) (smallOptions none false) world') ↔
      StdoutChecked 10 (smallEnv 0 false) (smallOptions none false) :=
  main_delivers_iff rfl rfl ⟨rfl, rfl⟩

set_option maxRecDepth 8000 in
/-- The file behind standard output accepts nothing, and the exit status is 0. -/
theorem fullStdout_notReported :
    ∃ world', main 10 (smallEnv 0 false) (smallOptions none false) { files := fun _ => none } =
        some (0, world') ∧ ¬Delivered 10 (smallEnv 0 false) (smallOptions none false) world' := by
  have hruns : ((generate (smallEnv 0 false).loadObject 10 (enumOnly [3]) {} [['a']]).toOption.map fun out =>
      decide ((headerText out.header).length < 4096)) = some true := by decide
  obtain ⟨out, hout, hlength⟩ := exists_ok_of_map hruns
  have hheader : Generates 10 (smallEnv 0 false) (smallOptions none false) out.header :=
    ⟨rfl, rfl, enumOnly [3], out, rfl, hout, rfl⟩
  have hearly : Device.early { size := 4096, capacity := 0 } (headerText out.header).length = 0 :=
    Device.early_of_le (Nat.le_of_lt (of_decide_eq_true hlength))
  obtain ⟨hsucceeds, hexit⟩ := @main_stdout 10 (smallEnv 0 false) (smallOptions none false)
    { files := fun _ => none } out.header rfl rfl ⟨rfl, rfl⟩ hheader
  obtain ⟨world', hmain⟩ := hsucceeds ⟨nofun, Nat.le_of_eq hearly⟩
  obtain ⟨_, _, haccepted⟩ := hexit world' hmain
  refine ⟨world', hmain, ?_⟩
  rintro ⟨header, hother, hdelivered⟩
  obtain ⟨selection, _, hitems⟩ := generates_iff.mp hother
  exact headerText_ne_nil hitems (hdelivered.symm.trans haccepted)

end MinCorehdr
