import MinCorehdr.Main
import MinCorehdr.Support.Reorder

/-!
# The command line

`mch_cli_parse`, and the items an argument vector spells: flags, options with a
value, objects.  The parser is a loop over the items, whichever way they are
spelled, and items of different fields commute.
-/

namespace MinCorehdr

open Support.Result Support.Reorder

/-- `struct mch_cli_options`; a `NULL` path is `none`. -/
structure MchCliOptions where
  btfPath : Option CString := none
  outputPath : Option CString := none
  objects : List CString := []
  verbose : Nat := 0
  quiet : Bool := false
  stats : Bool := false
  explain : Bool := false
  expandPointers : Bool := false
  help : Bool := false
  version : Bool := false
  deriving DecidableEq, Repr

/-- The options without a value. -/
inductive CliFlag
  | help | version | verbose | quiet | stats | explain | expandPointers
  deriving DecidableEq, Repr

def CliFlag.set (opts : MchCliOptions) : CliFlag → MchCliOptions
  | .help => { opts with help := true }
  | .version => { opts with version := true }
  | .verbose => { opts with quiet := false, verbose := opts.verbose + 1 }
  | .quiet => { opts with quiet := true, verbose := 0 }
  | .stats => { opts with stats := true }
  | .explain => { opts with explain := true }
  | .expandPointers => { opts with expandPointers := true }

/-- The tests for a long option without a value, in the order of the source. -/
def longFlag (arg : CString) : Option CliFlag :=
  if arg = "--help".toList then some .help
  else if arg = "--version".toList then some .version
  else if arg = "--verbose".toList then some .verbose
  else if arg = "--quiet".toList then some .quiet
  else if arg = "--stats".toList then some .stats
  else if arg = "--explain".toList then some .explain
  else if arg = "--expand-pointers".toList then some .expandPointers
  else none

/-- The letters of a cluster that stand for a flag. -/
def shortFlag : Char → Option CliFlag
  | 'h' => some .help
  | 'V' => some .version
  | 'v' => some .verbose
  | 'q' => some .quiet
  | _ => none

/-- `add_object`; memory is granted. -/
def addObject (opts : MchCliOptions) (path : CString) : MchCliOptions :=
  { opts with objects := opts.objects ++ [path] }

def setBtfPath (opts : MchCliOptions) (path : CString) : Except Fault MchCliOptions :=
  if opts.btfPath.isSome then fail "duplicate --btf option".toList
  else .ok { opts with btfPath := some path }

def setOutputPath (opts : MchCliOptions) (path : CString) : Except Fault MchCliOptions :=
  if opts.outputPath.isSome then fail "duplicate --output option".toList
  else if path = [] then fail "empty --output FILE".toList
  else .ok { opts with outputPath := some path }

/-- `require_value`: the argument behind the option. -/
def requireValue (rest : List CString) (option : CString) : Except Fault CString :=
  match rest with
  | [] => fail ("missing value for ".toList ++ option)
  | value :: _ => .ok value

/-- The loop over the letters of a cluster; `true` if it took the next argument. -/
def parseCluster (rest : List CString) :
    CString → MchCliOptions → Except Fault (MchCliOptions × Bool)
  | [], opts => .ok (opts, false)
  | c :: more, opts =>
      match shortFlag c with
      | some flag => parseCluster rest more (flag.set opts)
      | none =>
          if c = 'o' then
            if more ≠ [] then do
              let opts ← setOutputPath opts more
              .ok (opts, false)
            else do
              let path ← requireValue rest "-o".toList
              let opts ← setOutputPath opts path
              .ok (opts, true)
          else fail ("unknown option ".toList ++ ['-', c])

/-- What follows the dash, if `arg[0] == '-' && arg[1] != '\0'`. -/
def dashLetters : CString → Option (Char × CString)
  | '-' :: c :: more => some (c, more)
  | _ => none

/-- The loop over the arguments behind the program's name; `true` if the one at the head has
been taken as a value. -/
def parseArguments : List CString → Bool → MchCliOptions → Except Fault MchCliOptions
  | [], _, opts => .ok opts
  | _ :: rest, true, opts => parseArguments rest false opts
  | arg :: rest, false, opts =>
      if arg = "--".toList then .ok (rest.foldl addObject opts)
      else
        match longFlag arg with
        | some flag => parseArguments rest false (flag.set opts)
        | none =>
            if arg.take 6 = "--btf=".toList then do
              let opts ← setBtfPath opts (arg.drop 6)
              parseArguments rest false opts
            else if arg = "--btf".toList then do
              let path ← requireValue rest "--btf".toList
              let opts ← setBtfPath opts path
              parseArguments rest true opts
            else if arg.take 9 = "--output=".toList then do
              let opts ← setOutputPath opts (arg.drop 9)
              parseArguments rest false opts
            else if arg = "--output".toList then do
              let path ← requireValue rest "--output".toList
              let opts ← setOutputPath opts path
              parseArguments rest true opts
            else
              match dashLetters arg with
              | some (c, more) =>
                  if c = '-' ∧ more ≠ [] then fail ("unknown option ".toList ++ arg)
                  else do
                    let (opts, taken) ← parseCluster rest (c :: more) opts
                    parseArguments rest taken opts
              | none => parseArguments rest false (addObject opts arg)

/-- The checks behind the loop. -/
def checkOptions (opts : MchCliOptions) : Except Fault MchCliOptions :=
  if opts.help ∨ opts.version then .ok opts
  else if opts.btfPath.getD [] = [] then fail "missing required --btf FILE".toList
  else if opts.objects = [] then fail "missing OBJECT input".toList
  else if opts.outputPath.isSome ∧ opts.outputPath = opts.btfPath then
    fail "output path must not match --btf input".toList
  else if ∃ path ∈ opts.objects, opts.outputPath = some path then
    fail "output path must not match OBJECT input".toList
  else .ok opts

def mchCliParse (argv : List CString) : Except Fault MchCliOptions := do
  let opts ← parseArguments argv.tail false {}
  checkOptions opts

/-! ## Items and their spellings -/

/-- One flag, one option with its value, one object, or an option there is not. -/
inductive CliItem
  | flag (f : CliFlag)
  | btf (path : CString)
  | output (path : CString)
  | object (path : CString)
  | unknown (text : CString)
  deriving DecidableEq, Repr

def CliItem.apply (opts : MchCliOptions) : CliItem → Except Fault MchCliOptions
  | .flag f => .ok (f.set opts)
  | .btf path => setBtfPath opts path
  | .output path => setOutputPath opts path
  | .object path => .ok (addObject opts path)
  | .unknown text => fail ("unknown option ".toList ++ text)

/-- What follows the items: the objects behind `--`, or an option that lacks its value. -/
inductive CliTail
  | objects (paths : List CString)
  | missingValue (option : CString)
  deriving DecidableEq, Repr

def CliTail.finish (opts : MchCliOptions) : CliTail → Except Fault MchCliOptions
  | .objects paths => .ok (paths.foldl addObject opts)
  | .missingValue option => fail ("missing value for ".toList ++ option)

/-- An argument that is an unknown option, and how the diagnostic names it. -/
inductive UnknownOption : CString → CString → Prop
  | long {arg more : CString} : arg = '-' :: '-' :: more → more ≠ [] → longFlag arg = none →
      arg.take 6 ≠ "--btf=".toList → arg ≠ "--btf".toList → arg.take 9 ≠ "--output=".toList →
      arg ≠ "--output".toList → UnknownOption arg arg
  | letter {c : Char} {more : CString} : c ≠ '-' → c ≠ 'o' → shortFlag c = none →
      UnknownOption ('-' :: c :: more) ['-', c]
  | dash {c : Char} {more : CString} {flag : CliFlag} : shortFlag c = some flag →
      UnknownOption ('-' :: c :: '-' :: more) ['-', '-']

/-- The arguments spell these items, up to the first `--` that is no value. -/
inductive Spells : List CString → List CliItem → CliTail → Prop
  | nil : Spells [] [] (.objects [])
  | endOfOptions {paths : List CString} : Spells ("--".toList :: paths) [] (.objects paths)
  | missingValue {option : CString} :
      option ∈ ["--btf".toList, "--output".toList, "-o".toList] →
      Spells [option] [] (.missingValue option)
  | longFlag {arg : CString} {flag : CliFlag} {rest : List CString} {items : List CliItem}
      {tail : CliTail} : longFlag arg = some flag → Spells rest items tail →
      Spells (arg :: rest) (.flag flag :: items) tail
  | shortFlag {c : Char} {flag : CliFlag} {rest : List CString} {items : List CliItem}
      {tail : CliTail} : shortFlag c = some flag → Spells rest items tail →
      Spells (['-', c] :: rest) (.flag flag :: items) tail
  | cluster {c c' : Char} {more : CString} {flag : CliFlag} {rest : List CString}
      {items : List CliItem} {tail : CliTail} : shortFlag c = some flag → c' ≠ '-' →
      Spells (('-' :: c' :: more) :: rest) items tail →
      Spells (('-' :: c :: c' :: more) :: rest) (.flag flag :: items) tail
  | btfJoined {path : CString} {rest : List CString} {items : List CliItem} {tail : CliTail} :
      Spells rest items tail → Spells (("--btf=".toList ++ path) :: rest) (.btf path :: items) tail
  | btf {path : CString} {rest : List CString} {items : List CliItem} {tail : CliTail} :
      Spells rest items tail → Spells ("--btf".toList :: path :: rest) (.btf path :: items) tail
  | outputJoined {path : CString} {rest : List CString} {items : List CliItem} {tail : CliTail} :
      Spells rest items tail →
      Spells (("--output=".toList ++ path) :: rest) (.output path :: items) tail
  | output {path : CString} {rest : List CString} {items : List CliItem} {tail : CliTail} :
      Spells rest items tail →
      Spells ("--output".toList :: path :: rest) (.output path :: items) tail
  | shortOutputJoined {path : CString} {rest : List CString} {items : List CliItem}
      {tail : CliTail} : path ≠ [] → Spells rest items tail →
      Spells (("-o".toList ++ path) :: rest) (.output path :: items) tail
  | shortOutput {path : CString} {rest : List CString} {items : List CliItem} {tail : CliTail} :
      Spells rest items tail → Spells ("-o".toList :: path :: rest) (.output path :: items) tail
  | object {path : CString} {rest : List CString} {items : List CliItem} {tail : CliTail} :
      (∀ c more, path ≠ '-' :: c :: more) → Spells rest items tail →
      Spells (path :: rest) (.object path :: items) tail
  | unknown {arg text : CString} {rest : List CString} {items : List CliItem} {tail : CliTail} :
      UnknownOption arg text → Spells rest items tail →
      Spells (arg :: rest) (.unknown text :: items) tail

/-! ## The parser on a spelling -/

section Parse

variable {opts : MchCliOptions} {rest : List CString}

theorem parseArguments_longFlag {arg : CString} {flag : CliFlag} (h : longFlag arg = some flag) :
    parseArguments (arg :: rest) false opts = parseArguments rest false (flag.set opts) := by
  have hne : arg ≠ "--".toList := by
    rintro rfl
    cases h
  rw [parseArguments, if_neg hne, h]

/-- An argument of one dash and letters. -/
theorem parseArguments_letters {c : Char} {more : CString} (hc : c ≠ '-') :
    parseArguments (('-' :: c :: more) :: rest) false opts =
      parseCluster rest (c :: more) opts >>= fun result =>
        parseArguments rest result.2 result.1 := by
  have hflag : longFlag ('-' :: c :: more) = none := by simp [longFlag, hc]
  simp [parseArguments, dashLetters, hflag, hc]

theorem parseArguments_btfJoined (path : CString) :
    parseArguments (("--btf=".toList ++ path) :: rest) false opts =
      setBtfPath opts path >>= parseArguments rest false := by
  have hflag : longFlag ("--btf=".toList ++ path) = none := by simp [longFlag]
  rw [parseArguments, if_neg (by simp), hflag]
  rfl

theorem parseArguments_btf (path : CString) :
    parseArguments ("--btf".toList :: path :: rest) false opts =
      setBtfPath opts path >>= parseArguments rest false := rfl

theorem parseArguments_outputJoined (path : CString) :
    parseArguments (("--output=".toList ++ path) :: rest) false opts =
      setOutputPath opts path >>= parseArguments rest false := by
  have hflag : longFlag ("--output=".toList ++ path) = none := by simp [longFlag]
  rw [parseArguments, if_neg (by simp), hflag]
  rfl

theorem parseArguments_output (path : CString) :
    parseArguments ("--output".toList :: path :: rest) false opts =
      setOutputPath opts path >>= parseArguments rest false := rfl

theorem parseArguments_object {path : CString} (h : ∀ c more, path ≠ '-' :: c :: more) :
    parseArguments (path :: rest) false opts = parseArguments rest false (addObject opts path) := by
  match path, h with
  | [], _ => rfl
  | [c], _ => simp [parseArguments, longFlag, dashLetters]
  | c :: c' :: more, h =>
      have hc : c ≠ '-' := by
        rintro rfl
        exact h c' more rfl
      simp [parseArguments, longFlag, dashLetters, hc]

theorem parseArguments_unknown {arg text : CString} (h : UnknownOption arg text) :
    parseArguments (arg :: rest) false opts = fail ("unknown option ".toList ++ text) := by
  cases h with
  | @long _ more harg hmore hflag hbtf hbtf' houtput houtput' =>
      have hdash : arg ≠ "--".toList := by
        subst harg
        simpa using hmore
      have hletters : dashLetters arg = some ('-', more) := by
        rw [harg]
        rfl
      rw [parseArguments, if_neg hdash, hflag]
      simp only
      rw [if_neg hbtf, if_neg hbtf', if_neg houtput, if_neg houtput', hletters]
      exact if_pos ⟨rfl, hmore⟩
  | letter hdash ho hflag =>
      rw [parseArguments_letters hdash, parseCluster, hflag]
      simp only
      rw [if_neg ho]
      rfl
  | @dash c more flag hflag =>
      have hc : c ≠ '-' := by
        rintro rfl
        cases hflag
      rw [parseArguments_letters hc, parseCluster, hflag]
      rfl

theorem parseArguments_cluster {c c' : Char} {more : CString} {flag : CliFlag}
    (hflag : shortFlag c = some flag) (hc' : c' ≠ '-') :
    parseArguments (('-' :: c :: c' :: more) :: rest) false opts =
      parseArguments (('-' :: c' :: more) :: rest) false (flag.set opts) := by
  have hc : c ≠ '-' := by
    rintro rfl
    cases hflag
  rw [parseArguments_letters hc, parseArguments_letters hc', parseCluster, hflag]

theorem parseArguments_shortFlag {c : Char} {flag : CliFlag} (hflag : shortFlag c = some flag) :
    parseArguments (['-', c] :: rest) false opts = parseArguments rest false (flag.set opts) := by
  have hc : c ≠ '-' := by
    rintro rfl
    cases hflag
  rw [parseArguments_letters hc, parseCluster, hflag]
  rfl

theorem parseArguments_shortOutputJoined {path : CString} (hpath : path ≠ []) :
    parseArguments (("-o".toList ++ path) :: rest) false opts =
      setOutputPath opts path >>= parseArguments rest false := by
  have hcluster : parseCluster rest ('o' :: path) opts =
      setOutputPath opts path >>= fun opts => .ok (opts, false) := by
    have hflag : shortFlag 'o' = none := rfl
    rw [parseCluster, hflag]
    simp only
    rw [if_pos hpath]
    rfl
  have hargs : "-o".toList ++ path = '-' :: 'o' :: path := rfl
  rw [hargs, parseArguments_letters (by decide), hcluster]
  cases setOutputPath opts path <;> rfl

theorem parseArguments_shortOutput (path : CString) :
    parseArguments ("-o".toList :: path :: rest) false opts =
      setOutputPath opts path >>= parseArguments rest false := by
  have hcluster : parseCluster (path :: rest) ['o'] opts =
      setOutputPath opts path >>= fun opts => .ok (opts, true) := rfl
  have hargs : "-o".toList = ['-', 'o'] := rfl
  rw [hargs, parseArguments_letters (by decide), hcluster]
  cases setOutputPath opts path <;> rfl

/-- The parser is the loop over the items. -/
theorem parseArguments_of_spells {args : List CString} {items : List CliItem} {tail : CliTail}
    (h : Spells args items tail) : ∀ opts : MchCliOptions,
      parseArguments args false opts = items.foldlM CliItem.apply opts >>= tail.finish := by
  have hitem : ∀ {args rest : List CString} {item : CliItem} {items : List CliItem} {tail : CliTail},
      (∀ opts, parseArguments args false opts = item.apply opts >>= parseArguments rest false) →
      (∀ opts, parseArguments rest false opts = items.foldlM CliItem.apply opts >>= tail.finish) →
      ∀ opts, parseArguments args false opts =
        (item :: items).foldlM CliItem.apply opts >>= tail.finish := by
    intro args rest item items tail hstep ih opts
    rw [hstep, List.foldlM_cons, bind_assoc]
    exact bind_congr ih
  induction h with
  | nil => exact fun _ => rfl
  | endOfOptions => exact fun _ => rfl
  | missingValue hoption =>
      intro opts
      simp only [List.mem_cons, List.not_mem_nil, or_false] at hoption
      rcases hoption with rfl | rfl | rfl
      · rfl
      · rfl
      · rfl
  | longFlag hflag _ ih => exact hitem (fun _ => parseArguments_longFlag hflag) ih
  | shortFlag hflag _ ih => exact hitem (fun _ => parseArguments_shortFlag hflag) ih
  | cluster hflag hc' _ ih => exact hitem (fun _ => parseArguments_cluster hflag hc') ih
  | btfJoined _ ih => exact hitem (fun _ => parseArguments_btfJoined _) ih
  | btf _ ih => exact hitem (fun _ => parseArguments_btf _) ih
  | outputJoined _ ih => exact hitem (fun _ => parseArguments_outputJoined _) ih
  | output _ ih => exact hitem (fun _ => parseArguments_output _) ih
  | shortOutputJoined hpath _ ih =>
      exact hitem (fun _ => parseArguments_shortOutputJoined hpath) ih
  | shortOutput _ ih => exact hitem (fun _ => parseArguments_shortOutput _) ih
  | object hpath _ ih => exact hitem (fun _ => parseArguments_object hpath) ih
  | unknown hunknown _ ih => exact hitem (fun _ => parseArguments_unknown hunknown) ih

end Parse

/-! ## Every argument vector spells something -/

theorem exists_spells_letters {rest : List CString}
    (hrest : ∃ items tail, Spells rest items tail)
    (hnext : ∀ value others, rest = value :: others → ∃ items tail, Spells others items tail)
    (more : CString) : ∀ {c : Char}, c ≠ '-' →
      ∃ items tail, Spells (('-' :: c :: more) :: rest) items tail := by
  obtain ⟨items, tail, hspells⟩ := hrest
  induction more with
  | nil =>
      intro c hc
      cases hflag : shortFlag c with
      | some flag => exact ⟨_, _, .shortFlag hflag hspells⟩
      | none =>
          by_cases ho : c = 'o'
          · subst ho
            cases rest with
            | nil => exact ⟨_, _, .missingValue (by simp)⟩
            | cons value others =>
                obtain ⟨items', tail', hspells'⟩ := hnext value others rfl
                exact ⟨_, _, .shortOutput hspells'⟩
          · exact ⟨_, _, .unknown (.letter hc ho hflag) hspells⟩
  | cons c' more ih =>
      intro c hc
      cases hflag : shortFlag c with
      | some flag =>
          by_cases hc' : c' = '-'
          · subst hc'
            exact ⟨_, _, .unknown (.dash hflag) hspells⟩
          · obtain ⟨items', tail', hspells'⟩ := ih hc'
            exact ⟨_, _, .cluster hflag hc' hspells'⟩
      | none =>
          by_cases ho : c = 'o'
          · subst ho
            exact ⟨_, _, .shortOutputJoined (List.cons_ne_nil c' more) hspells⟩
          · exact ⟨_, _, .unknown (.letter hc ho hflag) hspells⟩

/-- One more argument; a value is behind its option, or the option is the last argument. -/
theorem exists_spells_arg {rest : List CString} (hrest : ∃ items tail, Spells rest items tail)
    (hnext : ∀ value others, rest = value :: others → ∃ items tail, Spells others items tail)
    (arg : CString) : ∃ items tail, Spells (arg :: rest) items tail := by
  obtain ⟨items, tail, hspells⟩ := hrest
  by_cases hletters : ∃ c more, arg = '-' :: c :: more
  · obtain ⟨c, more, harg⟩ := hletters
    by_cases hc : c = '-'
    · subst hc
      by_cases hmore : more = []
      · subst hmore
        subst harg
        exact ⟨_, _, .endOfOptions⟩
      · cases hflag : longFlag arg with
        | some flag => exact ⟨_, _, .longFlag hflag hspells⟩
        | none =>
            by_cases hbtf : arg.take 6 = "--btf=".toList
            · rw [← List.take_append_drop 6 arg, hbtf]
              exact ⟨_, _, .btfJoined hspells⟩
            by_cases houtput : arg.take 9 = "--output=".toList
            · rw [← List.take_append_drop 9 arg, houtput]
              exact ⟨_, _, .outputJoined hspells⟩
            by_cases hbtf' : arg = "--btf".toList
            · cases rest with
              | nil => exact ⟨_, _, .missingValue (by simp [hbtf'])⟩
              | cons value others =>
                  obtain ⟨items', tail', hspells'⟩ := hnext value others rfl
                  rw [hbtf']
                  exact ⟨_, _, .btf hspells'⟩
            by_cases houtput' : arg = "--output".toList
            · cases rest with
              | nil => exact ⟨_, _, .missingValue (by simp [houtput'])⟩
              | cons value others =>
                  obtain ⟨items', tail', hspells'⟩ := hnext value others rfl
                  rw [houtput']
                  exact ⟨_, _, .output hspells'⟩
            exact ⟨_, _, .unknown (.long harg hmore hflag hbtf hbtf' houtput houtput') hspells⟩
    · rw [harg]
      exact exists_spells_letters ⟨items, tail, hspells⟩ hnext more hc
  · refine ⟨_, _, .object (fun c more heq => ?_) hspells⟩
    exact hletters ⟨c, more, heq⟩

/-- Every vector can be split: what it spells is not an assumption. -/
theorem exists_spells (args : List CString) : ∃ items tail, Spells args items tail := by
  induction hn : args.length using Nat.strong_induction_on generalizing args with
  | _ n ih =>
      subst hn
      cases args with
      | nil => exact ⟨_, _, .nil⟩
      | cons arg rest =>
          obtain ⟨items, tail, hrest⟩ := ih rest.length (by simp) rest rfl
          have hnext : ∀ value others, rest = value :: others →
              ∃ items tail, Spells others items tail := by
            rintro value others rfl
            exact ih others.length (by rw [List.length_cons, List.length_cons]; omega) others rfl
          exact exists_spells_arg ⟨items, tail, hrest⟩ hnext arg

/-! ## Order -/

/-- The items whose order among themselves matters. -/
inductive CliOrder
  | objects
  | verbosity
  deriving DecidableEq, Repr

def CliItem.order : CliItem → Option CliOrder
  | .object _ => some .objects
  | .flag .verbose | .flag .quiet => some .verbosity
  | _ => none

/-- A step of the loop, its diagnostic left out. -/
def CliItem.applyOrFail (opts : MchCliOptions) (item : CliItem) : Option MchCliOptions :=
  (item.apply opts).toOption

section Commute

variable {a b : CliItem}

theorem applyOrFail_btf (opts : MchCliOptions) (path : CString) :
    (CliItem.btf path).applyOrFail opts =
      if opts.btfPath.isSome then none else some { opts with btfPath := some path } := by
  show (setBtfPath opts path).toOption = _
  unfold setBtfPath
  split <;> rfl

theorem applyOrFail_output (opts : MchCliOptions) (path : CString) :
    (CliItem.output path).applyOrFail opts =
      if opts.outputPath.isSome ∨ path = [] then none
      else some { opts with outputPath := some path } := by
  show (setOutputPath opts path).toOption = _
  unfold setOutputPath
  by_cases hset : opts.outputPath.isSome = true
  · rw [if_pos hset, if_pos (Or.inl hset)]
    rfl
  · by_cases hpath : path = []
    · rw [if_neg hset, if_pos hpath, if_pos (Or.inr hpath)]
      rfl
    · rw [if_neg hset, if_neg hpath, if_neg (not_or.mpr ⟨hset, hpath⟩)]
      rfl

/-- A step that only updates commutes with a step that does not see the update. -/
theorem commute_of_map {g : MchCliOptions → MchCliOptions}
    (ha : ∀ opts, a.applyOrFail opts = some (g opts))
    (hb : ∀ opts, b.applyOrFail (g opts) = (b.applyOrFail opts).map g) :
    Commute CliItem.applyOrFail a b := by
  intro opts
  show (a.applyOrFail opts).bind (fun t => b.applyOrFail t) =
    (b.applyOrFail opts).bind (fun t => a.applyOrFail t)
  rw [ha, Option.bind_some, hb, funext ha]
  cases b.applyOrFail opts <;> rfl

theorem commute_unknown (text : CString) :
    Commute CliItem.applyOrFail (.unknown text) b := by
  intro opts
  show none = (b.applyOrFail opts).bind (fun _ => none)
  cases b.applyOrFail opts <;> rfl

theorem setFlag_comm {f g : CliFlag} (h : ¬SameClass CliItem.order (.flag f) (.flag g))
    (opts : MchCliOptions) : g.set (f.set opts) = f.set (g.set opts) := by
  cases f <;> cases g <;> first | rfl | exact absurd ⟨_, rfl, rfl⟩ h

theorem commute_flag {f : CliFlag} (h : ¬SameClass CliItem.order (.flag f) b) :
    Commute CliItem.applyOrFail (.flag f) b := by
  refine @commute_of_map (.flag f) b f.set (fun _ => rfl) fun opts => ?_
  cases b with
  | flag g => exact congrArg some (setFlag_comm h opts)
  | btf path =>
      have hsame : (f.set opts).btfPath = opts.btfPath := by cases f <;> rfl
      rw [applyOrFail_btf, applyOrFail_btf, hsame]
      split
      · rfl
      · cases f <;> rfl
  | output path =>
      have hsame : (f.set opts).outputPath = opts.outputPath := by cases f <;> rfl
      rw [applyOrFail_output, applyOrFail_output, hsame]
      split
      · rfl
      · cases f <;> rfl
  | object path => cases f <;> rfl
  | unknown text => rfl

theorem commute_object {path : CString} (h : ¬SameClass CliItem.order (.object path) b) :
    Commute CliItem.applyOrFail (.object path) b := by
  refine @commute_of_map (.object path) b (fun opts => addObject opts path) (fun _ => rfl)
    fun opts => ?_
  cases b with
  | flag g => cases g <;> rfl
  | btf other =>
      have hsame : (addObject opts path).btfPath = opts.btfPath := rfl
      rw [applyOrFail_btf, applyOrFail_btf, hsame]
      split <;> rfl
  | output other =>
      have hsame : (addObject opts path).outputPath = opts.outputPath := rfl
      rw [applyOrFail_output, applyOrFail_output, hsame]
      split <;> rfl
  | object other => exact absurd ⟨_, rfl, rfl⟩ h
  | unknown text => rfl

/-- A second path of one kind fails whichever comes first. -/
theorem commute_btf_btf (path other : CString) :
    Commute CliItem.applyOrFail (.btf path) (.btf other) := by
  have hnone : ∀ path other opts, ((CliItem.btf path).applyOrFail opts).bind
      (fun t => (CliItem.btf other).applyOrFail t) = none := by
    intro path other opts
    rw [applyOrFail_btf]
    split
    · rfl
    · rw [Option.bind_some, applyOrFail_btf]
      rfl
  exact fun opts => (hnone path other opts).trans (hnone other path opts).symm

theorem commute_output_output (path other : CString) :
    Commute CliItem.applyOrFail (.output path) (.output other) := by
  have hnone : ∀ path other opts, ((CliItem.output path).applyOrFail opts).bind
      (fun t => (CliItem.output other).applyOrFail t) = none := by
    intro path other opts
    rw [applyOrFail_output]
    split
    · rfl
    · rw [Option.bind_some, applyOrFail_output]
      exact if_pos (Or.inl rfl)
  exact fun opts => (hnone path other opts).trans (hnone other path opts).symm

theorem commute_btf_output (path other : CString) :
    Commute CliItem.applyOrFail (.btf path) (.output other) := by
  intro opts
  show ((CliItem.btf path).applyOrFail opts).bind (fun t => (CliItem.output other).applyOrFail t) =
    ((CliItem.output other).applyOrFail opts).bind (fun t => (CliItem.btf path).applyOrFail t)
  simp only [applyOrFail_btf, applyOrFail_output]
  split <;> split <;> simp_all

theorem commute_items (h : ¬SameClass CliItem.order a b) :
    Commute CliItem.applyOrFail a b := by
  have hback : ¬SameClass CliItem.order b a := fun ⟨k, hb, ha⟩ => h ⟨k, ha, hb⟩
  cases a with
  | flag f => exact commute_flag h
  | object path => exact commute_object h
  | unknown text => exact commute_unknown text
  | btf path =>
      cases b with
      | flag f => exact (commute_flag hback).symm
      | btf other => exact commute_btf_btf path other
      | output other => exact commute_btf_output path other
      | object other => exact (commute_object hback).symm
      | unknown text => exact (commute_unknown text).symm
  | output path =>
      cases b with
      | flag f => exact (commute_flag hback).symm
      | btf other => exact (commute_btf_output other path).symm
      | output other => exact commute_output_output path other
      | object other => exact (commute_object hback).symm
      | unknown text => exact (commute_unknown text).symm

end Commute

theorem toOption_mchCliParse {program : CString} {args : List CString} {items : List CliItem}
    {tail : CliTail} (h : Spells args items tail) :
    (mchCliParse (program :: args)).toOption =
      items.foldlM CliItem.applyOrFail {} >>= fun opts =>
        (tail.finish opts >>= checkOptions).toOption := by
  have hparse : mchCliParse (program :: args) =
      items.foldlM CliItem.apply {} >>= fun opts => tail.finish opts >>= checkOptions := by
    rw [mchCliParse, List.tail_cons, parseArguments_of_spells h, bind_assoc]
  rw [hparse, toOption_bind, toOption_foldlM]
  rfl

theorem toOption_mchCliParse_eq {program : CString} {args args' : List CString}
    {items items' : List CliItem} {tail : CliTail} (h : Spells args items tail)
    (h' : Spells args' items' tail) (horder : Reordered CliItem.order items items') :
    (mchCliParse (program :: args)).toOption = (mchCliParse (program :: args')).toOption := by
  have hfold : items.foldlM CliItem.applyOrFail {} = items'.foldlM CliItem.applyOrFail {} :=
    foldlM_reordered (fun _ _ => commute_items) horder {}
  rw [toOption_mchCliParse h, toOption_mchCliParse h', hfold]

/-- Two vectors that spell the same items, objects and verbosity flags in the same order,
are accepted alike and give the same options. -/
theorem mchCliParse_spelling {program : CString} {args args' : List CString}
    {items items' : List CliItem} {tail : CliTail} (h : Spells args items tail)
    (h' : Spells args' items' tail) (horder : Reordered CliItem.order items items')
    (opts : MchCliOptions) :
    mchCliParse (program :: args) = .ok opts ↔ mchCliParse (program :: args') = .ok opts := by
  rw [← toOption_eq_some, ← toOption_eq_some, toOption_mchCliParse_eq h h' horder]

theorem mchCliParse_spelling_cluster :
    mchCliParse ["min-corehdr".toList, "-vqoout.h".toList, "--btf".toList, "b".toList, "a.o".toList] =
        .ok { btfPath := some ['b'], outputPath := some "out.h".toList, objects := ["a.o".toList]
              quiet := true } ↔
      mchCliParse ["min-corehdr".toList, "a.o".toList, "-v".toList, "--btf=b".toList, "-q".toList,
        "--output".toList, "out.h".toList] =
        .ok { btfPath := some ['b'], outputPath := some "out.h".toList, objects := ["a.o".toList]
              quiet := true } := by
  have hcluster : Spells ["-vqoout.h".toList, "--btf".toList, "b".toList, "a.o".toList]
      [.flag .verbose, .flag .quiet, .output "out.h".toList, .btf ['b'], .object "a.o".toList]
      (.objects []) := by
    refine .cluster rfl (by decide) (.cluster rfl (by decide) ?_)
    refine @Spells.shortOutputJoined "out.h".toList _ _ _ (by decide) (.btf (.object ?_ .nil))
    exact nofun
  have hsingle : Spells ["a.o".toList, "-v".toList, "--btf=b".toList, "-q".toList,
      "--output".toList, "out.h".toList]
      [.object "a.o".toList, .flag .verbose, .btf ['b'], .flag .quiet, .output "out.h".toList]
      (.objects []) := by
    refine .object ?_ (.shortFlag rfl (@Spells.btfJoined ['b'] _ _ _ (.shortFlag rfl (.output .nil))))
    exact nofun
  have horder : Reordered CliItem.order
      [.flag .verbose, .flag .quiet, .output "out.h".toList, .btf ['b'], .object "a.o".toList]
      [.object "a.o".toList, .flag .verbose, .btf ['b'], .flag .quiet, .output "out.h".toList] := by
    constructor
    · decide
    · intro k
      cases k <;> rfl
  exact mchCliParse_spelling hcluster hsingle horder _

/-! ## The program from its arguments on -/

/-- The options the run looks at. -/
def MchCliOptions.forRun (opts : MchCliOptions) : CliOptions where
  btfPath := opts.btfPath.getD []
  objects := opts.objects
  outputPath := opts.outputPath
  expandPointers := opts.expandPointers
  explain := opts.explain
  help := opts.help
  version := opts.version

/-- `main`; a vector that is not accepted ends it with status 2, before anything is opened. -/
def mainArguments (fuel : Nat) (env : Env) (argv : List CString) (world : World) :
    Option (Nat × World) :=
  match mchCliParse argv with
  | .error _ => some (2, world)
  | .ok opts => main fuel env opts.forRun world

/-- Spelling and order of the arguments do not change the run. -/
theorem mainArguments_eq_of_spells {fuel : Nat} {env : Env} {program : CString}
    {args args' : List CString} {items items' : List CliItem} {tail : CliTail}
    (h : Spells args items tail) (h' : Spells args' items' tail)
    (horder : Reordered CliItem.order items items') (world : World) :
    mainArguments fuel env (program :: args) world =
      mainArguments fuel env (program :: args') world := by
  have hsame := @toOption_mchCliParse_eq program args args' items items' tail h h' horder
  unfold mainArguments
  cases hparse : mchCliParse (program :: args) with
  | ok opts =>
      rw [hparse] at hsame
      rw [toOption_eq_some.mp hsame.symm]
  | error fault =>
      cases hparse' : mchCliParse (program :: args') with
      | ok opts =>
          rw [hparse, hparse'] at hsame
          cases hsame
      | error fault' => rfl

end MinCorehdr
