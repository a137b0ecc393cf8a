import MinCorehdr.Seeds.AccessPath

/-!
# Tokenising an access string

`parse_access_component` takes a run of digits and the colon behind it, and its
callers go on until nothing is left.  `AccessRuns` is the grammar: runs of digits
with one colon between each two.
-/

namespace MinCorehdr

open Support.Result

/-- The number a run of digits stands for. -/
def runValue (run : CString) : Nat := Nat.ofDigitChars 10 run 0

/-- A run of digits whose number fits 32 bits. -/
structure IsRun (run : CString) : Prop where
  ne_nil : run ≠ []
  digits : ∀ c ∈ run, isDigit c = true
  value_le : runValue run ≤ uint32Max

/-- The runs of a string and their numbers. -/
inductive AccessRuns : CString → List Nat → Prop
  | last {run : CString} : IsRun run → AccessRuns run [runValue run]
  | more {run text : CString} {values : List Nat} : IsRun run → AccessRuns text values →
      AccessRuns (run ++ ':' :: text) (runValue run :: values)

/-- `parse_access_component` again and again, from the cursor to the end of the
string. -/
def accessComponentsFrom : Nat → CString → Option (List Nat)
  | 0, _ => none
  | fuel + 1, cursor =>
      match parseAccessComponent cursor with
      | none => none
      | some (value, cursor) =>
          if cursor = [] then some [value]
          else (accessComponentsFrom fuel cursor).map (value :: ·)

/-- The components of a whole string; each takes a character. -/
def accessComponents (access : CString) : Option (List Nat) :=
  accessComponentsFrom (access.length + 1) access

/-- The digit loop with numbers that cannot wrap. -/
def parseDigitsExact : CString → Nat → Option (Nat × CString)
  | [], parsed => some (parsed, [])
  | c :: rest, parsed =>
      if isDigit c then
        let parsed := parsed * 10 + (c.toNat - '0'.toNat)
        if uint32Max < parsed then none else parseDigitsExact rest parsed
      else
        some (parsed, c :: rest)

/-! ## One component -/

theorem digit_le_nine {c : Char} (h : isDigit c = true) : c.toNat - '0'.toNat ≤ 9 := by
  have hrange := of_decide_eq_true h
  have hzero : '0'.toNat = 48 := rfl
  have hnine : '9'.toNat = 57 := rfl
  omega

/-- A value that passed the guard leaves room for ten times itself and a digit. -/
theorem step_lt_two_pow {parsed : Nat} (h : parsed ≤ uint32Max) {c : Char} (hc : isDigit c = true) :
    parsed * 10 + (c.toNat - '0'.toNat) < 2 ^ 64 := by
  have hdigit := digit_le_nine hc
  have hmax : uint32Max = 2 ^ 32 - 1 := rfl
  omega

theorem parseDigits_eq_exact (cursor : CString) : ∀ parsed, parsed ≤ uint32Max →
    parseDigits cursor parsed = parseDigitsExact cursor parsed := by
  induction cursor with
  | nil => exact fun _ _ => rfl
  | cons c rest ih =>
      intro parsed hparsed
      rw [parseDigits, parseDigitsExact]
      by_cases hc : isDigit c = true
      · rw [if_pos hc, if_pos hc, Nat.mod_eq_of_lt (step_lt_two_pow hparsed hc)]
        simp only
        split
        · rfl
        · exact ih _ (by omega)
      · rw [if_neg hc, if_neg hc]

/-- What the digit loop has read. -/
theorem parseDigits_eq_some {cursor rest : CString} : ∀ {parsed value : Nat}, parsed ≤ uint32Max →
    parseDigits cursor parsed = some (value, rest) →
      ∃ digits, cursor = digits ++ rest ∧ (∀ c ∈ digits, isDigit c = true) ∧
        (∀ c ∈ rest.head?, isDigit c = false) ∧ value = Nat.ofDigitChars 10 digits parsed ∧
          value ≤ uint32Max := by
  induction cursor with
  | nil =>
      intro parsed value hparsed h
      cases h
      exact ⟨[], rfl, by simp, by simp, rfl, hparsed⟩
  | cons c tail ih =>
      intro parsed value hparsed h
      rw [parseDigits] at h
      by_cases hc : isDigit c = true
      · rw [if_pos hc, Nat.mod_eq_of_lt (step_lt_two_pow hparsed hc)] at h
        simp only at h
        split at h
        next => cases h
        next hle =>
          obtain ⟨digits, htail, hdigits, hrest, hvalue, hmax⟩ := ih (by omega) h
          refine ⟨c :: digits, by rw [htail, List.cons_append], ?_, hrest, ?_, hmax⟩
          · intro d hd
            rcases List.mem_cons.mp hd with rfl | hd
            · exact hc
            · exact hdigits d hd
          · rw [hvalue, Nat.ofDigitChars_cons, Nat.mul_comm]
      · rw [if_neg hc] at h
        cases h
        refine ⟨[], rfl, by simp, ?_, rfl, hparsed⟩
        intro d hd
        cases hd
        simpa using hc

theorem IsRun.exists_cons {run : CString} (h : IsRun run) :
    ∃ c digits, run = c :: digits ∧ isDigit c = true := by
  obtain ⟨c, digits, rfl⟩ := List.exists_cons_of_ne_nil h.ne_nil
  exact ⟨c, digits, rfl, h.digits c List.mem_cons_self⟩

theorem isDigit_colon : isDigit ':' = false := by decide

theorem IsRun.parseDigits {run rest : CString} (h : IsRun run)
    (hrest : ∀ c ∈ rest.head?, isDigit c = false) :
    parseDigits (run ++ rest) 0 = some (runValue run, rest) :=
  parseDigits_append h.digits hrest h.value_le

/-- A component is a run, up to the end of the string or with the colon behind it. -/
theorem parseAccessComponent_eq_some {cursor rest : CString} {value : Nat} :
    parseAccessComponent cursor = some (value, rest) ↔
      ∃ run, IsRun run ∧ value = runValue run ∧
        (cursor = run ∧ rest = [] ∨ cursor = run ++ ':' :: rest) := by
  constructor
  · intro h
    unfold parseAccessComponent at h
    split at h
    next => cases h
    next c tail =>
      split at h
      next hc =>
        cases hread : MinCorehdr.parseDigits (c :: tail) 0 with
        | none =>
            rw [hread] at h
            cases h
        | some result =>
            obtain ⟨read, left⟩ := result
            rw [hread] at h
            obtain ⟨digits, hcursor, hdigits, hleft, hvalue, hmax⟩ :=
              parseDigits_eq_some (Nat.zero_le _) hread
            have hne : digits ≠ [] := by
              rintro rfl
              rw [List.nil_append] at hcursor
              have hfalse := hleft c (by rw [← hcursor]; rfl)
              rw [hc] at hfalse
              cases hfalse
            have hrun : IsRun digits := ⟨hne, hdigits, by rw [runValue, ← hvalue]; exact hmax⟩
            cases left with
            | nil =>
                cases h
                rw [List.append_nil] at hcursor
                exact ⟨digits, hrun, hvalue, Or.inl ⟨hcursor, rfl⟩⟩
            | cons d left =>
                by_cases hcolon : d = ':'
                · subst hcolon
                  cases h
                  exact ⟨digits, hrun, hvalue, Or.inr hcursor⟩
                · simp at h
      next => cases h
  · rintro ⟨run, hrun, rfl, hcursor⟩
    have hstart : ∀ tail, (∀ c ∈ tail.head?, isDigit c = false) →
        tail = [] ∧ rest = [] ∨ tail = ':' :: rest →
          parseAccessComponent (run ++ tail) = some (runValue run, rest) := by
      intro tail hhead hend
      have hread := hrun.parseDigits hhead
      obtain ⟨c, digits, rfl, hc⟩ := hrun.exists_cons
      exact parseAccessComponent_of_parseDigits hc hread hend
    rcases hcursor with ⟨rfl, rfl⟩ | rfl
    · have hrest := hstart [] (by simp) (Or.inl ⟨rfl, rfl⟩)
      rw [List.append_nil] at hrest
      exact hrest
    · refine hstart (':' :: rest) ?_ (Or.inr rfl)
      intro c hc
      cases hc
      exact isDigit_colon

/-! ## The whole string -/

theorem accessComponentsFrom_succ_eq_some {fuel : Nat} {cursor : CString} {values : List Nat} :
    accessComponentsFrom (fuel + 1) cursor = some values ↔
      ∃ value rest, parseAccessComponent cursor = some (value, rest) ∧
        (rest = [] ∧ values = [value] ∨ rest ≠ [] ∧ ∃ others,
          accessComponentsFrom fuel rest = some others ∧ values = value :: others) := by
  rw [accessComponentsFrom]
  cases parseAccessComponent cursor with
  | none => simp
  | some result =>
      obtain ⟨value, rest⟩ := result
      by_cases hrest : rest = []
      · simp [hrest, eq_comm]
      · simp [hrest, eq_comm]

theorem AccessRuns.ne_nil {text : CString} {values : List Nat} (h : AccessRuns text values) :
    text ≠ [] := by
  cases h with
  | last hrun => exact hrun.ne_nil
  | more _ _ => simp

/-- What is accepted is a string of runs, or one with a colon behind it. -/
theorem accessRuns_of_accessComponentsFrom {fuel : Nat} : ∀ {text : CString} {values : List Nat},
    accessComponentsFrom fuel text = some values →
      AccessRuns text values ∨ ∃ body, text = body ++ [':'] ∧ AccessRuns body values := by
  induction fuel with
  | zero =>
      intro text values h
      cases h
  | succ fuel ih =>
      intro text values h
      obtain ⟨value, rest, hparse, hvalues⟩ := accessComponentsFrom_succ_eq_some.mp h
      obtain ⟨run, hrun, rfl, htext⟩ := parseAccessComponent_eq_some.mp hparse
      rcases hvalues with ⟨rfl, rfl⟩ | ⟨hne, others, hothers, rfl⟩
      · rcases htext with ⟨rfl, _⟩ | rfl
        · exact Or.inl (.last hrun)
        · exact Or.inr ⟨run, rfl, .last hrun⟩
      · rcases htext with ⟨_, hnil⟩ | rfl
        · exact absurd hnil hne
        · rcases ih hothers with hruns | ⟨body, rfl, hruns⟩
          · exact Or.inl (.more hrun hruns)
          · exact Or.inr ⟨run ++ ':' :: body, by simp, .more hrun hruns⟩

/-- Strings of runs are accepted, with or without a colon behind them. -/
theorem accessComponentsFrom_of_accessRuns {text : CString} {values : List Nat}
    (h : AccessRuns text values) (colon : CString) (hcolon : colon = [] ∨ colon = [':']) :
    ∀ fuel, (text ++ colon).length < fuel →
      accessComponentsFrom fuel (text ++ colon) = some values := by
  induction h with
  | @last run hrun =>
      intro fuel hfuel
      obtain ⟨fuel, rfl⟩ := Nat.exists_eq_succ_of_ne_zero (Nat.ne_of_gt (Nat.zero_lt_of_lt hfuel))
      refine accessComponentsFrom_succ_eq_some.mpr ⟨runValue run, [], ?_, Or.inl ⟨rfl, rfl⟩⟩
      refine parseAccessComponent_eq_some.mpr ⟨run, hrun, rfl, ?_⟩
      rcases hcolon with rfl | rfl
      · exact Or.inl ⟨List.append_nil run, rfl⟩
      · exact Or.inr rfl
  | @more run text values hrun hruns ih =>
      intro fuel hfuel
      obtain ⟨fuel, rfl⟩ := Nat.exists_eq_succ_of_ne_zero (Nat.ne_of_gt (Nat.zero_lt_of_lt hfuel))
      simp only [List.append_assoc, List.cons_append, List.length_append, List.length_cons]
        at hfuel
      have hrest : text ++ colon ≠ [] := by
        intro hnil
        exact hruns.ne_nil (List.append_eq_nil_iff.mp hnil).1
      refine accessComponentsFrom_succ_eq_some.mpr ⟨runValue run, text ++ colon, ?_,
        Or.inr ⟨hrest, values, ?_, rfl⟩⟩
      · exact parseAccessComponent_eq_some.mpr ⟨run, hrun, rfl, Or.inr (by simp)⟩
      · apply ih
        rw [List.length_append]
        omega

/-- What the tokeniser accepts. -/
theorem accessComponents_eq_some_iff {text : CString} {values : List Nat} :
    accessComponents text = some values ↔
      AccessRuns text values ∨ ∃ body, text = body ++ [':'] ∧ AccessRuns body values := by
  constructor
  · exact accessRuns_of_accessComponentsFrom
  · rintro (hruns | ⟨body, rfl, hruns⟩)
    · have haccept := accessComponentsFrom_of_accessRuns hruns [] (Or.inl rfl)
      rw [List.append_nil] at haccept
      exact haccept _ (Nat.lt_succ_self _)
    · exact accessComponentsFrom_of_accessRuns hruns [':'] (Or.inr rfl) _ (Nat.lt_succ_self _)

/-! ## The walk over components -/

/-- The turn of `record_core_relo_requirements` for one component: the member that is
recorded, and the object and base types behind it. -/
def recordComponent (baseBtf objectBtf : Btf) (objectPath access : CString)
    (origin : Option RequirementOrigin) (component objectId baseId : Nat) (state : SeedState) :
    Except Fault (SeedState × Nat × Nat) :=
  match peelToRecord objectBtf objectId, peelToRecord baseBtf baseId with
  | some (objectId, objectRecord), some (baseId, baseRecord) =>
      match objectRecord.members[component]? with
      | none => invalidAccessMember objectPath access objectId component
      | some objectMember => do
          let memberName := btfNameByOffset objectBtf objectMember.nameOff
          let (state, memberMatch) ← onError (mchErrorSetFile objectPath)
            (markBaseMemberPath baseBtf memberName origin 17 component state baseId baseRecord)
          match memberMatch with
          | none => unresolvedMember baseBtf objectPath access baseRecord memberName
          | some baseMemberType => .ok (state, objectMember.type, baseMemberType)
  | _, _ =>
      accessNotThroughRecords objectPath access (peelAccessType objectBtf objectId).1
        (peelAccessType baseBtf baseId).1

/-- The loop over components that have been read. -/
def recordComponents (baseBtf objectBtf : Btf) (objectPath access : CString)
    (origin : Option RequirementOrigin) :
    List Nat → Nat → Nat → SeedState → Except Fault SeedState
  | [], _, _, state => .ok state
  | component :: rest, objectId, baseId, state => do
      let (state, objectId, baseId) ←
        recordComponent baseBtf objectBtf objectPath access origin component objectId baseId state
      recordComponents baseBtf objectBtf objectPath access origin rest objectId baseId state

section Walk

variable {baseBtf objectBtf : Btf} {objectPath access : CString}
  {origin : Option RequirementOrigin}

theorem recordAccessPath_succ {fuel component : Nat} {cursor rest : CString}
    (hparse : parseAccessComponent cursor = some (component, rest)) (objectId baseId : Nat)
    (state : SeedState) :
    recordAccessPath baseBtf objectBtf objectPath access origin (fuel + 1) cursor objectId baseId
        state =
      (recordComponent baseBtf objectBtf objectPath access origin component objectId baseId state >>=
        fun (state, objectId, baseId) =>
          recordAccessPath baseBtf objectBtf objectPath access origin fuel rest objectId baseId
            state) := by
  have hcursor : cursor ≠ [] := by
    rintro rfl
    cases hparse
  rw [recordAccessPath, if_neg hcursor, hparse]
  simp only [recordComponent]
  cases peelToRecord objectBtf objectId with
  | none => rfl
  | some objectRecord =>
      cases peelToRecord baseBtf baseId with
      | none => rfl
      | some baseRecord =>
          simp only
          cases objectRecord.2.members[component]? with
          | none => rfl
          | some objectMember =>
              simp only [bind_assoc]
              congr 1
              funext result
              obtain ⟨state, found⟩ := result
              cases found <;> rfl

/-- The loop over a string is the loop over its components. -/
theorem recordAccessPath_eq_components {fuel : Nat} : ∀ {cursor : CString} {components : List Nat},
    accessComponentsFrom fuel cursor = some components → ∀ objectId baseId state,
      recordAccessPath baseBtf objectBtf objectPath access origin (fuel + 1) cursor objectId baseId
        state = recordComponents baseBtf objectBtf objectPath access origin components objectId
          baseId state := by
  induction fuel with
  | zero =>
      intro cursor components h
      cases h
  | succ fuel ih =>
      intro cursor components h objectId baseId state
      obtain ⟨component, rest, hparse, hvalues⟩ := accessComponentsFrom_succ_eq_some.mp h
      rw [recordAccessPath_succ hparse]
      rcases hvalues with ⟨rfl, rfl⟩ | ⟨_, others, hothers, rfl⟩
      · rw [recordComponents]
        congr 1
      · rw [recordComponents]
        congr 1
        funext result
        exact ih hothers _ _ _

/-- A field relocation is followed component by component, the first one left out. -/
theorem recordCoreReloRequirements_eq_components {relo : CoreRelo} {root : Nat}
    {components : List Nat} (hkind : isFieldReloKind relo.kind = true)
    (haccess : accessComponents access = some (root :: components)) (baseId : Nat)
    (state : SeedState) :
    recordCoreReloRequirements baseBtf objectBtf objectPath relo baseId (some access) origin state =
      recordComponents baseBtf objectBtf objectPath access origin components relo.typeId baseId
        state := by
  obtain ⟨value, rest, hparse, hvalues⟩ := accessComponentsFrom_succ_eq_some.mp haccess
  have hguard : ¬(isFieldReloKind relo.kind = false ∨ access = []) := by
    rw [hkind]
    rintro (hfalse | rfl)
    · cases hfalse
    · cases hparse
  rw [recordCoreReloRequirements, if_neg hguard, hparse]
  simp only
  rcases hvalues with ⟨rfl, heq⟩ | ⟨_, others, hothers, heq⟩
  · cases heq
    rfl
  · cases heq
    exact recordAccessPath_eq_components hothers _ _ _

end Walk

/-- No string of runs ends in a colon. -/
theorem AccessRuns.getLast?_ne_colon {text : CString} {values : List Nat}
    (h : AccessRuns text values) : text.getLast? ≠ some ':' := by
  induction h with
  | @last run hrun =>
      intro hlast
      have hcolon := hrun.digits ':' (List.mem_of_getLast? hlast)
      rw [isDigit_colon] at hcolon
      cases hcolon
  | @more run text values _ hruns ih =>
      obtain ⟨c, rest, rfl⟩ := List.exists_cons_of_ne_nil hruns.ne_nil
      rw [List.getLast?_append, List.getLast?_cons_cons]
      cases hlast : (c :: rest).getLast? with
      | none => simp at hlast
      | some last =>
          rw [hlast] at ih
          exact ih

theorem isRun_decimal {n : Nat} (h : n ≤ uint32Max) : IsRun (decimal n) ∧ runValue (decimal n) = n := by
  have hvalue : runValue (decimal n) = n := Nat.ofDigitChars_ten_toDigits
  exact ⟨⟨Nat.toDigits_ne_nil, fun c hc => isDigit_of_mem_decimal hc, by rw [hvalue]; exact h⟩,
    hvalue⟩

theorem accessRuns_accessText {c : Nat} {cs : List Nat} (h : ∀ n ∈ c :: cs, n ≤ uint32Max) :
    AccessRuns (accessText (c :: cs)) (c :: cs) := by
  induction cs generalizing c with
  | nil =>
      obtain ⟨hrun, hvalue⟩ := isRun_decimal (h c List.mem_cons_self)
      have hlast := AccessRuns.last hrun
      rw [hvalue] at hlast
      exact hlast
  | cons c' cs ih =>
      obtain ⟨hrun, hvalue⟩ := isRun_decimal (h c List.mem_cons_self)
      have hmore := AccessRuns.more hrun (ih (fun n hn => h n (List.mem_cons_of_mem c hn)))
      rw [hvalue] at hmore
      exact hmore

/-- The string is tokenised as the grammar says. -/
def TokenisedExactly (text : CString) : Prop :=
  (∀ values, accessComponents text = some values ↔ AccessRuns text values) ∧
    ∀ parsed ≤ uint32Max, parseDigits text parsed = parseDigitsExact text parsed

/-- Every string but a well-formed one with a colon behind it is tokenised exactly, and what is
printed for a list of 32-bit numbers is read back. -/
theorem accessComponents_exact_iff (text : CString) :
    (TokenisedExactly text ↔ ¬∃ body values, text = body ++ [':'] ∧ AccessRuns body values) ∧
      ∀ c cs, (∀ n ∈ c :: cs, n ≤ uint32Max) →
        accessComponents (accessText (c :: cs)) = some (c :: cs) := by
  constructor
  · constructor
    · rintro ⟨hexact, _⟩ ⟨body, values, rfl, hruns⟩
      have haccept := accessComponents_eq_some_iff.mpr (Or.inr ⟨body, rfl, hruns⟩)
      have hwhole := (hexact values).mp haccept
      exact hwhole.getLast?_ne_colon (by simp)
    · intro hnone
      constructor
      · intro values
        rw [accessComponents_eq_some_iff]
        constructor
        · rintro (hruns | ⟨body, rfl, hruns⟩)
          · exact hruns
          · exact absurd ⟨body, values, rfl, hruns⟩ hnone
        · exact Or.inl
      · exact fun parsed hparsed => parseDigits_eq_exact text parsed hparsed
  · intro c cs hrange
    exact accessComponents_eq_some_iff.mpr (Or.inl (accessRuns_accessText hrange))

/-- `"0:"` is accepted as the list of one zero. -/
theorem trailingColon_accepted :
    accessComponents ['0', ':'] = some [0] ∧ ¬TokenisedExactly ['0', ':'] := by
  have haccept : accessComponents ['0', ':'] = some [0] := rfl
  refine ⟨haccept, ?_⟩
  rintro ⟨hexact, _⟩
  exact ((hexact [0]).mp haccept).getLast?_ne_colon rfl

end MinCorehdr
