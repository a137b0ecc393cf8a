import MinCorehdr.Seeds.Access

/-!
# The path an access string selects

By the CO-RE rule the first component of an access string indexes the root pointer.
Every later one is a member index where the type reached so far is a struct or
union, and an element index where it is an array; typedefs and qualifiers in
between are stripped.
-/

namespace MinCorehdr

/-! ## Access strings -/

/-- The components of an access string as they are written. -/
def accessText : List Nat → CString
  | [] => []
  | [c] => decimal c
  | c :: c' :: cs => decimal c ++ ':' :: accessText (c' :: cs)

theorem isDigit_of_mem_decimal {n : Nat} {c : Char} (h : c ∈ decimal n) : isDigit c = true := by
  have hdigit : c.isDigit = true := Nat.isDigit_of_mem_toDigits (by decide) (by decide) h
  have hrange : '0'.toNat ≤ c.toNat ∧ c.toNat ≤ '9'.toNat := by
    simpa [Char.isDigit, UInt32.le_iff_toNat_le] using hdigit
  exact decide_eq_true hrange

theorem le_ofDigitChars (digits : List Char) (parsed : Nat) :
    parsed ≤ Nat.ofDigitChars 10 digits parsed := by
  induction digits generalizing parsed with
  | nil => simp
  | cons c digits ih =>
      rw [Nat.ofDigitChars_cons]
      have hrest := ih (10 * parsed + (c.toNat - '0'.toNat))
      omega

/-- Digits are read to the first character that is none. -/
theorem parseDigits_append {digits rest : CString} (hdigits : ∀ c ∈ digits, isDigit c = true)
    (hrest : ∀ c ∈ rest.head?, isDigit c = false) :
    ∀ {parsed : Nat}, Nat.ofDigitChars 10 digits parsed ≤ uint32Max →
      parseDigits (digits ++ rest) parsed = some (Nat.ofDigitChars 10 digits parsed, rest) := by
  induction digits with
  | nil =>
      intro parsed _
      rw [Nat.ofDigitChars_nil, List.nil_append]
      cases rest with
      | nil => rfl
      | cons c rest =>
          have hc := hrest c rfl
          simp [parseDigits, hc]
  | cons c digits ih =>
      intro parsed hle
      have hc := hdigits c List.mem_cons_self
      rw [Nat.ofDigitChars_cons] at hle ⊢
      have hnext := le_ofDigitChars digits (10 * parsed + (c.toNat - '0'.toNat))
      have hmax : uint32Max < 2 ^ 64 := by decide
      have hmod : (parsed * 10 + (c.toNat - '0'.toNat)) % 2 ^ 64 =
          10 * parsed + (c.toNat - '0'.toNat) := by
        rw [Nat.mod_eq_of_lt (by omega)]
        omega
      rw [List.cons_append, parseDigits, if_pos hc, hmod, if_neg (by omega)]
      exact ih (fun c hc => hdigits c (List.mem_cons_of_mem _ hc)) hle

/-- A component ends with the string or with a colon, which is taken with it. -/
theorem parseAccessComponent_of_parseDigits {c : Char} {cs rest tail : CString} {value : Nat}
    (hc : isDigit c = true) (hread : parseDigits (c :: cs) 0 = some (value, rest))
    (hend : rest = [] ∧ tail = [] ∨ rest = ':' :: tail) :
    parseAccessComponent (c :: cs) = some (value, tail) := by
  rw [parseAccessComponent, if_pos hc, hread]
  rcases hend with ⟨rfl, rfl⟩ | rfl
  · exact rfl
  · exact rfl

/-- The parser takes the first component and leaves the others. -/
theorem parseAccessComponent_accessText {c : Nat} (hc : c ≤ uint32Max) (cs : List Nat) :
    parseAccessComponent (accessText (c :: cs)) = some (c, accessText cs) := by
  have hdigits : ∀ d ∈ decimal c, isDigit d = true := fun d hd => isDigit_of_mem_decimal hd
  have hvalue : Nat.ofDigitChars 10 (decimal c) 0 = c := Nat.ofDigitChars_ten_toDigits
  obtain ⟨d, ds, heq⟩ := List.exists_cons_of_ne_nil (@Nat.toDigits_ne_nil c 10)
  have hd : isDigit d = true := hdigits d (by unfold decimal; rw [heq]; exact List.mem_cons_self)
  have hparse : ∀ rest tail : CString, (∀ d ∈ rest.head?, isDigit d = false) →
      rest = [] ∧ tail = [] ∨ rest = ':' :: tail →
        parseAccessComponent (decimal c ++ rest) = some (c, tail) := by
    intro rest tail hrest hend
    have hread := @parseDigits_append _ _ hdigits hrest 0 (by rw [hvalue]; exact hc)
    have hcons : decimal c ++ rest = d :: (ds ++ rest) := by
      unfold decimal
      rw [heq, List.cons_append]
    rw [hvalue, hcons] at hread
    rw [hcons]
    exact parseAccessComponent_of_parseDigits hd hread hend
  cases cs with
  | nil =>
      have hempty := hparse [] [] (by simp) (Or.inl ⟨rfl, rfl⟩)
      rw [List.append_nil] at hempty
      exact hempty
  | cons c' cs =>
      refine hparse (':' :: accessText (c' :: cs)) _ ?_ (Or.inr rfl)
      intro d hd
      cases hd
      decide

theorem length_lt_accessText (cs : List Nat) : cs.length ≤ (accessText cs).length := by
  have hpos : ∀ c, 0 < (decimal c).length := fun c => List.length_pos_of_ne_nil Nat.toDigits_ne_nil
  induction cs with
  | nil => simp
  | cons c cs ih =>
      cases cs with
      | nil => exact hpos c
      | cons c' cs =>
          have hc := hpos c
          rw [accessText, List.length_append, List.length_cons, List.length_cons,
            List.length_cons]
          rw [List.length_cons] at ih
          omega

theorem accessText_ne_nil (c : Nat) (cs : List Nat) : accessText (c :: cs) ≠ [] := by
  have hlength := length_lt_accessText (c :: cs)
  intro hnil
  rw [hnil] at hlength
  simp at hlength

/-! ## The CO-RE rule -/

def Kind.isStripped (kind : Kind) : Bool :=
  kind == .typedef || kind == .const || kind == .volatile || kind == .restrict || kind == .typeTag

/-- Typedefs and qualifiers between two types. -/
inductive Strips (btf : Btf) : Nat → Nat → Prop
  | here {id : Nat} : Strips btf id id
  | step {id target : Nat} {type : BtfType} :
      btfTypeById btf id = some type → type.kind.isStripped = true →
        Strips btf type.type target → Strips btf id target

/-- One component of a path: the member it selects, or an element of an array.
`typeId` is the type before anything is stripped. -/
inductive PathStep
  | member (typeId recordId index : Nat)
  | element (typeId : Nat)
  deriving DecidableEq, Repr

/-- The components behind the root select these steps from the type `id` on. -/
inductive CorePath (btf : Btf) : Nat → List Nat → List PathStep → Prop
  | nil {id : Nat} : CorePath btf id [] []
  | member {id recordId i : Nat} {record : BtfType} {member : BtfMember} {cs : List Nat}
      {steps : List PathStep} :
      Strips btf id recordId → btfTypeById btf recordId = some record →
        record.kind.isRecord = true → record.members[i]? = some member →
          CorePath btf member.type cs steps →
            CorePath btf id (i :: cs) (.member id recordId i :: steps)
  | element {id arrayId i : Nat} {array : BtfType} {cs : List Nat} {steps : List PathStep} :
      Strips btf id arrayId → btfTypeById btf arrayId = some array → array.kind = .array →
        CorePath btf array.array.type cs steps →
          CorePath btf id (i :: cs) (.element id :: steps)

/-- The members on a path. -/
def pathMembers (steps : List PathStep) : List (Nat × Nat) :=
  steps.filterMap fun step =>
    match step with
    | .member _ recordId i => some (recordId, i)
    | .element _ => none

/-- What `peel_access_type` comes to is behind the typedefs and qualifiers. -/
theorem peelAccessTypeFrom_of_strips {btf : Btf} {id target : Nat} {type found : BtfType}
    (h : Strips btf id target) (htype : btfTypeById btf target = some type)
    (hrecord : type.kind.isRecord = true) :
    ∀ {depth reached : Nat}, peelAccessTypeFrom btf depth id = (reached, some found) →
      reached = target ∧ found = type := by
  induction h with
  | here =>
      intro depth reached hpeel
      cases depth with
      | zero => cases hpeel
      | succ depth =>
          rw [peelAccessTypeFrom, htype] at hpeel
          split at hpeel
          next => cases hpeel
          next =>
            cases hkind : type.kind <;> rw [hkind] at hrecord <;>
              simp only [hkind] at hpeel <;> cases hrecord <;> cases hpeel <;> exact ⟨rfl, rfl⟩
  | @step id target stripped hstripped hkind _ ih =>
      intro depth reached hpeel
      cases depth with
      | zero => cases hpeel
      | succ depth =>
          rw [peelAccessTypeFrom, hstripped] at hpeel
          split at hpeel
          next => cases hpeel
          next =>
            have hnext : peelAccessTypeFrom btf depth stripped.type = (reached, some found) := by
              cases hk : stripped.kind <;> rw [hk] at hkind <;> simp only [hk] at hpeel <;>
                first | exact hpeel | cases hkind
            exact ih htype hnext

theorem peelToRecord_of_strips {btf : Btf} {id target : Nat} {type : BtfType}
    {found : Nat × BtfType} (h : Strips btf id target) (htype : btfTypeById btf target = some type)
    (hrecord : type.kind.isRecord = true) (hpeel : peelToRecord btf id = some found) :
    found = (target, type) := by
  unfold peelToRecord at hpeel
  split at hpeel
  next reached type' hfrom =>
    split at hpeel
    next =>
      cases hpeel
      obtain ⟨rfl, rfl⟩ := peelAccessTypeFrom_of_strips h htype hrecord hfrom
      rfl
    next => cases hpeel
  next => cases hpeel

theorem btfTypeById_of_peelAccessTypeFrom {btf : Btf} {found : BtfType} :
    ∀ {depth id reached : Nat}, peelAccessTypeFrom btf depth id = (reached, some found) →
      btfTypeById btf reached = some found := by
  intro depth
  induction depth with
  | zero =>
      intro id reached h
      cases h
  | succ depth ih =>
      intro id reached h
      rw [peelAccessTypeFrom] at h
      split at h
      next => cases h
      next =>
        split at h
        next => cases h
        next type htype =>
          cases hkind : type.kind <;> simp only [hkind] at h <;>
            first | exact ih h | (cases h; exact htype)

theorem btfTypeById_of_peelToRecord {btf : Btf} {id recordId : Nat} {record : BtfType}
    (h : peelToRecord btf id = some (recordId, record)) :
    btfTypeById btf recordId = some record ∧ record.kind.isRecord = true := by
  unfold peelToRecord at h
  split at h
  next reached type hfrom =>
    split at h
    next hkind =>
      cases h
      exact ⟨btfTypeById_of_peelAccessTypeFrom hfrom, hkind⟩
    next => cases h
  next => cases h

end MinCorehdr
