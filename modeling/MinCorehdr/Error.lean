import MinCorehdr.Btf

/-!
# Diagnostics

`struct mch_error` holds five texts in fixed buffers.  A function of the program
that returns `-1` after filling them is modelled by `Except Fault`; the other two
faults are not outcomes of the program: `outOfFuel` stops an evaluation whose
step budget was too small, `outOfBounds` marks a read outside the bytes given.
-/

namespace MinCorehdr

structure MchError where
  message : CString := []
  context : CString := []
  file : CString := []
  detail : CString := []
  hint : CString := []
  deriving DecidableEq, Repr

/-- What `snprintf` keeps of a text in a buffer of `size` bytes. -/
def clip (size : Nat) (text : CString) : CString := text.take (size - 1)

def mchErrorSet (text : CString) : MchError := { message := clip 256 text }

def mchErrorSetContext (text : CString) (err : MchError) : MchError :=
  { err with context := clip 512 text }

def mchErrorSetFile (file : CString) (err : MchError) : MchError :=
  { err with file := clip 512 file }

def mchErrorSetDetail (text : CString) (err : MchError) : MchError :=
  { err with detail := clip 512 text }

def mchErrorSetHint (hint : CString) (err : MchError) : MchError :=
  { err with hint := clip 256 hint }

inductive Fault
  | error (err : MchError)
  | outOfFuel
  | outOfBounds
  deriving DecidableEq, Repr

/-- `mch_error_set(err, text); return -1;` -/
def fail {α : Type} (text : CString) : Except Fault α := .error (.error (mchErrorSet text))

/-- A caller that adds to the diagnostic of a failed call before it returns. -/
def onError {α : Type} (amend : MchError → MchError) : Except Fault α → Except Fault α
  | .error (.error err) => .error (.error (amend err))
  | other => other

@[simp] theorem onError_eq_ok {α : Type} {amend : MchError → MchError} {x : Except Fault α}
    {a : α} : onError amend x = .ok a ↔ x = .ok a := by
  cases x with
  | ok b => simp [onError]
  | error fault => cases fault <;> simp [onError]

theorem onError_fail_ne_ok {α : Type} {amend : MchError → MchError} {text : CString} {a : α} :
    onError amend (fail text) ≠ .ok a := by
  intro h
  cases h

/-- The program returned `0`. -/
def Succeeds {α : Type} (x : Except Fault α) : Prop := ∃ a, x = .ok a

theorem exists_ok_of_isSome {α : Type} {x : Except Fault α} (h : x.toOption.isSome = true) :
    ∃ a, x = .ok a := by
  cases x with
  | ok a => exact ⟨a, rfl⟩
  | error fault => cases h

theorem exists_ok_of_map {α β : Type} {x : Except Fault α} {f : α → β} {b : β}
    (h : x.toOption.map f = some b) : ∃ a, x = .ok a ∧ f a = b := by
  cases x with
  | ok a => exact ⟨a, rfl, Option.some.inj h⟩
  | error fault => cases h

/-- The program returned, with success or a diagnostic. -/
def Returns {α : Type} (x : Except Fault α) : Prop :=
  (∃ a, x = .ok a) ∨ ∃ err, x = .error (.error err)

end MinCorehdr
