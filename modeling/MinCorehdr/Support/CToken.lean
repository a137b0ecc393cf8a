import Mathlib.Data.List.Basic

/-!
# Tokens of C declarations

Words (identifiers, keywords and numbers), punctuation, and the text between
braces as one token.  The lexer reads a text from left to right, so the tokens of
a text are those of its parts wherever no word runs across the seam.
-/

namespace Support.CToken

inductive Token
  | word (text : List Char)
  | punct (c : Char)
  | braces (text : List Char)
  deriving DecidableEq, Repr

def isWordChar (c : Char) : Bool := c.isAlphanum || c == '_'

def isBlank (c : Char) : Bool := c == ' ' || c == '\n' || c == '\t'

def keywords : List (List Char) :=
  ["auto", "break", "case", "char", "const", "continue", "default", "do", "double", "else",
    "enum", "extern", "float", "for", "goto", "if", "inline", "int", "long", "register",
    "restrict", "return", "short", "signed", "sizeof", "static", "struct", "switch", "typedef",
    "union", "unsigned", "void", "volatile", "while", "_Bool", "_Complex",
    "_Imaginary"].map String.toList

def isIdentifier (text : List Char) : Bool :=
  text.all isWordChar && text.head?.any (fun c => !c.isDigit) && !keywords.contains text

/-- A decimal number; a leading zero would make it octal. -/
def number (text : List Char) : Option Nat :=
  if text = [] ∨ text.all Char.isDigit = false ∨ text.head? = some '0' ∧ text ≠ ['0'] then none
  else some (Nat.ofDigitChars 10 text 0)

/-- The tokens read so far, the word being read, and inside braces their depth and
their text. -/
structure Lexer where
  tokens : List Token
  word : List Char
  depth : Nat
  body : List Char
  deriving DecidableEq, Repr

namespace Lexer

def start : Lexer := ⟨[], [], 0, []⟩

def flush (s : Lexer) : Lexer :=
  if s.word = [] then s else { s with tokens := s.tokens ++ [.word s.word], word := [] }

/-- One character outside braces. -/
def stepOutside (s : Lexer) (c : Char) : Lexer :=
  if isWordChar c then { s with word := s.word ++ [c] }
  else if c = '\x7b' then { s.flush with depth := 1 }
  else if isBlank c then s.flush
  else { s.flush with tokens := s.flush.tokens ++ [.punct c] }

/-- One character inside braces. -/
def stepInside (s : Lexer) (c : Char) : Lexer :=
  if c = '\x7b' then { s with depth := s.depth + 1, body := s.body ++ [c] }
  else if c = '\x7d' then
    if s.depth = 1 then { s with tokens := s.tokens ++ [.braces s.body], depth := 0, body := [] }
    else { s with depth := s.depth - 1, body := s.body ++ [c] }
  else { s with body := s.body ++ [c] }

def step (s : Lexer) (c : Char) : Lexer :=
  if s.depth = 0 then s.stepOutside c else s.stepInside c

def scan (s : Lexer) (text : List Char) : Lexer := text.foldl step s

/-- The same state with tokens in front. -/
def after (front : List Token) (s : Lexer) : Lexer := { s with tokens := front ++ s.tokens }

theorem scan_append (s : Lexer) (a b : List Char) : s.scan (a ++ b) = (s.scan a).scan b :=
  List.foldl_append

theorem scan_cons (s : Lexer) (c : Char) (text : List Char) :
    s.scan (c :: text) = (s.step c).scan text := rfl

theorem flush_after (front : List Token) (s : Lexer) :
    (after front s).flush = after front s.flush := by
  unfold flush after
  split <;> simp

theorem stepOutside_after (front : List Token) (s : Lexer) (c : Char) :
    (after front s).stepOutside c = after front (s.stepOutside c) := by
  have hflush := flush_after front s
  unfold stepOutside
  rw [hflush]
  split_ifs <;> simp [after]

theorem stepInside_after (front : List Token) (s : Lexer) (c : Char) :
    (after front s).stepInside c = after front (s.stepInside c) := by
  have hdepth : (after front s).depth = s.depth := rfl
  unfold stepInside
  rw [hdepth]
  split_ifs <;> simp [after]

theorem step_after (front : List Token) (s : Lexer) (c : Char) :
    (after front s).step c = after front (s.step c) := by
  have hdepth : (after front s).depth = s.depth := rfl
  unfold step
  rw [stepOutside_after, stepInside_after, hdepth]
  split <;> rfl

theorem scan_after (front : List Token) (s : Lexer) (text : List Char) :
    (after front s).scan text = after front (s.scan text) := by
  induction text generalizing s with
  | nil => rfl
  | cons c text ih => rw [scan_cons, scan_cons, step_after, ih]

@[simp] theorem flush_depth (s : Lexer) : s.flush.depth = s.depth := by
  unfold flush
  split <;> rfl

@[simp] theorem flush_flush (s : Lexer) : s.flush.flush = s.flush := by
  by_cases hword : s.word = []
  · simp [flush, hword]
  · simp [flush, hword]

/-- A character that is no part of a word ends the word before it. -/
theorem step_flush {s : Lexer} {c : Char} (hdepth : s.depth = 0) (hc : isWordChar c = false) :
    s.flush.step c = s.step c := by
  simp [step, stepOutside, hdepth, hc]

end Lexer

open Lexer

def lex (text : List Char) : List Token := (start.scan text).flush.tokens

/-- The text is read to its end outside braces, as these tokens. -/
def Lexes (text : List Char) (tokens : List Token) : Prop :=
  (start.scan text).flush = after tokens start

theorem Lexes.lex_eq {text : List Char} {tokens : List Token} (h : Lexes text tokens) :
    lex text = tokens := by
  unfold lex
  rw [h]
  simp [after, start]

theorem Lexes.nil : Lexes [] [] := rfl

/-- Texts follow each other when no word runs across the seam. -/
theorem Lexes.append {a b : List Char} {ts us : List Token} (ha : Lexes a ts) (hb : Lexes b us)
    (hseam : ∀ c ∈ b.head?, isWordChar c = false) : Lexes (a ++ b) (ts ++ us) := by
  unfold Lexes at ha hb ⊢
  have hdepth : (start.scan a).depth = 0 := by
    have hflush := flush_depth (start.scan a)
    rw [ha] at hflush
    exact hflush.symm
  have hscan : ((start.scan a).scan b).flush = ((start.scan a).flush.scan b).flush := by
    cases b with
    | nil => exact (flush_flush _).symm
    | cons c b => rw [scan_cons, scan_cons, step_flush hdepth (hseam c rfl)]
  rw [scan_append, hscan, ha, scan_after, flush_after, hb]
  simp [after]

theorem Lexes.blank {text : List Char} {tokens : List Token} (h : Lexes text tokens) :
    Lexes (' ' :: text) tokens := h

theorem Lexes.punct {c : Char} {text : List Char} {tokens : List Token}
    (hc : start.step c = after [.punct c] start) (h : Lexes text tokens) :
    Lexes (c :: text) (.punct c :: tokens) := by
  unfold Lexes at h ⊢
  rw [scan_cons, hc, scan_after, flush_after, h]
  simp [after]

theorem scan_word {w : List Char} (h : w.all isWordChar = true) :
    ∀ front, Lexer.scan ⟨[], front, 0, []⟩ w = ⟨[], front ++ w, 0, []⟩ := by
  induction w with
  | nil => simp [scan]
  | cons c w ih =>
      intro front
      obtain ⟨hc, hw⟩ : isWordChar c = true ∧ w.all isWordChar = true := by
        simpa using h
      have hstep : Lexer.step ⟨[], front, 0, []⟩ c = ⟨[], front ++ [c], 0, []⟩ := by
        simp [step, stepOutside, hc]
      rw [scan_cons, hstep, ih hw]
      simp

theorem Lexes.word {w : List Char} (hne : w ≠ []) (h : w.all isWordChar = true) :
    Lexes w [.word w] := by
  have hscan := scan_word h []
  unfold Lexes
  change (Lexer.scan ⟨[], [], 0, []⟩ w).flush = _
  rw [hscan]
  simp [flush, after, start, hne]

/-! ## Braces -/

/-- Inside braces the text is read without leaving them. -/
def Balanced (text : List Char) : Prop :=
  ∀ ts w d body, Lexer.scan ⟨ts, w, d + 1, body⟩ text = ⟨ts, w, d + 1, body ++ text⟩

theorem Balanced.nil : Balanced [] := by
  intro ts w d body
  simp [scan]

theorem Balanced.append {a b : List Char} (ha : Balanced a) (hb : Balanced b) :
    Balanced (a ++ b) := by
  intro ts w d body
  rw [scan_append, ha, hb, List.append_assoc]

/-- A text without braces. -/
theorem Balanced.of_plain {text : List Char} (h : ∀ c ∈ text, c ≠ '\x7b' ∧ c ≠ '\x7d') :
    Balanced text := by
  induction text with
  | nil => exact Balanced.nil
  | cons c text ih =>
      intro ts w d body
      obtain ⟨hopen, hclose⟩ := h c List.mem_cons_self
      have hstep : Lexer.step ⟨ts, w, d + 1, body⟩ c = ⟨ts, w, d + 1, body ++ [c]⟩ := by
        simp [step, stepInside, hopen, hclose]
      rw [scan_cons, hstep, ih (fun c hc => h c (List.mem_cons_of_mem _ hc)), List.append_assoc]
      rfl

theorem Balanced.cons {c : Char} {text : List Char} (hopen : c ≠ '\x7b') (hclose : c ≠ '\x7d')
    (h : Balanced text) : Balanced (c :: text) := by
  have hone : Balanced [c] := Balanced.of_plain fun d hd => by
    obtain rfl := List.mem_singleton.mp hd
    exact ⟨hopen, hclose⟩
  exact hone.append h

theorem Balanced.wrap {text : List Char} (h : Balanced text) :
    Balanced ('\x7b' :: text ++ ['\x7d']) := by
  intro ts w d body
  have hopen : Lexer.step ⟨ts, w, d + 1, body⟩ '\x7b' = ⟨ts, w, d + 1 + 1, body ++ ['\x7b']⟩ := rfl
  rw [List.cons_append, scan_cons, hopen, scan_append, h]
  simp [scan, step, stepInside]

theorem Lexes.braces {body text : List Char} {tokens : List Token} (hbody : Balanced body)
    (h : Lexes text tokens) :
    Lexes ('\x7b' :: body ++ '\x7d' :: text) (.braces body :: tokens) := by
  unfold Lexes at h ⊢
  have hopen : start.step '\x7b' = ⟨[], [], 0 + 1, []⟩ := rfl
  rw [List.cons_append, scan_cons, hopen, scan_append, hbody, scan_cons]
  have hclose : Lexer.step ⟨[], [], 0 + 1, [] ++ body⟩ '\x7d' = after [.braces body] start := by
    simp [step, stepInside, after, start]
  rw [hclose, scan_after, flush_after, h]
  simp [after]

end Support.CToken
