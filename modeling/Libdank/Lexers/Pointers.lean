import Libdank.Lexers

/-! The same lexers with the two variables their callers pass, which the loops
write to as they go, and the unsigned and signed entry points over them. -/
namespace Libdank.Lexers.Pointers
open Parse

@[ext] structure Outcome (α : Type) where
  ret : ℤ
  buf : Text
  val : α
deriving DecidableEq

/-- A loop over digits. Where it fails the hexadecimal one has already moved past
the digit; every caller resets the pointer. -/
def addRun (isdig : Char → Bool) (add : ℕ → Char → Except ℤ ℕ) (val : ℕ) : Text → Outcome ℕ
  | [] => ⟨0, [], val⟩
  | c :: rest =>
    if isdig c then
      match add val c with
      | .ok val => addRun isdig add val rest
      | .error ret => ⟨ret, c :: rest, val⟩
    else ⟨0, c :: rest, val⟩

section Unsigned

variable (bits val : ℕ) (start : Text)

def checkZero (buf : Text) : Outcome ℕ :=
  match buf.head? with
  | some c => if ispunct c || isspace c then ⟨0, buf, 0⟩ else ⟨-1, start, val⟩
  | none => ⟨0, buf, 0⟩

def restore (run : Outcome ℕ) : Outcome ℕ := if run.ret ≠ 0 then ⟨-1, start, run.val⟩ else run

def lexUint0helper : Outcome ℕ :=
  match start.tail with
  | [] => checkZero val start []
  | c :: rest =>
    if c = 'x' ∨ c = 'X' then
      if rest.head? = some '0' then checkZero val start rest.tail
      else restore start (addRun isxdigit (safelyAddHex bits) val rest)
    else if isdigit c then
      if c = '0' then checkZero val start rest
      else restore start (addRun isdigit (safelyAddOct bits) val (c :: rest))
    else checkZero val start (c :: rest)

def lexUint : Outcome ℕ :=
  let numstart := parseWhitespace start
  if numstart.head? = some '0' then
    let run := lexUint0helper bits val numstart
    if run.ret ≠ 0 then ⟨1, start, run.val⟩ else run
  else
    let run := addRun isdigit (safelyAddDec bits) 0 numstart
    if run.ret ≠ 0 then ⟨run.ret, start, val⟩
    else if run.buf.length = numstart.length then ⟨1, start, val⟩
    else run

end Unsigned

inductive Width
  | w8
  | w16
  | w32
  | w64
deriving DecidableEq

def Width.bits : Width → ℕ
  | .w8 => 8
  | .w16 => 16
  | .w32 => 32
  | .w64 => 64

def lexU (w : Width) (buf : Text) (val : ℕ) : Outcome ℕ :=
  let lexed := lexUint w.bits 0 buf
  if lexed.ret = 0 then ⟨0, lexed.buf, lexed.val % 2 ^ w.bits⟩ else ⟨lexed.ret, lexed.buf, val⟩

/-- `uv` is what the local of that name happens to hold. -/
def lexSint (bits : ℕ) (uv : UInt64) (buf : Text) (val : ℤ) : Outcome ℤ :=
  let buf := parseWhitespace buf
  let neg := buf.head? = some '-'
  let buf := if neg then buf.tail else buf
  let lexed := lexUint (bits - 1) uv.toNat buf
  if lexed.ret ≠ 0 then ⟨-1, lexed.buf, val⟩
  else
    let val := (lexed.val : ℤ).bmod (2 ^ 64)
    ⟨0, lexed.buf, if neg then (-val).bmod (2 ^ 64) else val⟩

def lexS (w : Width) (uv : UInt64) (buf : Text) (val : ℤ) : Outcome ℤ :=
  let lexed := lexSint w.bits uv buf 0
  if lexed.ret = 0 then ⟨0, lexed.buf, lexed.val.bmod (2 ^ w.bits)⟩ else ⟨lexed.ret, lexed.buf, val⟩

section Agreement

/-- The outcome is the result `lexed`, with the pointer back at `start` on failure. -/
def Agrees (start : Text) (lexed : Except ℤ (ℕ × Text)) (r : Outcome ℕ) : Prop :=
  match lexed with
  | .ok (v, rest) => r = ⟨0, rest, v⟩
  | .error _ => r.ret ≠ 0 ∧ r.buf = start

theorem agrees_fail {start : Text} {ret code : ℤ} (nonzero : code ≠ 0) (val : ℕ) :
    Agrees start (.error ret) ⟨code, start, val⟩ := ⟨nonzero, rfl⟩

def Nonzero (add : ℕ → Char → Except ℤ ℕ) : Prop := ∀ v c ret, add v c = .error ret → ret ≠ 0

theorem nonzero_safelyAdd {base bits v addend : ℕ} {ret : ℤ}
    (h : safelyAdd base bits v addend = .error ret) : ret ≠ 0 := by
  rw [safelyAdd] at h
  split_ifs at h with code
  exact Except.error.inj h ▸ code

theorem nonzero_oct (bits : ℕ) : Nonzero (safelyAddOct bits) := by
  intro v c ret h
  simp only [safelyAddOct] at h
  split_ifs at h
  · rw [← Except.error.inj h]
    decide
  · exact nonzero_safelyAdd h

theorem nonzero_dec (bits : ℕ) : Nonzero (safelyAddDec bits) := fun _ _ _ h => nonzero_safelyAdd h

theorem nonzero_hex (bits : ℕ) : Nonzero (safelyAddHex bits) := fun _ _ _ h => nonzero_safelyAdd h

theorem addRun_agrees {isdig : Char → Bool} {add : ℕ → Char → Except ℤ ℕ} (codes : Nonzero add)
    (val : ℕ) (buf : Text) :
    match Lexers.addRun isdig add val buf with
    | .ok (v, rest) => addRun isdig add val buf = ⟨0, rest, v⟩
    | .error ret => (addRun isdig add val buf).ret = ret ∧ ret ≠ 0 := by
  induction buf generalizing val with
  | nil => rfl
  | cons c rest ih =>
    rw [Lexers.addRun, addRun]
    by_cases digit : isdig c = true
    · rw [if_pos digit, if_pos digit]
      cases sum : add val c with
      | ok v => exact ih v
      | error ret => exact ⟨rfl, codes _ _ _ sum⟩
    · rw [if_neg digit, if_neg digit]

theorem checkZero_agrees (val : ℕ) (start buf : Text) :
    Agrees start (lexZero buf) (checkZero val start buf) := by
  unfold lexZero checkZero
  cases buf.head? with
  | none => exact rfl
  | some c =>
    dsimp only
    split_ifs
    · exact rfl
    · exact agrees_fail (by decide) val

theorem restore_agrees {isdig : Char → Bool} {add : ℕ → Char → Except ℤ ℕ} (codes : Nonzero add)
    (val : ℕ) (start buf : Text) :
    Agrees start (Lexers.addRun isdig add val buf) (restore start (addRun isdig add val buf)) := by
  have run := @addRun_agrees isdig add codes val buf
  cases lexed : Lexers.addRun isdig add val buf with
  | ok q =>
    rw [lexed] at run
    simp only [restore, run]
    exact rfl
  | error ret =>
    rw [lexed] at run
    obtain ⟨code, nonzero⟩ := run
    rw [restore, if_pos (code ▸ nonzero)]
    exact agrees_fail (by decide) _

theorem lexUint0helper_agrees (bits val : ℕ) (start : Text) :
    Agrees start (Lexers.lexUint0helper bits val start.tail) (lexUint0helper bits val start) := by
  unfold lexUint0helper
  cases start.tail with
  | nil => exact checkZero_agrees val start []
  | cons c rest =>
    rw [Lexers.lexUint0helper]
    dsimp only
    split_ifs
    · exact checkZero_agrees val start _
    · exact restore_agrees (nonzero_hex bits) val start _
    · exact checkZero_agrees val start _
    · exact restore_agrees (nonzero_oct bits) val start _
    · exact checkZero_agrees val start _

theorem lexUint_agrees (bits val : ℕ) (start : Text) :
    Agrees start (Lexers.lexUint bits val start) (lexUint bits val start) := by
  unfold lexUint Lexers.lexUint
  dsimp only
  by_cases zero : (parseWhitespace start).head? = some '0'
  · rw [if_pos zero, if_pos zero]
    have helper := lexUint0helper_agrees bits val (parseWhitespace start)
    cases lexed : Lexers.lexUint0helper bits val (parseWhitespace start).tail with
    | ok q =>
      rw [lexed] at helper
      have same : lexUint0helper bits val (parseWhitespace start) = ⟨0, q.2, q.1⟩ := helper
      rw [same, if_neg (by simp)]
      exact rfl
    | error ret =>
      rw [lexed] at helper
      rw [if_pos helper.1]
      exact agrees_fail (by decide) _
  · rw [if_neg zero, if_neg zero]
    have run := @addRun_agrees isdigit _ (nonzero_dec bits) 0 (parseWhitespace start)
    cases lexed : Lexers.addRun isdigit (safelyAddDec bits) 0 (parseWhitespace start) with
    | ok q =>
      rw [lexed] at run
      dsimp only at run ⊢
      rw [run]
      simp only [ne_eq, not_true_eq_false, if_false]
      by_cases none_ : q.2.length = (parseWhitespace start).length
      · rw [if_pos none_, if_pos none_]
        exact agrees_fail (by decide) _
      · rw [if_neg none_, if_neg none_]
        exact rfl
    | error ret =>
      rw [lexed] at run
      obtain ⟨code, nonzero⟩ := run
      rw [if_pos (code ▸ nonzero)]
      exact agrees_fail (code ▸ nonzero) _

end Agreement

end Libdank.Lexers.Pointers
