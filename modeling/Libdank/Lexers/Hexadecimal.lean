import Libdank.Lexers.Tokens

/-! The lexers of hexadecimal numbers without a prefix, `lex_u8_ashex` to `lex_u64_ashex`. -/
namespace Libdank.Lexers.Pointers
open Parse

section Unsigned
variable (bits val : ℕ) (start : Text)

def lexUintAshex : Outcome ℕ :=
  let numstart := parseWhitespace start
  let run := addRun isxdigit (safelyAddHex bits) 0 numstart
  if run.ret ≠ 0 then ⟨run.ret, start, val⟩
  else if run.buf.length = numstart.length then ⟨1, start, val⟩
  else run

end Unsigned

/-- `lex_u8_ashex` to `lex_u64_ashex`, after `lex_uint_typewrapper`. -/
def lexUAshex (w : Width) (buf : Text) (val : ℕ) : Outcome ℕ :=
  let lexed := lexUintAshex w.bits 0 buf
  if lexed.ret = 0 then ⟨0, lexed.buf, lexed.val % 2 ^ w.bits⟩ else ⟨lexed.ret, lexed.buf, val⟩

def hexDigits (buf : Text) : Text := (parseWhitespace buf).takeWhile isxdigit

def behindHex (buf : Text) : Text := (parseWhitespace buf).dropWhile isxdigit

section Runs
variable {bits : ℕ} {buf : Text}

theorem hexDigits_append (buf : Text) : parseWhitespace buf = hexDigits buf ++ behindHex buf :=
  List.takeWhile_append_dropWhile.symm

theorem addRun_hexDigits (wide : 1 ≤ bits ∧ bits ≤ 64) (some_ : hexDigits buf ≠ []) :
    Reads bits True (value 16 0 (hexDigits buf)) (behindHex buf)
      (Lexers.addRun isxdigit (safelyAddHex bits) 0 (parseWhitespace buf)) := by
  have all : ∀ c ∈ hexDigits buf, isxdigit c = true := fun c inside => List.mem_takeWhile_imp inside
  have stop : Stops isxdigit (behindHex buf) := stops_dropWhile isxdigit _
  rw [hexDigits_append]
  exact (addRun_reads (adds_hex wide) (by decide) (hexDigits buf) stop all (.inr some_)).congr (by simp)

theorem lexUintAshex_of_fits (wide : 1 ≤ bits ∧ bits ≤ 64) (val : ℕ) (some_ : hexDigits buf ≠ [])
    (fits : value 16 0 (hexDigits buf) < 2 ^ bits) :
    lexUintAshex bits val buf = ⟨0, behindHex buf, value 16 0 (hexDigits buf)⟩ := by
  have run := @addRun_agrees isxdigit _ (nonzero_hex bits) 0 (parseWhitespace buf)
  rw [(addRun_hexDigits wide some_).1 ⟨trivial, fits⟩] at run
  have shorter : (behindHex buf).length ≠ (parseWhitespace buf).length := by
    have := List.length_pos_iff.mpr some_
    rw [hexDigits_append, List.length_append]
    omega
  dsimp only at run
  simp only [lexUintAshex, run, ne_eq, not_true, if_false, if_neg shorter]

theorem lexUintAshex_of_misfit (wide : 1 ≤ bits ∧ bits ≤ 64) (val : ℕ)
    (misfit : ¬ (hexDigits buf ≠ [] ∧ value 16 0 (hexDigits buf) < 2 ^ bits)) :
    ∃ ret, ret ≠ 0 ∧ lexUintAshex bits val buf = ⟨ret, buf, val⟩ := by
  have run := @addRun_agrees isxdigit _ (nonzero_hex bits) 0 (parseWhitespace buf)
  by_cases none_ : hexDigits buf = []
  · have stop : Stops isxdigit (parseWhitespace buf) := by
      rw [hexDigits_append, none_, List.nil_append]
      exact stops_dropWhile isxdigit _
    rw [addRun_stop stop] at run
    dsimp only at run
    refine ⟨1, by decide, ?_⟩
    simp only [lexUintAshex, run, ne_eq, not_true, if_false, if_true]
  · obtain ⟨ret, error⟩ := (addRun_hexDigits wide none_).2 fun both => misfit ⟨none_, both.2⟩
    rw [error] at run
    obtain ⟨code, nonzero⟩ := run
    refine ⟨ret, nonzero, ?_⟩
    simp only [lexUintAshex, code, if_pos nonzero]

end Runs

/-- A nonempty run of digits whose number fits is stored and passed over, however many zeros lead
it; any other text is an error, with both variables as they were. -/
theorem lexUAshex_exact (w : Width) (buf : Text) (val : ℕ) :
    (hexDigits buf ≠ [] ∧ value 16 0 (hexDigits buf) < 2 ^ w.bits →
      lexUAshex w buf val = ⟨0, behindHex buf, value 16 0 (hexDigits buf)⟩) ∧
    (¬ (hexDigits buf ≠ [] ∧ value 16 0 (hexDigits buf) < 2 ^ w.bits) →
      (lexUAshex w buf val).ret ≠ 0 ∧ (lexUAshex w buf val).buf = buf ∧ (lexUAshex w buf val).val = val) := by
  constructor
  · rintro ⟨some_, fits⟩
    simp only [lexUAshex, lexUintAshex_of_fits w.wide 0 some_ fits, if_true, Nat.mod_eq_of_lt fits]
  · intro misfit
    obtain ⟨ret, nonzero, error⟩ := lexUintAshex_of_misfit w.wide 0 misfit
    simp only [lexUAshex, error, if_neg nonzero]
    exact ⟨nonzero, trivial, trivial⟩

theorem lexUAshex_exact_byte : lexUAshex .w8 " 00fF,".toList 7 = ⟨0, ",".toList, 255⟩ :=
  (lexUAshex_exact .w8 " 00fF,".toList 7).1 (by decide)

example : (lexUAshex .w8 "100".toList 7).val = 7 := by decide

end Libdank.Lexers.Pointers
