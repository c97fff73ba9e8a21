import Libdank.LineParser.Segments
import Libdank.Foundation.Buffers

/-! Texts of which nothing is delivered: whitespace and comments. A backslash at
the end of a comment joins the next line to it, and is used up by that; the
backslashes before it join further lines. -/
namespace Libdank.LineParser
open Buffers

inductive Mode where
  /-- Nothing but whitespace since the last line. -/
  | outside
  /-- A comment, which that many more newlines do not end. -/
  | comment (joins : ℕ)
  /-- A line that is no comment has begun. -/
  | line
deriving DecidableEq, Repr

def Mode.next : Mode → UInt8 → Mode
  | .outside, c => if isspace c then .outside else if c = hash then .comment 0 else .line
  | .comment joins, c =>
    if c = newline then if joins = 0 then .outside else .comment (joins - 1)
    else if c = backslash then .comment (joins + 1)
    else if isspace c then .comment joins
    else .comment 0
  | .line, _ => .line

def modeAfter (mode : Mode) (text : Bytes) : Mode := text.foldl Mode.next mode

/-- The text has only whitespace and comments. -/
def Barren (text : Bytes) : Prop := modeAfter .outside text ≠ .line

instance (text : Bytes) : Decidable (Barren text) := inferInstanceAs (Decidable (_ ≠ _))

theorem modeAfter_append (mode : Mode) (first rest : Bytes) :
    modeAfter mode (first ++ rest) = modeAfter (modeAfter mode first) rest := List.foldl_append

theorem modeAfter_cons (mode : Mode) (c : UInt8) (rest : Bytes) :
    modeAfter mode (c :: rest) = modeAfter (mode.next c) rest := rfl

theorem next_newline (joins : ℕ) :
    Mode.next (.comment joins) newline = if joins = 0 then .outside else .comment (joins - 1) := by
  rw [Mode.next, if_pos rfl]

theorem modeAfter_line (text : Bytes) : modeAfter .line text = .line := by
  induction text with
  | nil => rfl
  | cons c rest ih => exact ih

theorem modeAfter_trim (text : Bytes) : modeAfter .outside (trim text) = modeAfter .outside text := by
  induction text with
  | nil => rfl
  | cons c rest ih =>
    by_cases blank : isspace c = true
    · rw [trim_cons_space blank, ih, modeAfter_cons, Mode.next, if_pos blank]
    · rw [trim_of_head rest (by simpa using blank)]

theorem modeAfter_solid {c : UInt8} (solid : isspace c = false) (plain : c ≠ hash) (rest : Bytes) :
    modeAfter .outside (c :: rest) = .line := by
  rw [modeAfter_cons, Mode.next, if_neg (by simp [solid]), if_neg plain, modeAfter_line]

theorem modeAfter_comment (joins : ℕ) {text : Bytes} (clean : newline ∉ text) :
    ∃ more, modeAfter (.comment joins) text = .comment more := by
  induction text generalizing joins with
  | nil => exact ⟨joins, rfl⟩
  | cons c rest ih =>
    obtain ⟨other, clean⟩ : newline ≠ c ∧ newline ∉ rest := by simpa using clean
    rw [modeAfter_cons, Mode.next, if_neg (Ne.symm other)]
    split_ifs <;> exact ih _ clean

theorem modeAfter_hash {rest : Bytes} (clean : newline ∉ rest) :
    ∃ joins, modeAfter .outside (hash :: rest) = .comment joins := modeAfter_comment 0 clean

theorem modeAfter_head {text : Bytes} (starts : text.head? = some hash) (clean : newline ∉ text) :
    ∃ joins, modeAfter .outside text = .comment joins := by
  cases text with
  | nil => simp at starts
  | cons c rest =>
    obtain rfl : c = hash := by simpa using starts
    exact modeAfter_hash fun mem => clean (.tail _ mem)

theorem slice_succ (buf : Bytes) (base n : ℕ) (inside : base + n < buf.length) :
    slice buf base (n + 1) = slice buf base n ++ [buf.getD (base + n) 0] := by
  have cell : (buf.drop base)[n]? = some (buf.getD (base + n) 0) := by
    rw [List.getElem?_drop, List.getD_eq_getElem?_getD, List.getElem?_eq_getElem inside, Option.getD_some]
  obtain ⟨lt, same⟩ := List.getElem?_eq_some_iff.mp cell
  rw [slice, slice, List.take_succ_eq_append_getElem lt, same]

/-- The walk back from the end of a comment finds a backslash where the newline does
not end the comment, and a space in its place uses it up. -/
theorem continuation_comment (buf : Bytes) (base n : ℕ) (inside : base + n ≤ buf.length)
    (starts : (slice buf base n).head? = some hash) (clean : newline ∉ slice buf base n) :
    (continuation buf base n = none ∧ modeAfter .outside (slice buf base n) = .comment 0) ∨
    ∃ i joins, i < n ∧ continuation buf base n = some (base + i) ∧
      modeAfter .outside (slice buf base n) = .comment (joins + 1) ∧
      modeAfter .outside ((slice buf base n).set i space) = .comment joins := by
  induction n with
  | zero => simp at starts
  | succ n ih =>
    have len : (slice buf base n).length = n := length_slice _ _ _ (by omega)
    rw [slice_succ buf base n (by omega)] at starts clean ⊢
    rw [continuation]
    generalize buf.getD (base + n) 0 = c at starts clean ⊢
    obtain ⟨clean, other⟩ : newline ∉ slice buf base n ∧ c ≠ newline := by
      simpa [eq_comm] using clean
    simp only [modeAfter_append, modeAfter_cons]
    by_cases first : n = 0
    · subst first
      obtain rfl : c = hash := by simpa using starts
      exact .inl ⟨rfl, rfl⟩
    · have starts : (slice buf base n).head? = some hash := by
        cases front : slice buf base n with
        | nil => simp [front] at len; omega
        | cons d rest => simpa [front] using starts
      obtain ⟨joins, mode⟩ := modeAfter_head starts clean
      by_cases joined : c = backslash
      · subst joined
        refine .inr ⟨n, joins, Nat.lt_succ_self n, rfl, by rw [mode]; rfl, ?_⟩
        have last : (slice buf base n ++ [backslash]).set n space = slice buf base n ++ [space] := by
          rw [List.set_append_right _ _ len.le, len, Nat.sub_self]
          rfl
        rw [last, modeAfter_append, mode]
        rfl
      · by_cases blank : isspace c = true
        · have stays (k : ℕ) : modeAfter (Mode.next (.comment k) c) [] = .comment k := by
            rw [Mode.next, if_neg other, if_neg joined, if_pos blank]
            rfl
          simp only [if_neg joined, if_pos blank]
          rcases ih (by omega) starts clean with ⟨none_, done_⟩ | ⟨i, k, lt, some_, before, after⟩
          · exact .inl ⟨none_, by rw [done_, stays]⟩
          · refine .inr ⟨i, k, by omega, some_, by rw [before, stays], ?_⟩
            rw [List.set_append_left _ _ (by omega), modeAfter_append, after, modeAfter_cons, stays]
        · refine .inl ⟨by simp only [if_neg joined, if_neg blank], ?_⟩
          rw [mode, Mode.next, if_neg other, if_neg joined, if_neg blank]
          rfl

theorem continuation_backslash {buf : Bytes} {base n tmp : ℕ}
    (found : continuation buf base n = some tmp) :
    ∃ i < n, tmp = base + i ∧ buf.getD (base + i) 0 = backslash := by
  induction n with
  | zero => simp [continuation] at found
  | succ n ih =>
    simp only [continuation] at found
    split_ifs at found with joined
    · exact ⟨n, Nat.lt_succ_self n, (Option.some.inj found).symm, joined⟩
    · obtain ⟨i, lt, same⟩ := ih found
      exact ⟨i, by omega, same⟩

end Libdank.LineParser
