import Libdank.Lexers.Tokens

/-! The signed lexers. They start from a local that nothing has set, and move the
caller's pointer before they know whether a number follows. -/
namespace Libdank.Lexers.Pointers
open Parse

theorem Width.wide_signed (w : Width) : 1 ≤ w.bits - 1 ∧ w.bits - 1 ≤ 64 := by
  cases w <;> decide

section Results

variable {w : Width} {uv : UInt64} {buf : Text} {val : ℤ}

def afterSign (buf : Text) : Text :=
  let text := parseWhitespace buf
  if text.head? = some '-' then text.tail else text

def tokenStart (buf : Text) : Text := parseWhitespace (afterSign buf)

def signed (buf : Text) (v : ℕ) : ℤ := if (parseWhitespace buf).head? = some '-' then -(v : ℤ) else v

theorem lexS_eq (w : Width) (uv : UInt64) (buf : Text) (val : ℤ) :
    lexS w uv buf val =
      let lexed := lexUint (w.bits - 1) uv.toNat (afterSign buf)
      if lexed.ret = 0 then ⟨0, lexed.buf, (signed buf lexed.val).bmod (2 ^ w.bits)⟩
      else ⟨-1, lexed.buf, val⟩ := by
  have divides : 2 ^ w.bits ∣ 2 ^ 64 := pow_dvd_pow 2 w.wide.2
  unfold lexS lexSint afterSign signed
  dsimp only
  by_cases code : (lexUint (w.bits - 1) uv.toNat
      (if (parseWhitespace buf).head? = some '-' then (parseWhitespace buf).tail
        else parseWhitespace buf)).ret = 0
  · rw [if_neg (not_not.mpr code), if_pos code, if_pos rfl]
    split_ifs
    · rw [Int.bmod_neg_bmod, Int.bmod_bmod_of_dvd divides]
    · rw [Int.bmod_bmod_of_dvd divides]
  · rw [if_pos code, if_neg code, if_neg (by decide : ¬ (-1 : ℤ) = 0)]

theorem lexS_of_ok {rest : Text} {v : ℕ}
    (ok : Lexers.lexUint (w.bits - 1) uv.toNat (afterSign buf) = .ok (v, rest)) :
    lexS w uv buf val = ⟨0, rest, (signed buf v).bmod (2 ^ w.bits)⟩ := by
  have agrees := lexUint_agrees (w.bits - 1) uv.toNat (afterSign buf)
  rw [ok] at agrees
  have same : lexUint (w.bits - 1) uv.toNat (afterSign buf) = ⟨0, rest, v⟩ := agrees
  simp only [lexS_eq, same, if_true]

theorem lexS_of_error {ret : ℤ}
    (error : Lexers.lexUint (w.bits - 1) uv.toNat (afterSign buf) = .error ret) :
    lexS w uv buf val = ⟨-1, afterSign buf, val⟩ := by
  have agrees := lexUint_agrees (w.bits - 1) uv.toNat (afterSign buf)
  rw [error] at agrees
  obtain ⟨code, back⟩ := agrees
  simp only [lexS_eq, if_neg code, back]

theorem lexSint_of_ok {bits uv n : ℕ} {rest : Text}
    (ok : Lexers.lexUint (bits - 1) uv (afterSign buf) = .ok (n, rest)) :
    Lexers.lexSint uv bits buf = (.ok (signed buf n), rest) := by
  simp only [afterSign] at ok
  simp only [Lexers.lexSint, ok, signed]

theorem lexSint_of_error {bits uv : ℕ} {ret : ℤ}
    (error : Lexers.lexUint (bits - 1) uv (afterSign buf) = .error ret) :
    Lexers.lexSint uv bits buf = (.error (-1), afterSign buf) := by
  simp only [afterSign] at error
  simp only [Lexers.lexSint, error, afterSign]

theorem lexS32_agrees (uv : UInt64) (buf : Text) (val : ℤ) :
    let lexed := lexS32 uv.toNat buf
    lexS .w32 uv buf val =
      ⟨if lexed.1.isOk then 0 else -1, lexed.2, lexed.1.toOption.getD val⟩ := by
  intro lexed
  cases run : Lexers.lexUint (32 - 1) uv.toNat (afterSign buf) with
  | ok q =>
    have same : lexed = (.ok ((signed buf q.1).bmod (2 ^ 32)), q.2) := by
      simp only [lexed, lexS32, lexSint_of_ok run]
      rfl
    rw [same]
    exact lexS_of_ok run
  | error ret =>
    have same : lexed = (.error (-1), afterSign buf) := by
      simp only [lexed, lexS32, lexSint_of_error run]
      rfl
    rw [same]
    exact lexS_of_error run

theorem bmod_signed {v : ℕ} (fits : v < 2 ^ (w.bits - 1)) :
    (signed buf v).bmod (2 ^ w.bits) = signed buf v := by
  have halves : 2 ^ w.bits = 2 * 2 ^ (w.bits - 1) := by
    rw [← pow_succ', Nat.sub_add_cancel w.wide.1]
  apply Int.bmod_eq_of_le
  · unfold signed
    split_ifs <;> omega
  · unfold signed
    split_ifs <;> omega

end Results

section Leftover

/-- A numeral behind a prefix, or that of no hexadecimal digits, and its magnitude. -/
inductive Prefixed : Text → ℕ → Prop
  | hex {x digits rest} (isx : IsX x) (all : ∀ c ∈ digits, isxdigit c = true)
      (lead : digits.head? ≠ some '0') (stop : Stops isxdigit rest) :
      Prefixed ('0' :: x :: (digits ++ rest)) (value 16 0 digits)
  | octal {digits rest} (some_ : digits ≠ []) (all : ∀ c ∈ digits, octal c = true)
      (lead : digits.head? ≠ some '0') (stop : Stops isdigit rest) :
      Prefixed ('0' :: (digits ++ rest)) (value 8 0 digits)

/-- The same outcome for all contents of the local, and on success the numeral of
the text with its sign. -/
structure IgnoresLeftover (w : Width) (buf : Text) : Prop where
  same : ∀ uv uv' val, lexS w uv buf val = lexS w uv' buf val
  magnitude : ∀ uv val, (lexS w uv buf val).ret = 0 →
    ∃ v rest, Token (tokenStart buf) v rest ∧ lexS w uv buf val = ⟨0, rest, signed buf v⟩

/-- Nothing but the numerals behind a prefix looks at the result variable. -/
theorem lexUint_steady {bits : ℕ} {buf text : Text} (wide : 1 ≤ bits ∧ bits ≤ 64)
    (at_ : parseWhitespace buf = text) (plain : ¬ ∃ v, Prefixed text v ∧ v < 2 ^ bits) :
    (∃ v rest, Token text v rest ∧ v < 2 ^ bits ∧
        ∀ val, Lexers.lexUint bits val buf = .ok (v, rest)) ∨
      ∀ val, ∃ ret, Lexers.lexUint bits val buf = .error ret := by
  cases shape text with
  | @decimal digits rest some_ all lead stop =>
    have reads : ∀ val, Reads bits True (value 10 0 digits) rest (Lexers.lexUint bits val buf) :=
      fun val => lexUint_decimal wide at_ some_ all lead stop
    by_cases fits : value 10 0 digits < 2 ^ bits
    · exact .inl ⟨_, _, .decimal some_ all lead stop, fits, fun val => (reads val).1 ⟨trivial, fits⟩⟩
    · exact .inr fun val => (reads val).2 fun h => fits h.2
  | @zero _ rest form =>
    have reads : ∀ val, Reads bits (Ends rest) 0 rest (Lexers.lexUint bits val buf) :=
      fun val => lexUint_zeroForm (at_ ▸ form)
    by_cases end_ : Ends rest
    · exact .inl ⟨0, rest, token_of_zeroForm form end_, Nat.two_pow_pos _,
        fun val => (reads val).1 ⟨end_, Nat.two_pow_pos _⟩⟩
    · exact .inr fun val => (reads val).2 fun h => end_ h.1
  | @hex x digits rest isx all lead stop =>
    have large : 2 ^ bits ≤ value 16 0 digits := by
      by_contra fits
      exact plain ⟨_, .hex isx all lead stop, by omega⟩
    have some_ : digits ≠ [] := by
      rintro rfl
      exact absurd large (not_le.mpr (Nat.two_pow_pos _))
    refine .inr fun val => (lexUint_hex wide isx at_ some_ all lead stop).2 fun h => ?_
    exact absurd h.2 (not_lt.mpr (large.trans (value_mono (Nat.zero_le val) digits)))
  | @octal digits rest some_ all lead stop =>
    refine .inr fun val => (lexUint_octal wide at_ some_ all lead stop).2 fun h => ?_
    have small := lt_of_le_of_lt (value_mono (Nat.zero_le val) digits) h.2
    exact plain ⟨_, .octal some_ h.1 lead stop, small⟩
  | other other => exact .inr fun val => lexUint_none (at_ ▸ other)

theorem leftover_of_prefixed {w : Width} {buf text : Text} {v : ℕ} (form : Prefixed text v)
    (at_ : tokenStart buf = text) (fits : v < 2 ^ (w.bits - 1)) :
    ∃ uv uv' : UInt64, lexS w uv buf 0 ≠ lexS w uv' buf 0 := by
  -- A run from the largest content never fits, one from 0 does.
  have apart : ∀ {good : Prop} {base : ℕ} {digits rest : Text}, 0 < base → good →
      value base 0 digits < 2 ^ (w.bits - 1) →
      (∀ val, Reads (w.bits - 1) good (value base val digits) rest
        (Lexers.lexUint (w.bits - 1) val (afterSign buf))) →
      lexS w 0 buf 0 ≠ lexS w (-1) buf 0 := by
    intro good base digits rest pos good_ small reads same
    have most : 2 ^ (w.bits - 1) ≤ (-1 : UInt64).toNat := by cases w <;> decide
    have large := le_trans most (le_value pos (-1 : UInt64).toNat digits)
    have accepted := (reads (0 : UInt64).toNat).1 ⟨good_, by rwa [UInt64.toNat_zero]⟩
    obtain ⟨ret, error⟩ := (reads (-1 : UInt64).toNat).2 fun h => absurd h.2 (not_lt.mpr large)
    rw [lexS_of_ok accepted, lexS_of_error error, Outcome.mk.injEq] at same
    exact absurd same.1 (by decide)
  cases form with
  | @hex x digits rest isx all lead stop =>
    cases digits with
    | nil =>
      refine ⟨0, 1, fun same => ?_⟩
      have stored : ∀ uv : UInt64, lexS w uv buf 0 = ⟨0, rest, (signed buf uv.toNat).bmod (2 ^ w.bits)⟩ :=
        fun uv => lexS_of_ok (lexUint_bare isx at_ stop)
      have one : 1 < 2 ^ (w.bits - 1) := by cases w <;> decide
      rw [stored, stored, Outcome.mk.injEq] at same
      have values := same.2.2
      rw [UInt64.toNat_zero, UInt64.toNat_one, bmod_signed (Nat.two_pow_pos _), bmod_signed one] at values
      unfold signed at values
      split_ifs at values <;> exact absurd values (by decide)
    | cons c digits =>
      exact ⟨0, -1, apart (by decide) trivial fits
        fun val => lexUint_hex w.wide_signed isx at_ (by simp) all lead stop⟩
  | @octal digits rest some_ all lead stop =>
    exact ⟨0, -1, apart (by decide) all fits
      fun val => lexUint_octal w.wide_signed at_ some_ (fun c hc => isdigit_of_octal (all c hc))
          lead stop⟩

theorem lexS_leftover_iff (w : Width) (buf : Text) :
    IgnoresLeftover w buf ↔ ¬ ∃ v, Prefixed (tokenStart buf) v ∧ v < 2 ^ (w.bits - 1) := by
  constructor
  · rintro ignores ⟨v, form, fits⟩
    obtain ⟨uv, uv', differ⟩ := leftover_of_prefixed form rfl fits
    exact differ (ignores.same uv uv' 0)
  · intro plain
    rcases lexUint_steady w.wide_signed rfl plain with ⟨v, rest, token, fits, ok⟩ | error
    · have stored : ∀ uv val, lexS w uv buf val = ⟨0, rest, signed buf v⟩ := fun uv val => by
        rw [lexS_of_ok (ok uv.toNat), bmod_signed fits]
      exact ⟨fun uv uv' val => (stored uv val).trans (stored uv' val).symm,
        fun uv val _ => ⟨v, rest, token, stored uv val⟩⟩
    · have failed : ∀ uv val, lexS w uv buf val = ⟨-1, afterSign buf, val⟩ := fun uv val =>
        lexS_of_error (error uv.toNat).choose_spec
      refine ⟨fun uv uv' val => (failed uv val).trans (failed uv' val).symm, fun uv val success => ?_⟩
      rw [failed] at success
      exact absurd success (by norm_num)

theorem octal_reads_leftover : ¬ IgnoresLeftover .w8 "017".toList := by
  intro ignores
  exact absurd (ignores.same 0 1 0) (by decide)

end Leftover

section Failure

/-- A failing call has moved the pointer past whitespace and sign, so that only a
text without them is left as it was. -/
theorem lexS_failure_iff {w : Width} {uv : UInt64} {buf : Text} {val : ℤ}
    (fails : (lexS w uv buf val).ret ≠ 0) :
    ((lexS w uv buf val).buf = buf ∧ (lexS w uv buf val).val = val) ↔
      ∀ c ∈ buf.head?, isspace c = false ∧ c ≠ '-' := by
  have failed : lexS w uv buf val = ⟨-1, afterSign buf, val⟩ := by
    cases lexed : Lexers.lexUint (w.bits - 1) uv.toNat (afterSign buf) with
    | ok q => exact absurd (by rw [lexS_of_ok lexed]) fails
    | error ret => exact lexS_of_error lexed
  rw [failed, and_iff_left rfl]
  cases buf with
  | nil => exact iff_of_true rfl (by simp)
  | cons c rest =>
    -- Whatever the first character, no more than the rest is left once it is passed.
    have shorter : ∀ {text : Text}, text.length ≤ rest.length → text ≠ c :: rest := by
      rintro text le rfl
      exact absurd le (by simp)
    have dropped : (parseWhitespace rest).length ≤ rest.length := (List.dropWhile_suffix _).length_le
    by_cases space : isspace c = true
    · refine iff_of_false (shorter ?_) fun plain => ?_
      · rw [afterSign, parseWhitespace, List.dropWhile_cons_of_pos space]
        split_ifs
        · exact (List.length_tail ▸ Nat.sub_le _ _).trans dropped
        · exact dropped
      · exact absurd ((plain c rfl).1.symm.trans space) (by decide)
    · rw [afterSign, parseWhitespace, List.dropWhile_cons_of_neg space]
      by_cases sign : c = '-'
      · rw [if_pos (by rw [sign]; rfl)]
        exact iff_of_false (shorter le_rfl) fun plain => (plain c rfl).2 sign
      · rw [if_neg (by simpa using sign)]
        exact iff_of_true rfl (by simpa using ⟨Bool.eq_false_iff.mpr space, sign⟩)

theorem lexS_failure_sign :
    ((lexS .w8 0 "-".toList 7).buf = "-".toList ∧ (lexS .w8 0 "-".toList 7).val = 7) ↔
      ∀ c ∈ "-".toList.head?, isspace c = false ∧ c ≠ '-' :=
  lexS_failure_iff (by decide)

theorem sign_consumed :
    (lexS .w8 0 "-".toList 7).ret ≠ 0 ∧
      ¬ ((lexS .w8 0 "-".toList 7).buf = "-".toList ∧ (lexS .w8 0 "-".toList 7).val = 7) := by
  decide

end Failure

end Libdank.Lexers.Pointers
