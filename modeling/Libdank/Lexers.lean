import Libdank.Parse

/-! Reading integers off a text, after `objects/lexers.c`. The unsigned integers
have 64 bits, `uintmax_t`'s width. A return code other than 0 is an error; the
caller's text then stays where it was. -/
namespace Libdank.Lexers
open Parse

/-- 0 if one more digit fits, 1 if it does not, -1 for arguments out of range. -/
def wouldOverflow (bits augend addend base : ℕ) : ℤ :=
  if 64 < bits ∨ bits < 1 then -1
  else if base < 2 ∨ 256 < base then -1
  else if base ≤ addend then -1
  else
    let max := (2 ^ 64 - 1) >>> (64 - bits)
    if max / base < augend then 1
    else if (2 ^ 64 + max - augend * base % 2 ^ 64) % 2 ^ 64 < addend then 1
    else 0

def safelyAdd (base bits augend addend : ℕ) : Except ℤ ℕ :=
  let ret := wouldOverflow bits augend addend base
  if ret ≠ 0 then .error ret else .ok ((augend * base % 2 ^ 64 + addend) % 2 ^ 64)

def safelyAddOct (bits augend : ℕ) (odig : Char) : Except ℤ ℕ :=
  let addend := odig.toNat - '0'.toNat
  if 8 ≤ addend then .error (-1) else safelyAdd 8 bits augend addend

def safelyAddDec (bits augend : ℕ) (digit : Char) : Except ℤ ℕ :=
  safelyAdd 10 bits augend (digit.toNat - '0'.toNat)

def safelyAddHex (bits augend : ℕ) (xdig : Char) : Except ℤ ℕ :=
  let addend := if isdigit xdig then xdig.toNat - '0'.toNat
    else (tolower xdig).toNat - 'a'.toNat + 10
  safelyAdd 16 bits augend addend

def addRun (isdig : Char → Bool) (add : ℕ → Char → Except ℤ ℕ) (val : ℕ) :
    Text → Except ℤ (ℕ × Text)
  | [] => .ok (val, [])
  | c :: rest => if isdig c then (add val c).bind fun val => addRun isdig add val rest
    else .ok (val, c :: rest)

/-- Nothing but the end, punctuation or whitespace may follow a zero. -/
def lexZero (buf : Text) : Except ℤ (ℕ × Text) :=
  match buf.head? with
  | some c => if ispunct c || isspace c then .ok (0, buf) else .error (-1)
  | none => .ok (0, buf)

def lexUint0helper (bits val : ℕ) (buf : Text) : Except ℤ (ℕ × Text) :=
  match buf with
  | [] => lexZero []
  | c :: rest =>
    if c = 'x' ∨ c = 'X' then
      if rest.head? = some '0' then lexZero rest.tail
      else addRun isxdigit (safelyAddHex bits) val rest
    else if isdigit c then
      if c = '0' then lexZero rest
      else addRun isdigit (safelyAddOct bits) val (c :: rest)
    else lexZero (c :: rest)

/-- `val` is what the result variable holds before. -/
def lexUint (bits val : ℕ) (buf : Text) : Except ℤ (ℕ × Text) :=
  let numstart := parseWhitespace buf
  if numstart.head? = some '0' then
    match lexUint0helper bits val numstart.tail with
    | .ok lexed => .ok lexed
    | .error _ => .error 1
  else
    match addRun isdigit (safelyAddDec bits) 0 numstart with
    | .ok (v, rest) => if rest.length = numstart.length then .error 1 else .ok (v, rest)
    | .error ret => .error ret

def lexU16 (buf : Text) : Except ℤ (ℕ × Text) := lexUint 16 0 buf

/-- `uv` is what the local of that name happens to hold. The text is left past
whitespace and sign even where there is no number. -/
def lexSint (uv bits : ℕ) (buf : Text) : Except ℤ ℤ × Text :=
  let text := parseWhitespace buf
  let neg := text.head? = some '-'
  let text := if neg then text.tail else text
  match lexUint (bits - 1) uv text with
  | .ok (uv, rest) => (.ok (if neg then -(uv : ℤ) else uv), rest)
  | .error _ => (.error (-1), text)

/-- The store into the narrower variable truncates. -/
def lexS32 (uv : ℕ) (buf : Text) : Except ℤ ℤ × Text :=
  let (lexed, rest) := lexSint uv 32 buf
  (lexed.map fun v => v.bmod (2 ^ 32), rest)

theorem max_eq {bits : ℕ} (le : bits ≤ 64) : (2 ^ 64 - 1) >>> (64 - bits) = 2 ^ bits - 1 := by
  have split_ : 2 ^ bits * 2 ^ (64 - bits) = 2 ^ 64 := by rw [← pow_add, Nat.add_sub_cancel' le]
  have pos : 0 < 2 ^ (64 - bits) := Nat.two_pow_pos _
  have one : 0 < 2 ^ bits := Nat.two_pow_pos _
  rw [Nat.shiftRight_eq_div_pow]
  refine Nat.div_eq_of_lt_le ?_ ?_
  · rw [Nat.sub_mul, split_, one_mul]
    omega
  · rw [Nat.sub_add_cancel one, split_]
    omega

theorem addRun_suffix {isdig : Char → Bool} {add : ℕ → Char → Except ℤ ℕ} {v n : ℕ}
    {buf rest : Text} (h : addRun isdig add v buf = .ok (n, rest)) : rest <:+ buf := by
  induction buf generalizing v with
  | nil =>
    obtain ⟨-, rfl⟩ : v = n ∧ [] = rest := by simpa [addRun] using h
    exact List.suffix_rfl
  | cons c buf ih =>
    rw [addRun] at h
    by_cases digit : isdig c = true
    · rw [if_pos digit] at h
      cases sum : add v c with
      | error _ => simp [sum, Except.bind] at h
      | ok v' =>
        rw [sum] at h
        exact (ih h).trans (List.suffix_cons c buf)
    · obtain ⟨-, rfl⟩ : v = n ∧ c :: buf = rest := by simpa [digit] using h
      exact List.suffix_rfl

theorem lexZero_suffix {n : ℕ} {buf rest : Text} (h : lexZero buf = .ok (n, rest)) :
    rest <:+ buf := by
  unfold lexZero at h
  split at h
  · split at h
    · obtain ⟨-, rfl⟩ := by simpa using h
      exact List.suffix_rfl
    · simp at h
  · obtain ⟨-, rfl⟩ := by simpa using h
    exact List.suffix_rfl

theorem lexUint0helper_suffix {bits val n : ℕ} {buf rest : Text}
    (h : lexUint0helper bits val buf = .ok (n, rest)) : rest <:+ buf := by
  cases buf with
  | nil => exact lexZero_suffix h
  | cons c buf =>
    rw [lexUint0helper] at h
    split_ifs at h
    · exact ((lexZero_suffix h).trans (List.tail_suffix _)).trans (List.suffix_cons c buf)
    · exact (addRun_suffix h).trans (List.suffix_cons c buf)
    · exact (lexZero_suffix h).trans (List.suffix_cons c buf)
    · exact addRun_suffix h
    · exact lexZero_suffix h

theorem lexUint_suffix {bits val n : ℕ} {buf rest : Text}
    (h : lexUint bits val buf = .ok (n, rest)) : rest <:+ buf := by
  refine List.IsSuffix.trans ?_ (List.dropWhile_suffix isspace)
  change rest <:+ parseWhitespace buf
  unfold lexUint at h
  simp only at h
  split_ifs at h
  · cases zero : lexUint0helper bits val (parseWhitespace buf).tail with
    | error _ => simp [zero] at h
    | ok lexed =>
      obtain rfl : lexed = (n, rest) := by simpa [zero] using h
      exact (lexUint0helper_suffix zero).trans (List.tail_suffix _)
  · cases run : addRun isdigit (safelyAddDec bits) 0 (parseWhitespace buf) with
    | error _ => simp [run] at h
    | ok lexed =>
      simp only [run] at h
      split_ifs at h
      obtain rfl : lexed = (n, rest) := by simpa using h
      exact addRun_suffix run

theorem lexUint_consumes {bits val n : ℕ} {buf rest : Text}
    (h : lexUint bits val buf = .ok (n, rest)) : rest.length < buf.length := by
  have shorter : (parseWhitespace buf).length ≤ buf.length := (List.dropWhile_suffix isspace).length_le
  refine lt_of_lt_of_le ?_ shorter
  unfold lexUint at h
  simp only at h
  split_ifs at h with zero
  · obtain ⟨c, tail, shape⟩ : ∃ c tail, parseWhitespace buf = c :: tail := by
      cases at_ : parseWhitespace buf with
      | nil => simp [at_] at zero
      | cons c tail => exact ⟨c, tail, rfl⟩
    rw [shape, List.tail_cons] at h
    cases lexed : lexUint0helper bits val tail with
    | error _ => simp [lexed] at h
    | ok q =>
      obtain rfl : q = (n, rest) := by simpa [lexed] using h
      rw [shape, List.length_cons]
      exact Nat.lt_succ_of_le (lexUint0helper_suffix lexed).length_le
  · cases run : addRun isdigit (safelyAddDec bits) 0 (parseWhitespace buf) with
    | error _ => simp [run] at h
    | ok q =>
      simp only [run] at h
      split_ifs at h with same
      obtain rfl : q = (n, rest) := by simpa using h
      exact lt_of_le_of_ne (addRun_suffix run).length_le same

theorem safelyAdd_eq {base bits augend addend : ℕ} (wide : 1 ≤ bits ∧ bits ≤ 64)
    (digits : 2 ≤ base ∧ base ≤ 256) (ordinal : addend < base)
    (fits : augend * base + addend < 2 ^ bits) :
    safelyAdd base bits augend addend = .ok (augend * base + addend) := by
  have power : 2 ^ bits ≤ 2 ^ 64 := Nat.pow_le_pow_right (by decide) wide.2
  have product : augend ≤ (2 ^ bits - 1) / base := by
    rw [Nat.le_div_iff_mul_le (by omega)]
    omega
  have ret : wouldOverflow bits augend addend base = 0 := by
    unfold wouldOverflow
    rw [if_neg (by omega), if_neg (by omega), if_neg (by omega), max_eq wide.2,
      if_neg (not_lt.mpr product), Nat.mod_eq_of_lt (by omega : augend * base < 2 ^ 64),
      if_neg (by omega)]
  rw [safelyAdd, ret, if_neg (by simp), Nat.mod_eq_of_lt (by omega : augend * base < 2 ^ 64),
    Nat.mod_eq_of_lt (by omega)]

theorem toNat_digit {c : Char} (digit : isdigit c = true) : c.toNat - '0'.toNat < 10 := by
  have le : c.toNat ≤ '9'.toNat := by
    simp only [isdigit, Bool.and_eq_true, decide_eq_true_eq] at digit
    exact digit.2
  have : '9'.toNat = 57 := rfl
  have : '0'.toNat = 48 := rfl
  omega

theorem le_ofDigitChars (digits : Text) (v : ℕ) : v ≤ Nat.ofDigitChars 10 digits v := by
  induction digits generalizing v with
  | nil => simp
  | cons c digits ih =>
    rw [Nat.ofDigitChars_cons]
    exact le_trans (by omega) (ih _)

theorem addRun_dec {bits : ℕ} (wide : 1 ≤ bits ∧ bits ≤ 64) (digits rest : Text) (v : ℕ)
    (all : ∀ c ∈ digits, isdigit c = true) (stop : ∀ c ∈ rest.head?, isdigit c = false)
    (fits : Nat.ofDigitChars 10 digits v < 2 ^ bits) :
    addRun isdigit (safelyAddDec bits) v (digits ++ rest) =
      .ok (Nat.ofDigitChars 10 digits v, rest) := by
  induction digits generalizing v with
  | nil =>
    cases rest with
    | nil => rfl
    | cons c rest => simp [addRun, stop c (by simp)]
  | cons c digits ih =>
    have digit := all c (by simp)
    rw [Nat.ofDigitChars_cons] at fits ⊢
    have here : safelyAddDec bits v c = .ok (10 * v + (c.toNat - '0'.toNat)) := by
      rw [safelyAddDec, safelyAdd_eq wide (by decide) (toNat_digit digit), mul_comm]
      have := le_ofDigitChars digits (10 * v + (c.toNat - '0'.toNat))
      omega
    rw [List.cons_append, addRun, if_pos digit, here]
    exact ih _ (fun d hd => all d (by simp [hd])) fits

theorem isdigit_eq (c : Char) : isdigit c = c.isDigit := by
  simp only [isdigit, Char.isDigit, Char.le_def]

theorem isspace_of_isdigit {c : Char} (digit : isdigit c = true) : isspace c = false := by
  simp only [isdigit, Bool.and_eq_true, decide_eq_true_eq] at digit
  have low : ¬ c.toNat < '0'.toNat := not_lt.mpr digit.1
  simp only [isspace, Bool.or_eq_false_iff, decide_eq_false_iff_not]
  refine ⟨⟨⟨⟨⟨?_, ?_⟩, ?_⟩, ?_⟩, ?_⟩, ?_⟩ <;> rintro rfl <;> exact low (by decide)

theorem head_toDigits {n : ℕ} (pos : 0 < n) : (Nat.toDigits 10 n).head? ≠ some '0' := by
  induction n using Nat.strongRecOn with
  | _ n ih =>
    by_cases small : n < 10
    · rw [Nat.toDigits_of_lt_base small]
      simp only [List.head?_cons, ne_eq, Option.some.injEq]
      intro zero
      have := Nat.toNat_digitChar_of_lt_ten small
      rw [zero] at this
      have : '0'.toNat = 48 := rfl
      omega
    · rw [Nat.toDigits_of_base_le (by decide) (by omega), List.head?_append,
        List.head?_eq_some_head Nat.toDigits_ne_nil]
      have := ih (n / 10) (by omega) (by omega)
      rwa [List.head?_eq_some_head Nat.toDigits_ne_nil] at this

theorem lexUint_toDigits {bits n : ℕ} (wide : 1 ≤ bits ∧ bits ≤ 64) (pos : 0 < n)
    (fits : n < 2 ^ bits) (val : ℕ) (rest : Text) (stop : ∀ c ∈ rest.head?, isdigit c = false) :
    lexUint bits val (Nat.toDigits 10 n ++ rest) = .ok (n, rest) := by
  have all : ∀ c ∈ Nat.toDigits 10 n, isdigit c = true := fun c hc => by
    rw [isdigit_eq]
    exact Nat.isDigit_of_mem_toDigits (by decide) (by decide) hc
  obtain ⟨c, digits, shape⟩ := List.exists_cons_of_ne_nil (@Nat.toDigits_ne_nil n 10)
  have first : isdigit c = true := all c (by simp [shape])
  have nonzero : c ≠ '0' := by
    have := head_toDigits pos
    rw [shape] at this
    simpa using this
  have here : parseWhitespace (Nat.toDigits 10 n ++ rest) = Nat.toDigits 10 n ++ rest := by
    rw [shape, List.cons_append]
    exact List.dropWhile_cons_of_neg (by simp [isspace_of_isdigit first])
  have run := addRun_dec wide (Nat.toDigits 10 n) rest 0 all stop
    (by rwa [Nat.ofDigitChars_ten_toDigits])
  rw [Nat.ofDigitChars_ten_toDigits] at run
  simp only [lexUint, here, run]
  rw [if_neg (by simp [shape, nonzero]), if_neg]
  rw [List.length_append, shape, List.length_cons]
  omega

end Libdank.Lexers
