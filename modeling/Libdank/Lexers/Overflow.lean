import Libdank.Lexers.Tokens

/-! The overflow test behind the lexers. It is exact at every width and in every base, and what it
computes on the way fits its own word. -/
namespace Libdank.Lexers.Accumulators
open Parse

def word (x : ℤ) : Option ℕ := if 0 ≤ x ∧ x < 2 ^ 64 then some x.toNat else none

/-- `wouldOverflow` in exact integers, without a result where one of them does not fit. -/
def wouldOverflowChecked (bits augend addend base : ℕ) : Option ℤ :=
  if 64 < bits ∨ bits < 1 then some (-1)
  else if base < 2 ∨ 256 < base then some (-1)
  else if base ≤ addend then some (-1)
  else
    let max := (2 ^ 64 - 1) >>> (64 - bits)
    if max / base < augend then some 1
    else do
      let product ← word (augend * base)
      let left ← word (max - product)
      some (if left < addend then 1 else 0)

structure Added where
  ret : ℤ
  augend : ℕ
deriving DecidableEq, Repr

def uintmax (x : ℤ) : ℕ := (x % 2 ^ 64).toNat

def safelyAdd (base bits augend addend : ℕ) : Added :=
  let ret := wouldOverflow bits augend addend base
  if ret ≠ 0 then ⟨ret, augend⟩ else ⟨0, (augend * base % 2 ^ 64 + addend) % 2 ^ 64⟩

def safelyAddOct (bits augend : ℕ) (odig : Char) : Added :=
  let addend := uintmax (odig.toNat - '0'.toNat)
  if 8 ≤ addend then ⟨-1, augend⟩ else safelyAdd 8 bits augend addend

def safelyAddDec (bits augend : ℕ) (digit : Char) : Added :=
  safelyAdd 10 bits augend (uintmax (digit.toNat - '0'.toNat))

def safelyAddHex (bits augend : ℕ) (xdig : Char) : Added :=
  let addend := if isdigit xdig then uintmax (xdig.toNat - '0'.toNat)
    else uintmax ((tolower xdig).toNat - 'a'.toNat + 10)
  safelyAdd 16 bits augend addend

inductive Radix where
  | oct | dec | hex
deriving DecidableEq, Repr

def Radix.base : Radix → ℕ
  | oct => 8
  | dec => 10
  | hex => 16

def Radix.isDigit : Radix → Char → Bool
  | oct => octal
  | dec => isdigit
  | hex => isxdigit

def Radix.add : Radix → ℕ → ℕ → Char → Added
  | oct => safelyAddOct
  | dec => safelyAddDec
  | hex => safelyAddHex

def Radix.addAll (r : Radix) (bits : ℕ) : ℕ → Text → Added
  | augend, [] => ⟨0, augend⟩
  | augend, c :: digits =>
    let added := r.add bits augend c
    if added.ret ≠ 0 then added else r.addAll bits added.augend digits

section Test
variable {bits base addend augend : ℕ}

theorem word_eq {x : ℤ} {n : ℕ} (same : x = n) (fits : n < 2 ^ 64) : word x = some n := by
  rw [word, same, if_pos ⟨Int.natCast_nonneg n, by exact_mod_cast fits⟩, Int.toNat_natCast]

theorem wouldOverflow_eq (wide : 1 ≤ bits ∧ bits ≤ 64) (digits : 2 ≤ base ∧ base ≤ 256)
    (ordinal : addend < base) : wouldOverflow bits augend addend base =
      if augend * base + addend ≤ 2 ^ bits - 1 then 0 else 1 := by
  have positive : 0 < 2 ^ bits := Nat.two_pow_pos bits
  split
  case isTrue fits =>
    have added := safelyAdd_eq wide digits ordinal (by omega : augend * base + addend < 2 ^ bits)
    rw [Lexers.safelyAdd] at added
    split_ifs at added with code
    exact not_not.mp code
  case isFalse large =>
    have refused := safelyAdd_overflow wide digits ordinal (by omega : 2 ^ bits ≤ augend * base + addend)
    rw [Lexers.safelyAdd] at refused
    split_ifs at refused
    exact Except.error.inj refused

theorem wouldOverflowChecked_eq (wide : 1 ≤ bits ∧ bits ≤ 64) (digits : 2 ≤ base ∧ base ≤ 256)
    (ordinal : addend < base) : wouldOverflowChecked bits augend addend base =
      some (wouldOverflow bits augend addend base) := by
  have power : 2 ^ bits ≤ 2 ^ 64 := Nat.pow_le_pow_right (by decide) wide.2
  have width : ¬ (64 < bits ∨ bits < 1) := by omega
  have system : ¬ (base < 2 ∨ 256 < base) := by omega
  simp only [wouldOverflowChecked, wouldOverflow, if_neg width, if_neg system,
    if_neg (Nat.not_le.mpr ordinal), max_eq wide.2]
  by_cases large : (2 ^ bits - 1) / base < augend
  · rw [if_pos large, if_pos large]
  · rw [if_neg large, if_neg large]
    rw [not_lt, Nat.le_div_iff_mul_le (by omega)] at large
    have product : word (augend * base) = some (augend * base) :=
      word_eq (by push_cast; rfl) (by omega)
    have left : word ((2 ^ bits - 1 : ℕ) - (augend * base : ℕ)) = some (2 ^ bits - 1 - augend * base) :=
      word_eq (by omega) (by omega)
    have same : (2 ^ 64 + (2 ^ bits - 1) - augend * base % 2 ^ 64) % 2 ^ 64 = 2 ^ bits - 1 - augend * base := by
      rw [Nat.mod_eq_of_lt (by omega : augend * base < 2 ^ 64)]
      omega
    rw [product, Option.bind_eq_bind, Option.bind_some, left, Option.bind_some, same]

theorem safelyAdd_exact (wide : 1 ≤ bits ∧ bits ≤ 64) (digits : 2 ≤ base ∧ base ≤ 256)
    (ordinal : addend < base) : safelyAdd base bits augend addend =
      if augend * base + addend ≤ 2 ^ bits - 1 then ⟨0, augend * base + addend⟩ else ⟨1, augend⟩ := by
  have power : 2 ^ bits ≤ 2 ^ 64 := Nat.pow_le_pow_right (by decide) wide.2
  have positive : 0 < 2 ^ bits := Nat.two_pow_pos bits
  rw [safelyAdd, wouldOverflow_eq wide digits ordinal]
  by_cases fits : augend * base + addend ≤ 2 ^ bits - 1
  · simp only [if_pos fits, ne_eq, not_true, if_false]
    rw [Nat.mod_eq_of_lt (by omega : augend * base < 2 ^ 64), Nat.mod_eq_of_lt (by omega)]
  · simp only [if_neg fits]
    rfl

end Test

section Digits
variable {bits : ℕ} (r : Radix)

theorem Radix.base_bounds : 2 ≤ r.base ∧ r.base ≤ 256 := by
  cases r <;> decide

theorem uintmax_of_nat {x : ℤ} {n : ℕ} (same : x = n) (small : n < 256) : uintmax x = n := by
  rw [uintmax, same]
  omega

theorem uintmax_of_isdigit {c : Char} (digit : isdigit c = true) :
    uintmax (c.toNat - '0'.toNat) = ordinal c := by
  have low : '0'.toNat ≤ c.toNat := by
    simp only [isdigit, Bool.and_eq_true, decide_eq_true_eq] at digit
    exact digit.1
  have small := toNat_digit digit
  rw [ordinal_of_isdigit digit] at small
  exact uintmax_of_nat (by rw [← ordinal_of_isdigit digit]; omega) (by omega)

theorem letter_table (n : Fin 128) (digit : isxdigit (Char.ofNat n) = true)
    (letter : isdigit (Char.ofNat n) = false) : 'a'.toNat ≤ (tolower (Char.ofNat n)).toNat := by
  revert n
  decide +kernel

theorem le_tolower {c : Char} (digit : isxdigit c = true) (letter : isdigit c = false) :
    'a'.toNat ≤ (tolower c).toNat := by
  have entry := letter_table ⟨c.toNat, toNat_lt_of_isxdigit digit⟩
  simp only [Char.ofNat_toNat] at entry
  exact entry digit letter

theorem Radix.add_eq {c : Char} (digit : r.isDigit c = true) (augend : ℕ) :
    r.add bits augend c = safelyAdd r.base bits augend (ordinal c) ∧ ordinal c < r.base := by
  cases r with
  | oct =>
    have isdig := isdigit_of_octal digit
    have small := ((ordinal_facts (isxdigit_of_isdigit isdig)).2.2.mp digit).2
    refine ⟨?_, small⟩
    simp only [add, safelyAddOct, uintmax_of_isdigit isdig]
    rw [if_neg (by omega)]
    rfl
  | dec =>
    refine ⟨?_, ordinal_of_isdigit digit ▸ toNat_digit digit⟩
    simp only [add, safelyAddDec, uintmax_of_isdigit digit]
    rfl
  | hex =>
    obtain ⟨small, value, -⟩ := ordinal_facts digit
    refine ⟨?_, small⟩
    simp only [add, safelyAddHex]
    split_ifs with isdig
    · rw [uintmax_of_isdigit isdig]
      rfl
    · rw [if_neg isdig] at value
      have letter : ((tolower c).toNat : ℤ) - 'a'.toNat + 10 = ordinal c := by
        have low := le_tolower digit (Bool.eq_false_iff.mpr isdig)
        omega
      rw [uintmax_of_nat letter (by omega)]
      rfl

def Added.toExcept (a : Added) : Except ℤ ℕ := if a.ret ≠ 0 then .error a.ret else .ok a.augend

theorem safelyAdd_toExcept (base bits augend addend : ℕ) :
    (safelyAdd base bits augend addend).toExcept = Lexers.safelyAdd base bits augend addend := by
  rw [Lexers.safelyAdd, safelyAdd]
  split
  case isTrue code => exact if_pos code
  case isFalse => rfl

def Radix.lexerAdd : Radix → ℕ → ℕ → Char → Except ℤ ℕ
  | oct => Lexers.safelyAddOct
  | dec => Lexers.safelyAddDec
  | hex => Lexers.safelyAddHex

theorem Radix.add_toExcept {c : Char} (digit : r.isDigit c = true) (augend : ℕ) :
    (r.add bits augend c).toExcept = r.lexerAdd bits augend c := by
  obtain ⟨same, small⟩ := @Radix.add_eq bits r _ digit augend
  rw [same, safelyAdd_toExcept]
  cases r with
  | oct =>
    have value := ordinal_of_isdigit (isdigit_of_octal digit)
    simp only [lexerAdd, Lexers.safelyAddOct, value]
    exact (if_neg (Nat.not_le.mpr small)).symm
  | dec =>
    simp only [lexerAdd, Lexers.safelyAddDec, ordinal_of_isdigit digit]
    rfl
  | hex =>
    simp only [lexerAdd, Lexers.safelyAddHex, (ordinal_facts digit).2.1]
    rfl

theorem Radix.add_exact (wide : 1 ≤ bits ∧ bits ≤ 64) {c : Char} (digit : r.isDigit c = true)
    (augend : ℕ) : r.add bits augend c =
      if augend * r.base + ordinal c ≤ 2 ^ bits - 1 then ⟨0, augend * r.base + ordinal c⟩
      else ⟨1, augend⟩ := by
  obtain ⟨same, small⟩ := @Radix.add_eq bits r _ digit augend
  rw [same, safelyAdd_exact wide r.base_bounds small]

/-- The digits that have been added are the longest run in front that fits. -/
theorem Radix.addAll_exact (wide : 1 ≤ bits ∧ bits ≤ 64) (digits : Text)
    (all : ∀ c ∈ digits, r.isDigit c = true) : ∀ {v : ℕ}, v ≤ 2 ^ bits - 1 →
      (value r.base v digits ≤ 2 ^ bits - 1 → r.addAll bits v digits = ⟨0, value r.base v digits⟩) ∧
      (2 ^ bits - 1 < value r.base v digits → ∃ before c after, digits = before ++ c :: after ∧
        value r.base v before ≤ 2 ^ bits - 1 ∧ 2 ^ bits - 1 < value r.base v (before ++ [c]) ∧
        r.addAll bits v digits = ⟨1, value r.base v before⟩) := by
  induction digits with
  | nil =>
    intro v start
    exact ⟨fun _ => rfl, fun large => absurd start (Nat.not_le.mpr large)⟩
  | cons c digits ih =>
    intro v start
    obtain ⟨digit, all⟩ := List.forall_mem_cons.mp all
    have base := r.base_bounds
    have added := r.add_exact wide digit v
    rw [value_cons, addAll, added]
    by_cases fits : v * r.base + ordinal c ≤ 2 ^ bits - 1
    · simp only [if_pos fits, ne_eq, not_true, if_false]
      obtain ⟨ok, error⟩ := ih all fits
      refine ⟨ok, fun large => ?_⟩
      obtain ⟨before, d, after, rfl, room, full, stopped⟩ := error large
      exact ⟨c :: before, d, after, rfl, room, full, stopped⟩
    · simp only [if_neg fits]
      have more := le_value (by omega : 0 < r.base) (v * r.base + ordinal c) digits
      refine ⟨fun small => absurd (le_trans more small) fits, fun _ => ⟨[], c, digits, rfl, start, ?_, rfl⟩⟩
      exact Nat.not_le.mp fits

theorem safelyAddOct_refuses {c : Char} (digit : isdigit c = true) (other : octal c = false) (augend : ℕ) :
    safelyAddOct bits augend c = ⟨-1, augend⟩ := by
  have large : ¬ ordinal c < 8 := fun small =>
    absurd ((ordinal_facts (isxdigit_of_isdigit digit)).2.2.mpr ⟨digit, small⟩) (by rw [other]; decide)
  simp only [safelyAddOct, uintmax_of_isdigit digit]
  rw [if_pos (Nat.not_lt.mp large)]

end Digits

/-- The test is exact and does not wrap, so that a run of digits has its exact value as long as it
fits, and the value so far where it does not. -/
theorem wouldOverflow_exact (bits : ℕ) (wide : 1 ≤ bits ∧ bits ≤ 64) :
    (∀ base addend augend : ℕ, 2 ≤ base → base ≤ 256 → addend < base → augend ≤ 2 ^ bits - 1 →
      wouldOverflowChecked bits augend addend base = some (wouldOverflow bits augend addend base) ∧
      wouldOverflow bits augend addend base = if augend * base + addend ≤ 2 ^ bits - 1 then 0 else 1) ∧
    ∀ r : Radix,
      (∀ (augend : ℕ) (c : Char), augend ≤ 2 ^ bits - 1 → r.isDigit c = true → r.add bits augend c =
        if augend * r.base + ordinal c ≤ 2 ^ bits - 1 then ⟨0, augend * r.base + ordinal c⟩
        else ⟨1, augend⟩) ∧
      ∀ digits : Text, (∀ c ∈ digits, r.isDigit c = true) →
        (value r.base 0 digits ≤ 2 ^ bits - 1 → r.addAll bits 0 digits = ⟨0, value r.base 0 digits⟩) ∧
        (2 ^ bits - 1 < value r.base 0 digits → ∃ before c after, digits = before ++ c :: after ∧
          value r.base 0 before ≤ 2 ^ bits - 1 ∧ 2 ^ bits - 1 < value r.base 0 (before ++ [c]) ∧
          r.addAll bits 0 digits = ⟨1, value r.base 0 before⟩) := by
  constructor
  · intro base addend augend low high ordinal _
    exact ⟨wouldOverflowChecked_eq wide ⟨low, high⟩ ordinal, wouldOverflow_eq wide ⟨low, high⟩ ordinal⟩
  · intro r
    exact ⟨fun augend c _ digit => r.add_exact wide digit augend,
      fun digits all => r.addAll_exact wide digits all (Nat.zero_le _)⟩

/-- 255 is the last number of 8 bits. -/
theorem wouldOverflow_exact_byte : wouldOverflowChecked 8 25 5 10 = some (wouldOverflow 8 25 5 10) ∧
    wouldOverflow 8 25 5 10 = if 25 * 10 + 5 ≤ 2 ^ 8 - 1 then 0 else 1 :=
  (wouldOverflow_exact 8 (by decide)).1 10 5 25 (by decide) (by decide) (by decide) (by decide)

end Libdank.Lexers.Accumulators
