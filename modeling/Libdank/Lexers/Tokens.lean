import Libdank.Lexers.Pointers
import Mathlib.Data.List.TakeWhile

/-! The numerals that the unsigned lexers take: what a text has to begin with, and
the number it stands for. -/
namespace Libdank.Lexers
open Parse

def ordinal (c : Char) : ℕ := "0123456789abcdef".toList.idxOf (tolower c)

def value (base v : ℕ) (digits : Text) : ℕ := digits.foldl (fun v c => v * base + ordinal c) v

def octal (c : Char) : Bool := '0' ≤ c && c ≤ '7'

def Stops (isdig : Char → Bool) (rest : Text) : Prop := ∀ c ∈ rest.head?, isdig c = false

def Ends (rest : Text) : Prop := ∀ c ∈ rest.head?, ispunct c = true ∨ isspace c = true

def IsX (x : Char) : Prop := x = 'x' ∨ x = 'X'

/-- `Token text v rest`: the text begins with a numeral for `v`, and `rest` is what
follows it. -/
inductive Token : Text → ℕ → Text → Prop
  | decimal {digits rest} (some_ : digits ≠ []) (all : ∀ c ∈ digits, isdigit c = true)
      (lead : digits.head? ≠ some '0') (stop : Stops isdigit rest) :
      Token (digits ++ rest) (value 10 0 digits) rest
  | zero {rest} (end_ : Ends rest) : Token ('0' :: rest) 0 rest
  | doubleZero {rest} (end_ : Ends rest) : Token ('0' :: '0' :: rest) 0 rest
  | hexZero {x rest} (isx : IsX x) (end_ : Ends rest) : Token ('0' :: x :: '0' :: rest) 0 rest
  | hex {x digits rest} (isx : IsX x) (some_ : digits ≠ []) (all : ∀ c ∈ digits, isxdigit c = true)
      (lead : digits.head? ≠ some '0') (stop : Stops isxdigit rest) :
      Token ('0' :: x :: (digits ++ rest)) (value 16 0 digits) rest
  | octal {digits rest} (some_ : digits ≠ []) (all : ∀ c ∈ digits, octal c = true)
      (lead : digits.head? ≠ some '0') (stop : Stops isdigit rest) :
      Token ('0' :: (digits ++ rest)) (value 8 0 digits) rest

section Digits

theorem toNat_lt_of_isxdigit {c : Char} (digit : isxdigit c = true) : c.toNat < 128 := by
  have bounds : c ≤ '9' ∨ c ≤ 'f' ∨ c ≤ 'F' := by
    simp only [isxdigit, isdigit, Bool.or_eq_true, Bool.and_eq_true, decide_eq_true_eq] at digit
    tauto
  rcases bounds with le | le | le
  all_goals
    have le : c.toNat ≤ _ := le
    exact lt_of_le_of_lt le (by decide)

theorem ordinal_table (n : Fin 128) (digit : isxdigit (Char.ofNat n) = true) :
    ordinal (Char.ofNat n) < 16 ∧
      (if isdigit (Char.ofNat n) then (Char.ofNat n).toNat - '0'.toNat
        else (tolower (Char.ofNat n)).toNat - 'a'.toNat + 10) = ordinal (Char.ofNat n) ∧
      (octal (Char.ofNat n) = true ↔ isdigit (Char.ofNat n) = true ∧ ordinal (Char.ofNat n) < 8) := by
  revert n
  decide +kernel

theorem ordinal_facts {c : Char} (digit : isxdigit c = true) :
    ordinal c < 16 ∧
      (if isdigit c then c.toNat - '0'.toNat else (tolower c).toNat - 'a'.toNat + 10) = ordinal c ∧
      (octal c = true ↔ isdigit c = true ∧ ordinal c < 8) := by
  have entry := ordinal_table ⟨c.toNat, toNat_lt_of_isxdigit digit⟩
  simp only [Char.ofNat_toNat] at entry
  exact entry digit

theorem isxdigit_of_isdigit {c : Char} (digit : isdigit c = true) : isxdigit c = true := by
  simp [isxdigit, digit]

theorem ordinal_of_isdigit {c : Char} (digit : isdigit c = true) :
    c.toNat - '0'.toNat = ordinal c := by
  have same := (ordinal_facts (isxdigit_of_isdigit digit)).2.1
  rwa [if_pos digit] at same

theorem isdigit_of_octal {c : Char} (digit : octal c = true) : isdigit c = true := by
  simp only [octal, isdigit, Bool.and_eq_true, decide_eq_true_eq] at digit ⊢
  exact ⟨digit.1, Char.le_trans digit.2 (by decide)⟩

theorem le_value {base : ℕ} (pos : 0 < base) (v : ℕ) (digits : Text) : v ≤ value base v digits := by
  induction digits generalizing v with
  | nil => exact le_rfl
  | cons c digits ih =>
    have more : v ≤ v * base + ordinal c := le_trans (Nat.le_mul_of_pos_right v pos) (Nat.le_add_right _ _)
    exact le_trans more (ih _)

theorem value_mono {base v v' : ℕ} (le : v ≤ v') (digits : Text) :
    value base v digits ≤ value base v' digits := by
  induction digits generalizing v v' with
  | nil => exact le
  | cons c digits ih => exact ih (Nat.add_le_add_right (Nat.mul_le_mul_right base le) _)

theorem value_cons (base v : ℕ) (c : Char) (digits : Text) :
    value base v (c :: digits) = value base (v * base + ordinal c) digits := rfl

end Digits

section Runs

variable {bits : ℕ}

/-- `lexed` is `v` and `rest` if `good` holds and `v` fits, and an error otherwise. -/
def Reads (bits : ℕ) (good : Prop) (v : ℕ) (rest : Text) (lexed : Except ℤ (ℕ × Text)) : Prop :=
  (good ∧ v < 2 ^ bits → lexed = .ok (v, rest)) ∧
    (¬ (good ∧ v < 2 ^ bits) → ∃ ret, lexed = .error ret)

def Adds (isdig good : Char → Bool) (base bits : ℕ) (add : ℕ → Char → Except ℤ ℕ) : Prop :=
  ∀ v c, isdig c = true →
    (add v c = .ok (v * base + ordinal c) ∧ good c = true ∧ v * base + ordinal c < 2 ^ bits) ∨
      ((∃ ret, add v c = .error ret) ∧ ¬ (good c = true ∧ v * base + ordinal c < 2 ^ bits))

theorem safelyAdd_overflow {base augend addend : ℕ} (wide : 1 ≤ bits ∧ bits ≤ 64)
    (digits : 2 ≤ base ∧ base ≤ 256) (ordinal : addend < base)
    (large : 2 ^ bits ≤ augend * base + addend) :
    safelyAdd base bits augend addend = .error 1 := by
  have power : 2 ^ bits ≤ 2 ^ 64 := Nat.pow_le_pow_right (by decide) wide.2
  have positive : 0 < 2 ^ bits := Nat.two_pow_pos bits
  have ret : wouldOverflow bits augend addend base = 1 := by
    unfold wouldOverflow
    rw [if_neg (by omega), if_neg (by omega), if_neg (by omega), max_eq wide.2]
    dsimp only
    split_ifs with product sum
    · rfl
    · rfl
    · -- Neither the product nor the sum is past the maximum, so neither is the whole.
      rw [not_lt, Nat.le_div_iff_mul_le (by omega)] at product
      rw [Nat.mod_eq_of_lt (by omega : augend * base < 2 ^ 64)] at sum
      omega
  rw [safelyAdd, ret, if_pos (by decide)]

theorem adds_safelyAdd {isdig : Char → Bool} {base : ℕ} {add : ℕ → Char → Except ℤ ℕ}
    (wide : 1 ≤ bits ∧ bits ≤ 64) (digits : 2 ≤ base ∧ base ≤ 256)
    (small : ∀ c, isdig c = true → ordinal c < base)
    (same : ∀ v c, isdig c = true → add v c = safelyAdd base bits v (ordinal c)) :
    Adds isdig (fun _ => true) base bits add := by
  intro v c digit
  rw [same v c digit]
  rcases lt_or_ge (v * base + ordinal c) (2 ^ bits) with fits | large
  · exact .inl ⟨safelyAdd_eq wide digits (small c digit) fits, rfl, fits⟩
  · exact .inr ⟨⟨1, safelyAdd_overflow wide digits (small c digit) large⟩, fun h => absurd h.2 (by omega)⟩

theorem adds_dec (wide : 1 ≤ bits ∧ bits ≤ 64) :
    Adds isdigit (fun _ => true) 10 bits (safelyAddDec bits) :=
  adds_safelyAdd wide (by decide) (fun c digit => ordinal_of_isdigit digit ▸ toNat_digit digit)
    fun v c digit => by rw [safelyAddDec, ordinal_of_isdigit digit]

theorem adds_hex (wide : 1 ≤ bits ∧ bits ≤ 64) :
    Adds isxdigit (fun _ => true) 16 bits (safelyAddHex bits) :=
  adds_safelyAdd wide (by decide) (fun c digit => (ordinal_facts digit).1)
    fun v c digit => by
      simp only [safelyAddHex]
      rw [(ordinal_facts digit).2.1]

theorem adds_oct (wide : 1 ≤ bits ∧ bits ≤ 64) :
    Adds isdigit octal 8 bits (safelyAddOct bits) := by
  intro v c digit
  have isoct := (ordinal_facts (isxdigit_of_isdigit digit)).2.2
  simp only [safelyAddOct, ordinal_of_isdigit digit]
  by_cases small : ordinal c < 8
  · have good : octal c = true := isoct.mpr ⟨digit, small⟩
    rw [if_neg (by omega)]
    rcases lt_or_ge (v * 8 + ordinal c) (2 ^ bits) with fits | large
    · exact .inl ⟨safelyAdd_eq wide (by decide) small fits, good, fits⟩
    · exact .inr ⟨⟨1, safelyAdd_overflow wide (by decide) small large⟩, fun h => absurd h.2 (by omega)⟩
  · rw [if_pos (by omega)]
    exact .inr ⟨⟨-1, rfl⟩, fun h => small (isoct.mp h.1).2⟩

theorem addRun_stop {isdig : Char → Bool} {add : ℕ → Char → Except ℤ ℕ} {rest : Text}
    (stop : Stops isdig rest) (v : ℕ) : addRun isdig add v rest = .ok (v, rest) := by
  cases rest with
  | nil => rfl
  | cons c rest => simp [addRun, stop c (by simp)]

theorem addRun_reads {isdig good : Char → Bool} {base : ℕ} {add : ℕ → Char → Except ℤ ℕ}
    (adds : Adds isdig good base bits add) (pos : 0 < base) (digits : Text) {rest : Text}
    (stop : Stops isdig rest) (all : ∀ c ∈ digits, isdig c = true) {v : ℕ}
    (start : v < 2 ^ bits ∨ digits ≠ []) :
    Reads bits (∀ c ∈ digits, good c = true) (value base v digits) rest
      (addRun isdig add v (digits ++ rest)) := by
  induction digits generalizing v with
  | nil =>
    have fits : v < 2 ^ bits := start.resolve_right (not_not.mpr rfl)
    exact ⟨fun _ => addRun_stop stop v, fun h => absurd ⟨by simp, fits⟩ h⟩
  | cons c digits ih =>
    rw [List.cons_append, addRun, if_pos (all c (by simp)), value_cons]
    rcases adds v c (all c (by simp)) with ⟨sum, good_, fits⟩ | ⟨⟨ret, sum⟩, bad⟩
    · obtain ⟨ok, error⟩ := ih (fun d hd => all d (by simp [hd])) (.inl fits)
      rw [sum]
      constructor
      · exact fun h => ok ⟨fun d hd => h.1 d (by simp [hd]), h.2⟩
      · refine fun h => error fun h' => h ⟨?_, h'.2⟩
        rintro d (_ | ⟨_, later⟩)
        exacts [good_, h'.1 d later]
    · have larger := le_value pos (v * base + ordinal c) digits
      rw [sum]
      exact ⟨fun h => absurd ⟨h.1 c (by simp), lt_of_le_of_lt larger h.2⟩ bad, fun _ => ⟨ret, rfl⟩⟩

theorem Reads.congr {good good' : Prop} {v : ℕ} {rest : Text} {lexed : Except ℤ (ℕ × Text)}
    (reads : Reads bits good v rest lexed) (same : good ↔ good') : Reads bits good' v rest lexed := by
  rwa [Reads, ← same]

end Runs

section Forms

variable {bits val : ℕ} {buf rest digits : Text}

def ZeroForm (text rest : Text) : Prop :=
  (text = '0' :: rest ∧ ∀ c ∈ rest.head?, ¬ IsX c ∧ isdigit c = false) ∨
    text = '0' :: '0' :: rest ∨ ∃ x, IsX x ∧ text = '0' :: x :: '0' :: rest

theorem ends_head {c : Char} (end_ : Ends (c :: rest)) : ¬ IsX c ∧ isdigit c = false := by
  have mark := end_ c (by simp)
  constructor
  · rintro (rfl | rfl)
    all_goals exact absurd mark (by decide)
  · by_contra digit
    rw [Bool.not_eq_false] at digit
    rcases mark with punct | space
    · simp [ispunct, isalnum, digit] at punct
    · rw [isspace_of_isdigit digit] at space
      exact absurd space (by decide)

theorem lexUint_decimal (wide : 1 ≤ bits ∧ bits ≤ 64) (at_ : parseWhitespace buf = digits ++ rest)
    (some_ : digits ≠ []) (all : ∀ c ∈ digits, isdigit c = true) (lead : digits.head? ≠ some '0')
    (stop : Stops isdigit rest) :
    Reads bits True (value 10 0 digits) rest (lexUint bits val buf) := by
  have run : Reads bits True (value 10 0 digits) rest
      (addRun isdigit (safelyAddDec bits) 0 (digits ++ rest)) :=
    (addRun_reads (adds_dec wide) (by decide) digits stop all (.inr some_)).congr (by simp)
  have head : (digits ++ rest).head? ≠ some '0' := by
    rwa [List.head?_append_of_ne_nil _ some_]
  have longer : rest.length ≠ (digits ++ rest).length := by
    have := List.length_pos_iff.mpr some_
    rw [List.length_append]
    omega
  unfold lexUint
  simp only [at_]
  rw [if_neg head]
  constructor
  · intro fits
    simp only [run.1 fits, if_neg longer]
  · intro large
    obtain ⟨ret, error⟩ := run.2 large
    simp only [error]
    exact ⟨ret, rfl⟩

theorem reads_of_helper {text : Text} {good : Prop} {v : ℕ} (at_ : parseWhitespace buf = '0' :: text)
    (reads : Reads bits good v rest (lexUint0helper bits val text)) :
    Reads bits good v rest (lexUint bits val buf) := by
  unfold lexUint
  simp only [at_, List.head?_cons, if_true, List.tail_cons]
  constructor
  · intro fits
    rw [reads.1 fits]
  · intro large
    obtain ⟨ret, error⟩ := reads.2 large
    rw [error]
    exact ⟨1, rfl⟩

theorem lexZero_reads (rest : Text) : Reads bits (Ends rest) 0 rest (lexZero rest) := by
  have fits : 0 < 2 ^ bits := Nat.two_pow_pos bits
  unfold lexZero Ends Reads
  cases rest.head? with
  | none => simp [fits]
  | some c =>
    by_cases mark : ispunct c = true ∨ isspace c = true <;> simp [mark, fits]

theorem lexUint_zeroForm (zero : ZeroForm (parseWhitespace buf) rest) :
    Reads bits (Ends rest) 0 rest (lexUint bits val buf) := by
  rcases zero with ⟨at_, other⟩ | at_ | ⟨x, isx, at_⟩
  · refine reads_of_helper at_ ?_
    cases rest with
    | nil => exact lexZero_reads []
    | cons c rest =>
      obtain ⟨notx, digit⟩ := other c (by simp)
      have helper : lexUint0helper bits val (c :: rest) = lexZero (c :: rest) := by
        unfold IsX at notx
        rw [lexUint0helper, if_neg notx, if_neg (by simp [digit])]
      rw [helper]
      exact lexZero_reads _
  · exact reads_of_helper at_ (lexZero_reads rest)
  · refine reads_of_helper at_ ?_
    have helper : lexUint0helper bits val (x :: '0' :: rest) = lexZero rest := by
      unfold IsX at isx
      rw [lexUint0helper, if_pos isx, if_pos (by simp), List.tail_cons]
    rw [helper]
    exact lexZero_reads rest

theorem lexUint0helper_hex {x : Char} {text : Text} (isx : IsX x) (lead : text.head? ≠ some '0') :
    lexUint0helper bits val (x :: text) = addRun isxdigit (safelyAddHex bits) val text := by
  unfold IsX at isx
  rw [lexUint0helper, if_pos isx, if_neg lead]

theorem lexUint_hex (wide : 1 ≤ bits ∧ bits ≤ 64) {x : Char} (isx : IsX x)
    (at_ : parseWhitespace buf = '0' :: x :: (digits ++ rest)) (some_ : digits ≠ [])
    (all : ∀ c ∈ digits, isxdigit c = true) (lead : digits.head? ≠ some '0')
    (stop : Stops isxdigit rest) :
    Reads bits True (value 16 val digits) rest (lexUint bits val buf) := by
  refine reads_of_helper at_ ?_
  rw [lexUint0helper_hex isx (by rwa [List.head?_append_of_ne_nil _ some_])]
  exact (addRun_reads (adds_hex wide) (by decide) digits stop all (.inr some_)).congr (by simp)

theorem lexUint_bare {x : Char} (isx : IsX x) (at_ : parseWhitespace buf = '0' :: x :: rest)
    (stop : Stops isxdigit rest) : lexUint bits val buf = .ok (val, rest) := by
  have lead : rest.head? ≠ some '0' := fun zero => absurd (stop '0' zero) (by decide)
  have helper : lexUint0helper bits val (x :: rest) = addRun isxdigit (safelyAddHex bits) val rest :=
    lexUint0helper_hex isx lead
  rw [addRun_stop stop] at helper
  unfold lexUint
  simp only [at_, List.head?_cons, if_true, List.tail_cons, helper]

theorem lexUint_octal (wide : 1 ≤ bits ∧ bits ≤ 64)
    (at_ : parseWhitespace buf = '0' :: (digits ++ rest)) (some_ : digits ≠ [])
    (all : ∀ c ∈ digits, isdigit c = true) (lead : digits.head? ≠ some '0')
    (stop : Stops isdigit rest) :
    Reads bits (∀ c ∈ digits, octal c = true) (value 8 val digits) rest (lexUint bits val buf) := by
  refine reads_of_helper at_ ?_
  have run := addRun_reads (adds_oct wide) (by decide) digits stop all (v := val) (.inr some_)
  cases digits with
  | nil => exact absurd rfl some_
  | cons c digits =>
    have digit := all c (by simp)
    have notx : ¬ (c = 'x' ∨ c = 'X') := by
      rintro (rfl | rfl) <;> exact absurd digit (by decide)
    rw [List.cons_append] at run ⊢
    rwa [lexUint0helper, if_neg notx, if_pos digit, if_neg (by simpa using lead)]

theorem lexUint_none (other : Stops isdigit (parseWhitespace buf)) :
    ∃ ret, lexUint bits val buf = .error ret := by
  have head : (parseWhitespace buf).head? ≠ some '0' := fun zero =>
    absurd (other '0' zero) (by decide)
  unfold lexUint
  simp only [if_neg head, addRun_stop other, if_true]
  exact ⟨1, rfl⟩

end Forms

section Shapes

inductive Shape : Text → Prop
  | decimal {digits rest} (some_ : digits ≠ []) (all : ∀ c ∈ digits, isdigit c = true)
      (lead : digits.head? ≠ some '0') (stop : Stops isdigit rest) : Shape (digits ++ rest)
  | zero {text rest} (form : ZeroForm text rest) : Shape text
  | hex {x digits rest} (isx : IsX x) (all : ∀ c ∈ digits, isxdigit c = true)
      (lead : digits.head? ≠ some '0') (stop : Stops isxdigit rest) :
      Shape ('0' :: x :: (digits ++ rest))
  | octal {digits rest} (some_ : digits ≠ []) (all : ∀ c ∈ digits, isdigit c = true)
      (lead : digits.head? ≠ some '0') (stop : Stops isdigit rest) : Shape ('0' :: (digits ++ rest))
  | other {text} (other : Stops isdigit text) : Shape text

theorem stops_dropWhile (isdig : Char → Bool) (text : Text) : Stops isdig (text.dropWhile isdig) := by
  intro c head
  have stop := List.head?_dropWhile_not isdig text
  rw [Option.mem_def.mp head] at stop
  simpa using stop

theorem exists_run (isdig : Char → Bool) (text : Text) :
    ∃ digits rest, text = digits ++ rest ∧ (∀ c ∈ digits, isdig c = true) ∧ Stops isdig rest :=
  ⟨text.takeWhile isdig, text.dropWhile isdig, List.takeWhile_append_dropWhile.symm,
    fun _ inside => List.mem_takeWhile_imp inside, stops_dropWhile isdig text⟩

theorem shape_decimal {c : Char} (text : Text) (digit : isdigit c = true) (lead : c ≠ '0') :
    ∃ digits rest, c :: text = digits ++ rest ∧ digits ≠ [] ∧ (∀ d ∈ digits, isdigit d = true) ∧
      digits.head? ≠ some '0' ∧ Stops isdigit rest := by
  obtain ⟨digits, rest, cut, all, stop⟩ := exists_run isdigit (c :: text)
  cases digits with
  | nil =>
    rw [List.nil_append] at cut
    have := stop c (by simp [← cut])
    rw [digit] at this
    exact absurd this (by decide)
  | cons d digits =>
    obtain ⟨rfl, -⟩ := List.cons.inj cut
    exact ⟨_, _, cut, by simp, all, by simpa using lead, stop⟩

theorem shape (text : Text) : Shape text := by
  cases text with
  | nil => exact .other (by simp [Stops])
  | cons c text =>
  by_cases digit : isdigit c = true
  swap
  · exact .other (by simpa [Stops] using digit)
  by_cases lead : c = '0'
  swap
  · obtain ⟨digits, rest, cut, some_, all, head, stop⟩ := shape_decimal text digit lead
    rw [cut]
    exact .decimal some_ all head stop
  subst lead
  cases text with
  | nil => exact .zero (.inl ⟨rfl, by simp⟩)
  | cons d text =>
  by_cases isx : IsX d
  · by_cases zero : text.head? = some '0'
    · obtain ⟨rest, rfl⟩ : ∃ rest, text = '0' :: rest := by
        obtain ⟨e, rest, rfl⟩ := List.exists_cons_of_ne_nil (l := text) (by rintro rfl; simp at zero)
        exact ⟨rest, by simpa using zero⟩
      exact .zero (.inr (.inr ⟨d, isx, rfl⟩))
    · obtain ⟨digits, rest, rfl, all, stop⟩ := exists_run isxdigit text
      refine .hex isx all (fun head => zero ?_) stop
      rw [List.head?_append, head]
      rfl
  · by_cases digit₂ : isdigit d = true
    · by_cases zero : d = '0'
      · exact .zero (.inr (.inl (by rw [zero])))
      · obtain ⟨digits, rest, cut, some_, all, head, stop⟩ := shape_decimal text digit₂ zero
        rw [cut]
        exact .octal some_ all head stop
    · exact .zero (.inl ⟨rfl, by simpa using ⟨isx, Bool.eq_false_iff.mpr digit₂⟩⟩)

end Shapes

section Exactness

variable {bits : ℕ} {buf : Text}

/-- A prefix for hexadecimal digits without any digit behind it. -/
def BareHex (text : Text) : Prop := ∃ x rest, IsX x ∧ text = '0' :: x :: rest ∧ Stops isxdigit rest

theorem lexUint_token (wide : 1 ≤ bits ∧ bits ≤ 64) {text rest : Text} {v : ℕ}
    (token : Token text v rest) (at_ : parseWhitespace buf = text) (fits : v < 2 ^ bits) :
    lexUint bits 0 buf = .ok (v, rest) := by
  cases token with
  | decimal some_ all lead stop =>
    exact (lexUint_decimal wide at_ some_ all lead stop).1 ⟨trivial, fits⟩
  | zero end_ =>
    refine (lexUint_zeroForm (.inl ⟨at_, ?_⟩)).1 ⟨end_, fits⟩
    cases rest with
    | nil => simp
    | cons c rest => simpa using ends_head end_
  | doubleZero end_ => exact (lexUint_zeroForm (.inr (.inl at_))).1 ⟨end_, fits⟩
  | hexZero isx end_ => exact (lexUint_zeroForm (.inr (.inr ⟨_, isx, at_⟩))).1 ⟨end_, fits⟩
  | hex isx some_ all lead stop =>
    exact (lexUint_hex wide isx at_ some_ all lead stop).1 ⟨trivial, fits⟩
  | octal some_ all lead stop =>
    exact (lexUint_octal wide at_ some_ (fun c hc => isdigit_of_octal (all c hc)) lead stop).1
      ⟨all, fits⟩

theorem Reads.ok {good : Prop} {v : ℕ} {rest : Text} {lexed : Except ℤ (ℕ × Text)}
    (reads : Reads bits good v rest lexed) {q : ℕ × Text} (ok : lexed = .ok q) :
    good ∧ v < 2 ^ bits ∧ q = (v, rest) := by
  by_cases fits : good ∧ v < 2 ^ bits
  · exact ⟨fits.1, fits.2, Except.ok.inj (ok.symm.trans (reads.1 fits))⟩
  · obtain ⟨ret, error⟩ := reads.2 fits
    rw [ok] at error
    exact absurd error (by simp)

theorem token_of_zeroForm {text rest : Text} (zero : ZeroForm text rest) (end_ : Ends rest) :
    Token text 0 rest := by
  rcases zero with ⟨rfl, -⟩ | rfl | ⟨x, isx, rfl⟩
  · exact .zero end_
  · exact .doubleZero end_
  · exact .hexZero isx end_

/-- Whatever is accepted is a numeral that fits, but for the bare prefix. -/
theorem token_of_lexUint (wide : 1 ≤ bits ∧ bits ≤ 64) {text : Text} (at_ : parseWhitespace buf = text)
    (bare : ¬ BareHex text) {q : ℕ × Text} (ok : lexUint bits 0 buf = .ok q) :
    Token text q.1 q.2 ∧ q.1 < 2 ^ bits := by
  cases shape text with
  | decimal some_ all lead stop =>
    obtain ⟨-, fits, rfl⟩ := (lexUint_decimal wide at_ some_ all lead stop).ok ok
    exact ⟨.decimal some_ all lead stop, fits⟩
  | zero form =>
    have reads : Reads bits _ 0 _ (lexUint bits 0 buf) := lexUint_zeroForm (at_.symm ▸ form)
    obtain ⟨end_, fits, rfl⟩ := reads.ok ok
    exact ⟨token_of_zeroForm form end_, fits⟩
  | @hex x digits rest isx all lead stop =>
    have some_ : digits ≠ [] := fun none_ => bare ⟨x, rest, isx, by rw [none_]; rfl, stop⟩
    obtain ⟨-, fits, rfl⟩ := (lexUint_hex wide isx at_ some_ all lead stop).ok ok
    exact ⟨.hex isx some_ all lead stop, fits⟩
  | octal some_ all lead stop =>
    obtain ⟨good, fits, rfl⟩ := (lexUint_octal wide at_ some_ all lead stop).ok ok
    exact ⟨.octal some_ good lead stop, fits⟩
  | other other =>
    have refused : ∃ ret, lexUint bits 0 buf = .error ret := lexUint_none (at_ ▸ other)
    obtain ⟨ret, error⟩ := refused
    rw [ok] at error
    exact absurd error (by simp)

theorem not_token_of_bare {text rest : Text} {v : ℕ} (bare : BareHex text) : ¬ Token text v rest := by
  obtain ⟨x, tail, isx, at_, stop⟩ := bare
  have notdigit : isdigit x = false := by
    rcases isx with rfl | rfl <;> decide
  have first : ∀ {digits rest : Text}, digits ≠ [] → ∀ {c : Char} {text : Text},
      digits ++ rest = c :: text → c ∈ digits ∧ digits.head? = some c := by
    intro digits rest some_ c text cut
    obtain ⟨d, digits, rfl⟩ := List.exists_cons_of_ne_nil some_
    obtain ⟨rfl, -⟩ := List.cons.inj cut
    simp
  intro token
  cases token with
  | decimal some_ all lead stop' => exact lead (first some_ at_).2
  | zero end_ =>
    obtain ⟨-, rfl⟩ := List.cons.inj at_
    exact (ends_head end_).1 isx
  | doubleZero end_ =>
    obtain ⟨rfl, -⟩ := List.cons.inj (List.cons.inj at_).2
    exact absurd notdigit (by decide)
  | hexZero isx' end_ =>
    obtain ⟨-, rfl⟩ := List.cons.inj (List.cons.inj at_).2
    exact absurd (stop '0' (by simp)) (by decide)
  | @hex x' digits rest isx' some_ all lead stop' =>
    obtain ⟨d, digits, rfl⟩ := List.exists_cons_of_ne_nil some_
    obtain ⟨-, rfl⟩ := List.cons.inj (List.cons.inj at_).2
    exact Bool.false_ne_true ((stop d (by simp)).symm.trans (all d (by simp)))
  | octal some_ all lead stop' =>
    have digit := isdigit_of_octal (all x (first some_ (List.cons.inj at_).2).1)
    exact Bool.false_ne_true (notdigit.symm.trans digit)

end Exactness

namespace Pointers

theorem Width.wide (w : Width) : 1 ≤ w.bits ∧ w.bits ≤ 64 := by
  cases w <;> decide

/-- A numeral below `2 ^ N` is stored and passed over; any other text is an error,
with both variables as they were. -/
structure LexesTokens (w : Width) (buf : Text) (val : ℕ) : Prop where
  accepted : ∀ v rest, Token (parseWhitespace buf) v rest → v < 2 ^ w.bits →
    lexU w buf val = ⟨0, rest, v⟩
  rejected : (¬ ∃ v rest, Token (parseWhitespace buf) v rest ∧ v < 2 ^ w.bits) →
    (lexU w buf val).ret ≠ 0 ∧ (lexU w buf val).buf = buf ∧ (lexU w buf val).val = val

theorem lexU_of_ok {w : Width} {buf rest : Text} {v : ℕ}
    (ok : Lexers.lexUint w.bits 0 buf = .ok (v, rest)) (fits : v < 2 ^ w.bits) (val : ℕ) :
    lexU w buf val = ⟨0, rest, v⟩ := by
  have agrees := lexUint_agrees w.bits 0 buf
  rw [ok] at agrees
  have same : lexUint w.bits 0 buf = ⟨0, rest, v⟩ := agrees
  simp only [lexU, same, if_true, Nat.mod_eq_of_lt fits]

theorem lexU_of_error {w : Width} {buf : Text} {ret : ℤ}
    (error : Lexers.lexUint w.bits 0 buf = .error ret) (val : ℕ) :
    (lexU w buf val).ret ≠ 0 ∧ (lexU w buf val).buf = buf ∧ (lexU w buf val).val = val := by
  have agrees := lexUint_agrees w.bits 0 buf
  rw [error] at agrees
  obtain ⟨code, back⟩ := agrees
  simp only [lexU, if_neg code]
  exact ⟨code, back, trivial⟩

theorem lexU_bare {w : Width} {buf : Text} (bare : BareHex (parseWhitespace buf)) (val : ℕ) :
    (lexU w buf val).ret = 0 := by
  obtain ⟨x, rest, isx, at_, stop⟩ := bare
  rw [lexU_of_ok (lexUint_bare isx at_ stop) (Nat.two_pow_pos _)]

theorem lexU_exact_iff (w : Width) (buf : Text) (val : ℕ) :
    LexesTokens w buf val ↔ ¬ BareHex (parseWhitespace buf) := by
  constructor
  · intro exact_ bare
    refine (exact_.rejected ?_).1 (lexU_bare bare val)
    rintro ⟨v, rest, token, -⟩
    exact not_token_of_bare bare token
  · intro bare
    refine ⟨fun v rest token fits => lexU_of_ok (lexUint_token w.wide token rfl fits) fits val, ?_⟩
    intro none_
    cases lexed : Lexers.lexUint w.bits 0 buf with
    | ok q => exact absurd ⟨q.1, q.2, token_of_lexUint w.wide rfl bare lexed⟩ none_
    | error ret => exact lexU_of_error lexed val

theorem bare_prefix_accepted : ¬ LexesTokens .w8 "0x".toList 1 := by
  have zero : (lexU .w8 "0x".toList 1).ret = 0 := by decide
  intro exact_
  refine (exact_.rejected ?_).1 zero
  rintro ⟨v, rest, token, -⟩
  exact not_token_of_bare ⟨'x', [], .inl rfl, by decide, by simp [Stops]⟩ token

end Pointers

end Libdank.Lexers
