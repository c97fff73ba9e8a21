import Libdank.Addresses
import Libdank.IpSet.Canonical
import Libdank.IpSet.Parse

/-! What the notations for address ranges mean, and where `parse_ipv4range`
departs from it. -/
namespace Libdank.IpSet
open Parse

structure Numeral where
  negative : Bool
  digits : Text
  nonempty : digits ≠ []
  decimal_digits : ∀ c ∈ digits, isdigit c = true
  signed : negative = true → decimal digits ≠ 0

def Numeral.text (n : Numeral) : Text := if n.negative then '-' :: n.digits else n.digits

def Numeral.value (n : Numeral) : ℤ :=
  if n.negative then -(decimal n.digits : ℤ) else decimal n.digits

/-- What `%d` stores of a number. -/
def storedInt (value : ℤ) : ℤ := (max (-2 ^ 63) (min (2 ^ 63 - 1) value)).bmod (2 ^ 32)

inductive Joint where
  | dash
  | colon
deriving DecidableEq, Repr

def Joint.char : Joint → Char
  | dash => '-'
  | colon => ':'

inductive RangeText where
  | single (a : UInt32)
  | block (a : UInt32) (n : Numeral)
  | closed (a : UInt32) (joint : Joint) (b : UInt32)
  | upwards (a : UInt32) (joint : Joint)
  | downwards (joint : Joint) (a : UInt32)

def RangeText.text : RangeText → Text
  | single a => dottedQuad a
  | block a n => dottedQuad a ++ '/' :: n.text
  | closed a joint b => dottedQuad a ++ joint.char :: dottedQuad b
  | upwards a joint => dottedQuad a ++ [joint.char]
  | downwards joint a => joint.char :: dottedQuad a

def blockRange (a : UInt32) (n : ℕ) : Iprange :=
  ⟨UInt32.ofNat (a.toNat / 2 ^ (32 - n) * 2 ^ (32 - n)),
    UInt32.ofNat (a.toNat / 2 ^ (32 - n) * 2 ^ (32 - n) + (2 ^ (32 - n) - 1))⟩

def RangeText.meaning : RangeText → Option Iprange
  | single a => some ⟨a, a⟩
  | block a n =>
    if 0 ≤ n.value ∧ n.value ≤ 32 then some (blockRange a n.value.toNat) else none
  | closed a _ b => some ⟨min a b, max a b⟩
  | upwards a _ => some ⟨a, 0xffffffff⟩
  | downwards _ a => some ⟨0, a⟩

/-- An upper end alone is stored in network byte order, so its octets must read
the same both ways; and a prefix length is not bounded, so only one that
overflows to a negative number is refused. -/
def RangeText.Met : RangeText → Prop
  | block _ n => n.value ≤ 32 ∨ storedInt n.value < 0
  | downwards _ a => octet a 3 = octet a 0 ∧ octet a 2 = octet a 1
  | _ => True

def rangeEnd (c : Char) : Bool := isspace c || c = ',' || c = ']' || c = '@'

def Ends (rest : Text) : Prop := ∀ c ∈ rest.head?, rangeEnd c = true

theorem block_end_lt (a : UInt32) (n : ℕ) :
    a.toNat / 2 ^ (32 - n) * 2 ^ (32 - n) + (2 ^ (32 - n) - 1) < 2 ^ 32 := by
  have fits := a.toNat_lt
  have pos : 0 < 2 ^ (32 - n) := Nat.two_pow_pos _
  have whole : 2 ^ 32 = 2 ^ (32 - (32 - n)) * 2 ^ (32 - n) := by
    rw [← pow_add]
    congr 1
    omega
  have below : a.toNat / 2 ^ (32 - n) + 1 ≤ 2 ^ (32 - (32 - n)) := by
    rw [Nat.succ_le_iff, Nat.div_lt_iff_lt_mul pos, ← whole]
    exact fits
  have := Nat.mul_le_mul_right (2 ^ (32 - n)) below
  rw [← whole, Nat.add_mul, one_mul] at this
  omega

theorem blockRange_lower (a : UInt32) (n : ℕ) :
    (blockRange a n).lower.toNat = a.toNat / 2 ^ (32 - n) * 2 ^ (32 - n) :=
  UInt32.toNat_ofNat_of_lt' (lt_of_le_of_lt (Nat.le_add_right _ _) (block_end_lt a n))

theorem blockRange_upper (a : UInt32) (n : ℕ) :
    (blockRange a n).upper.toNat = a.toNat / 2 ^ (32 - n) * 2 ^ (32 - n) + (2 ^ (32 - n) - 1) :=
  UInt32.toNat_ofNat_of_lt' (block_end_lt a n)

theorem mem_blockRange (a x : UInt32) (n : ℕ) :
    x ∈ (blockRange a n).addresses ↔ x.toNat / 2 ^ (32 - n) = a.toNat / 2 ^ (32 - n) := by
  rw [mem_range_addresses, SeparatedRanges.Span.mem_points, span_lo, span_hi, blockRange_lower,
    blockRange_upper]
  have pos : 0 < 2 ^ (32 - n) := Nat.two_pow_pos _
  rw [Nat.div_eq_iff pos, Nat.add_sub_assoc pos]

theorem and_ones_shift {a c : ℕ} (fits : a < 2 ^ 32) :
    a &&& (2 ^ 32 - 1) <<< c % 2 ^ 32 = a / 2 ^ c * 2 ^ c := by
  rw [← Nat.shiftRight_eq_div_pow, ← Nat.shiftLeft_eq]
  refine Nat.eq_of_testBit_eq fun j => ?_
  rw [Nat.testBit_and, Nat.testBit_mod_two_pow, Nat.testBit_shiftLeft, Nat.testBit_two_pow_sub_one,
    Nat.testBit_shiftLeft, Nat.testBit_shiftRight]
  by_cases low : c ≤ j
  · rw [Nat.add_sub_cancel' low]
    by_cases high : j < 32
    · simp [low, high, show j - c < 32 by omega]
    · have zero : a.testBit j = false :=
        Nat.testBit_lt_two_pow (lt_of_lt_of_le fits (Nat.pow_le_pow_right (by decide) (by omega)))
      simp [zero]
  · simp [low]

theorem toNat_count {n : ℕ} (le : n ≤ 32) : (UInt32.ofInt (32 - n)).toNat = 32 - n := by
  have whole : (32 - n : ℤ) = ((32 - n : ℕ) : ℤ) := by omega
  rw [whole, UInt32.ofInt]
  simp only [UInt32.toNat_ofNat']
  omega

theorem prefixRange_eq (lower : UInt32) {n : ℕ} (le : n ≤ 32) :
    prefixRange lower n = some (blockRange lower n) := by
  rcases Nat.eq_zero_or_pos n with rfl | pos
  · have none_ : lower.toNat / 2 ^ 32 = 0 := Nat.div_eq_of_lt lower.toNat_lt
    have all : blockRange lower 0 = ⟨0, 0xffffffff⟩ := by
      simp only [blockRange, Nat.sub_zero, none_]
      rfl
    rw [all]
    rfl
  · have count := toNat_count le
    have mask : (lower &&& (0xffffffff : UInt32) <<< UInt32.ofInt (32 - n)).toNat =
        (blockRange lower n).lower.toNat := by
      rw [UInt32.toNat_and, UInt32.toNat_shiftLeft, count, Nat.mod_eq_of_lt (by omega : 32 - n < 32),
        blockRange_lower]
      exact and_ones_shift lower.toNat_lt
    have ones : ((1 : UInt32) <<< UInt32.ofInt (32 - n) - 1).toNat = 2 ^ (32 - n) - 1 := by
      have inside : 2 ^ (32 - n) < 2 ^ 32 := Nat.pow_lt_pow_right (by decide) (by omega)
      have first : 0 < 2 ^ (32 - n) := Nat.two_pow_pos _
      have shifted : ((1 : UInt32) <<< UInt32.ofInt (32 - n)).toNat = 2 ^ (32 - n) := by
        rw [UInt32.toNat_shiftLeft, count, Nat.mod_eq_of_lt (by omega : 32 - n < 32),
          Nat.shiftLeft_eq, Nat.mod_eq_of_lt] <;> simp
        exact inside
      rw [UInt32.toNat_sub_of_le _ _ (UInt32.le_iff_toNat_le.mpr (shifted ▸ first)), shifted]
      rfl
    have lower_ : lower &&& (0xffffffff : UInt32) <<< UInt32.ofInt (32 - n) =
        (blockRange lower n).lower := UInt32.toNat_inj.mp mask
    have upper : (blockRange lower n).lower ||| ((1 : UInt32) <<< UInt32.ofInt (32 - n) - 1) =
        (blockRange lower n).upper := by
      refine UInt32.toNat_inj.mp ?_
      rw [UInt32.toNat_or, ones, blockRange_lower, blockRange_upper, mul_comm,
        Nat.two_pow_add_eq_or_of_lt (Nat.sub_lt (Nat.two_pow_pos _) one_pos)]
    rw [prefixRange, if_pos (by omega)]
    simp only [lower_, upper]

theorem rangeEnd_other {c : Char} (stop : rangeEnd c = true) :
    quadChar c = false ∧ c ≠ '/' ∧ c ≠ '-' ∧ c ≠ ':' := by
  simp only [rangeEnd, isspace, Bool.or_eq_true, decide_eq_true_eq] at stop
  simp only [or_assoc] at stop
  rcases stop with rfl | rfl | rfl | rfl | rfl | rfl | rfl | rfl | rfl
  all_goals decide

theorem Ends.head_other {rest : Text} (ends : Ends rest) :
    (∀ c ∈ rest.head?, quadChar c = false) ∧ rest.head? ≠ some '/' ∧ rest.head? ≠ some '-' ∧
      rest.head? ≠ some ':' := by
  cases rest with
  | nil => simp
  | cons c rest =>
    obtain ⟨quad, slash, dash, colon⟩ := rangeEnd_other (ends c rfl)
    simp [quad, slash, dash, colon]

theorem isdigit_of_quadChar {c : Char} (other : quadChar c = false) : isdigit c = false := by
  rw [quadChar, Bool.or_eq_false_iff] at other
  exact other.1

theorem Joint.not_quad (joint : Joint) : quadChar joint.char = false := by
  cases joint <;> decide

theorem scanInt_negative {digits rest : Text} (nonempty : digits ≠ [])
    (all : ∀ c ∈ digits, isdigit c = true) (stop : ∀ c ∈ rest.head?, isdigit c = false) :
    scanInt ('-' :: digits ++ rest) = some (storedInt (-(decimal digits : ℤ))) := by
  have here : parseWhitespace ('-' :: (digits ++ rest)) = '-' :: (digits ++ rest) :=
    parseWhitespace_of_head (by simp [isspace])
  rw [List.cons_append, scanInt, here]
  simp [takeWhile_append_stop all stop, nonempty, storedInt]

theorem scanInt_digits {digits rest : Text} (nonempty : digits ≠ [])
    (all : ∀ c ∈ digits, isdigit c = true) (stop : ∀ c ∈ rest.head?, isdigit c = false) :
    parseWhitespace (digits ++ rest) = digits ++ rest ∧
    scanInt (digits ++ rest) = some (storedInt (decimal digits)) := by
  obtain ⟨c, tail, rfl⟩ := List.exists_cons_of_ne_nil nonempty
  have digit := all c (by simp)
  have here : parseWhitespace (c :: tail ++ rest) = c :: tail ++ rest :=
    parseWhitespace_of_head (by simp [Lexers.isspace_of_isdigit digit])
  have minus : c ≠ '-' := by rintro rfl; exact absurd digit (by decide)
  have plus : c ≠ '+' := by rintro rfl; exact absurd digit (by decide)
  refine ⟨here, ?_⟩
  rw [scanInt, here]
  have run := takeWhile_append_stop all stop
  rw [List.cons_append] at run
  simp [minus, plus, run, storedInt]

theorem rangeDone_ends {text rest : Text} (ends : Ends rest) (ir : Iprange) :
    rangeDone (text ++ rest) rest ir = some (text.length, ir) := by
  cases rest with
  | nil => simp [rangeDone]
  | cons c rest =>
    have stop : (isspace c || c = ',' || c = ']' || c = '@') = true := ends c rfl
    simp only [rangeDone, stop, if_true, List.length_append, Nat.add_sub_cancel]

section Reading

variable {inetPton : Text → Option UInt32} (inverse : ∀ s, inetPton (inetNtop s) = some s)

include inverse

theorem parseIpv4range_quad (a : UInt32) {buf : Text} (stop : ∀ c ∈ buf.head?, quadChar c = false) :
    parseIpv4range inetPton (dottedQuad a ++ buf) =
      if buf.head? = some '/' then
        (scanInt (parseWhitespace buf.tail)).bind fun i => (prefixRange a i).bind fun ir =>
          rangeDone (dottedQuad a ++ buf) ((parseWhitespace buf.tail).dropWhile isdigit) ir
      else if buf.head? = some '-' ∨ buf.head? = some ':' then
        if (buf.tail.head?.map isdigit).getD false then
          (parseIpv4address inetPton buf.tail).bind fun (i, upper) =>
            rangeDone (dottedQuad a ++ buf) (buf.tail.drop i)
              (if a > ntohl upper then ⟨ntohl upper, a⟩ else ⟨a, ntohl upper⟩)
        else rangeDone (dottedQuad a ++ buf) buf.tail ⟨a, htonl 0xffffffff⟩
      else rangeDone (dottedQuad a ++ buf) buf ⟨a, a⟩ := by
  have first : ¬ ((dottedQuad a ++ buf).head? = some '-' ∨ (dottedQuad a ++ buf).head? = some ':') := by
    obtain ⟨c, tail, shape, digit⟩ := dottedQuad_shape a
    rw [shape]
    rintro (h | h)
    all_goals
      obtain rfl := Option.some.inj h
      exact absurd digit (by decide)
  rw [parseIpv4range, parseWhitespace_dottedQuad]
  simp only [if_neg first, parseIpv4address_dottedQuad inverse a stop, Option.bind_some,
    List.drop_left, ntohl_htonl]

variable {rest : Text} (ends : Ends rest)

include ends

theorem parse_single (a : UInt32) :
    parseIpv4range inetPton (dottedQuad a ++ rest) = some ((dottedQuad a).length, ⟨a, a⟩) := by
  obtain ⟨stop, slash, dash, colon⟩ := ends.head_other
  rw [parseIpv4range_quad inverse a stop, if_neg slash, if_neg (by simp [dash, colon]),
    rangeDone_ends ends]

theorem parse_upwards (a : UInt32) (joint : Joint) :
    parseIpv4range inetPton (dottedQuad a ++ [joint.char] ++ rest) =
      some ((dottedQuad a ++ [joint.char]).length, ⟨a, 0xffffffff⟩) := by
  obtain ⟨stop, -⟩ := ends.head_other
  have digit : ¬ (rest.head?.map isdigit).getD false = true := by
    cases rest with
    | nil => simp
    | cons c rest => simp [isdigit_of_quadChar (stop c rfl)]
  rw [List.append_assoc, List.singleton_append,
    parseIpv4range_quad inverse a (by simp [joint.not_quad]), List.head?_cons, List.tail_cons,
    if_neg (by cases joint <;> decide), if_pos (by cases joint <;> decide), if_neg digit,
    ← List.singleton_append, ← List.append_assoc, rangeDone_ends ends]
  rfl

theorem parse_closed (a b : UInt32) (joint : Joint) :
    parseIpv4range inetPton (dottedQuad a ++ joint.char :: dottedQuad b ++ rest) =
      some ((dottedQuad a ++ joint.char :: dottedQuad b).length, ⟨min a b, max a b⟩) := by
  obtain ⟨stop, -⟩ := ends.head_other
  have digit : ((dottedQuad b ++ rest).head?.map isdigit).getD false = true := by
    obtain ⟨c, tail, shape, digit⟩ := dottedQuad_shape b
    simp [shape, digit]
  have sorted : (if a > b then (⟨b, a⟩ : Iprange) else ⟨a, b⟩) = ⟨min a b, max a b⟩ := by
    have lower : min a b = if a ≤ b then a else b := rfl
    have upper : max a b = if a ≤ b then b else a := rfl
    rw [lower, upper]
    by_cases swap : a > b
    · rw [if_pos swap, if_neg (UInt32.not_le.mpr swap), if_neg (UInt32.not_le.mpr swap)]
    · rw [if_neg swap, if_pos (UInt32.not_lt.mp swap), if_pos (UInt32.not_lt.mp swap)]
  rw [List.append_assoc, List.cons_append,
    parseIpv4range_quad inverse a (by simp [joint.not_quad]), List.head?_cons, List.tail_cons,
    if_neg (by cases joint <;> decide), if_pos (by cases joint <;> decide), if_pos digit,
    parseIpv4address_dottedQuad inverse b stop]
  simp only [Option.bind_some, List.drop_left, ntohl_htonl, sorted]
  rw [← List.cons_append, ← List.append_assoc, rangeDone_ends ends]

theorem parse_downwards (a : UInt32) (joint : Joint) :
    parseIpv4range inetPton (joint.char :: dottedQuad a ++ rest) =
      some ((joint.char :: dottedQuad a).length, ⟨0, htonl a⟩) := by
  obtain ⟨stop, -⟩ := ends.head_other
  have here : parseWhitespace (joint.char :: (dottedQuad a ++ rest)) =
      joint.char :: (dottedQuad a ++ rest) :=
    parseWhitespace_of_head (by cases joint <;> simp [Joint.char, isspace])
  rw [parseIpv4range, List.cons_append, here]
  simp only [List.head?_cons, List.tail_cons]
  rw [if_pos (by cases joint <;> decide), parseIpv4address_dottedQuad inverse a stop]
  simp only [Option.bind_some, List.drop_left]
  rw [← List.cons_append, rangeDone_ends ends]

theorem parse_digits (a : UInt32) {digits : Text} (nonempty : digits ≠ [])
    (all : ∀ c ∈ digits, isdigit c = true) :
    parseIpv4range inetPton (dottedQuad a ++ '/' :: digits ++ rest) =
      (prefixRange a (storedInt (decimal digits))).map fun ir =>
        ((dottedQuad a ++ '/' :: digits).length, ir) := by
  obtain ⟨stop, -⟩ := ends.head_other
  have after : ∀ c ∈ rest.head?, isdigit c = false := fun c hc => isdigit_of_quadChar (stop c hc)
  obtain ⟨here, number⟩ := scanInt_digits nonempty all after
  have skipped : (digits ++ rest).dropWhile isdigit = rest := by
    rw [List.dropWhile_append_of_pos all]
    cases rest with
    | nil => rfl
    | cons c rest => exact List.dropWhile_cons_of_neg (by simp [after c rfl])
  rw [List.append_assoc, List.cons_append, parseIpv4range_quad inverse a (by simp; decide),
    List.head?_cons, List.tail_cons, if_pos rfl, here, number, Option.bind_some, skipped]
  rw [← List.cons_append, ← List.append_assoc]
  simp only [rangeDone_ends ends]
  exact (Option.map_eq_bind).symm

theorem parse_signed (a : UInt32) {digits : Text} (nonempty : digits ≠ [])
    (all : ∀ c ∈ digits, isdigit c = true) :
    parseIpv4range inetPton (dottedQuad a ++ '/' :: '-' :: digits ++ rest) = none := by
  obtain ⟨stop, -⟩ := ends.head_other
  have after : ∀ c ∈ rest.head?, isdigit c = false := fun c hc => isdigit_of_quadChar (stop c hc)
  have here : parseWhitespace ('-' :: digits ++ rest) = '-' :: digits ++ rest :=
    parseWhitespace_of_head (by simp [isspace])
  have unskipped : ('-' :: digits ++ rest).dropWhile isdigit = '-' :: digits ++ rest :=
    List.dropWhile_cons_of_neg (by decide)
  rw [List.append_assoc, List.cons_append, parseIpv4range_quad inverse a (by simp; decide),
    List.head?_cons, List.tail_cons, if_pos rfl, here, unskipped,
    scanInt_negative nonempty all after, Option.bind_some]
  cases prefixRange a (storedInt (-(decimal digits : ℤ))) with
  | none => rfl
  | some ir => simp [rangeDone, isspace]

end Reading

theorem storedInt_small {v : ℤ} (low : 0 ≤ v) (high : v ≤ 32) : storedInt v = v := by
  rw [storedInt, min_eq_right (by omega), max_eq_right (by omega)]
  exact Int.bmod_eq_of_le (by omega) (by omega)

theorem prefixRange_isSome (lower : UInt32) (i : ℤ) : (prefixRange lower i).isSome ↔ 0 ≤ i := by
  unfold prefixRange
  split_ifs <;> simp <;> omega

theorem prefixRange_ordered {lower : UInt32} {i : ℤ} {ir : Iprange}
    (range : prefixRange lower i = some ir) : ir.lower ≤ ir.upper := by
  unfold prefixRange at range
  split_ifs at range
  · obtain rfl := Option.some.inj range
    rw [UInt32.le_iff_toNat_le, UInt32.toNat_or]
    exact Nat.left_le_or
  · obtain rfl := Option.some.inj range
    decide

theorem rangeDone_range {start buf : Text} {ir ir' : Iprange} {n : ℕ}
    (done : rangeDone start buf ir = some (n, ir')) : ir' = ir := by
  unfold rangeDone at done
  split at done
  · simpa using (congrArg (Option.map Prod.snd) done).symm
  · split_ifs at done
    simpa using (congrArg (Option.map Prod.snd) done).symm

theorem le_last (a : UInt32) : a ≤ htonl 0xffffffff := by
  have last : htonl 0xffffffff = 0xffffffff := by decide
  have fits := a.toNat_lt
  rw [last, UInt32.le_iff_toNat_le]
  simp only [UInt32.reduceToNat]
  omega

theorem parseIpv4range_ordered {inetPton : Text → Option UInt32} {text : Text} {n : ℕ} {ir : Iprange}
    (accepted : parseIpv4range inetPton text = some (n, ir)) : ir.lower ≤ ir.upper := by
  unfold parseIpv4range at accepted
  simp only [Option.bind_eq_some_iff, Prod.exists, apply_ite (fun o => o = some (n, ir))] at accepted
  split_ifs at accepted with below
  · obtain ⟨_, upper, -, done⟩ := accepted
    rw [rangeDone_range done]
    exact UInt32.zero_le
  · obtain ⟨_, lower, -, follows⟩ := accepted
    split_ifs at follows with slash joint digit
    · obtain ⟨_, -, range, block, done⟩ := follows
      rw [rangeDone_range done]
      exact prefixRange_ordered block
    · obtain ⟨_, upper, -, done⟩ := follows
      rw [rangeDone_range done]
      split_ifs with swap
      · exact UInt32.le_of_lt swap
      · exact UInt32.not_lt.mp swap
    · rw [rangeDone_range follows]
      exact le_last (ntohl lower)
    · rw [rangeDone_range follows]
      exact UInt32.le_refl _

def Denotes (inetPton : Text → Option UInt32) (range : RangeText) (rest : Text) : Prop :=
  parseIpv4range inetPton (range.text ++ rest) =
    range.meaning.map fun ir => (range.text.length, ir)

theorem denotes_block_iff {inetPton : Text → Option UInt32}
    (inverse : ∀ s, inetPton (inetNtop s) = some s) {rest : Text} (ends : Ends rest) (a : UInt32)
    (n : Numeral) :
    Denotes inetPton (.block a n) rest ↔ n.value ≤ 32 ∨ storedInt n.value < 0 := by
  obtain ⟨negative, digits, nonempty, all, signed⟩ := n
  cases negative with
  | true =>
    have nonzero := signed rfl
    have below : ¬ (0 ≤ -(decimal digits : ℤ) ∧ -(decimal digits : ℤ) ≤ 32) := by omega
    have refused : Denotes inetPton (.block a ⟨true, digits, nonempty, all, signed⟩) rest := by
      simp only [Denotes, RangeText.text, RangeText.meaning, Numeral.text, Numeral.value, if_true,
        if_neg below, Option.map_none]
      exact parse_signed inverse ends a nonempty all
    refine iff_of_true refused (.inl ?_)
    simp only [Numeral.value, if_true]
    omega
  | false =>
    simp only [Denotes, RangeText.text, RangeText.meaning, Numeral.text, Numeral.value,
      Bool.false_eq_true, if_false, parse_digits inverse ends a nonempty all]
    by_cases small : (decimal digits : ℤ) ≤ 32
    · rw [if_pos ⟨Int.natCast_nonneg _, small⟩, storedInt_small (Int.natCast_nonneg _) small,
        prefixRange_eq a (by omega)]
      simp [small]
    · rw [if_neg fun h => small h.2, Option.map_none, Option.map_eq_none_iff]
      have refused := prefixRange_isSome a (storedInt (decimal digits))
      rw [← Option.not_isSome_iff_eq_none, refused]
      simp [small]

/-- What is accepted runs upwards; and a text followed by a terminator is read as
it means, but for an upper end alone and for prefix lengths past 32. -/
theorem parseIpv4range_denotes_iff {inetPton : Text → Option UInt32}
    (inverse : ∀ s, inetPton (inetNtop s) = some s) :
    (∀ (text : Text) (n : ℕ) (ir : Iprange), parseIpv4range inetPton text = some (n, ir) →
      ir.lower ≤ ir.upper) ∧
    ∀ (range : RangeText) (rest : Text), Ends rest → (Denotes inetPton range rest ↔ range.Met) := by
  refine ⟨fun text n ir => parseIpv4range_ordered, fun range rest ends => ?_⟩
  cases range with
  | single a => exact iff_of_true (parse_single inverse ends a) trivial
  | block a n => exact denotes_block_iff inverse ends a n
  | closed a joint b => exact iff_of_true (parse_closed inverse ends a b joint) trivial
  | upwards a joint => exact iff_of_true (parse_upwards inverse ends a joint) trivial
  | downwards joint a =>
    rw [RangeText.Met, ← htonl_eq_self_iff]
    have read := parse_downwards inverse ends a joint
    simp [Denotes, RangeText.text, RangeText.meaning, List.cons_append] at read ⊢
    rw [read]
    simp

/-- Nine octets read as they are written, and three bits. -/
theorem parseIpv4range_denotes_block :
    Denotes dottedPton (.block 0x0a0b0c0d ⟨false, ['2', '4'], by decide, by simp [isdigit], by decide⟩) [','] :=
  ((parseIpv4range_denotes_iff dottedPton_inetNtop).2 _ _ (by simp [Ends, rangeEnd])).mpr
    (.inl (by decide))

/-- An upper end alone comes out with its octets reversed, and a prefix of 33
bits is accepted. -/
theorem parseIpv4range_reverses :
    parseIpv4range dottedPton ['-', '1', '.', '2', '.', '3', '.', '4'] = some (8, ⟨0, 0x04030201⟩) ∧
      ¬ Denotes dottedPton (.downwards .dash 0x01020304) [] ∧
      (parseIpv4range dottedPton ['1', '.', '2', '.', '3', '.', '4', '/', '3', '3']).isSome ∧
      ¬ Denotes dottedPton (.block 0x01020304 ⟨false, ['3', '3'], by decide, by simp [isdigit], by decide⟩) [] := by
  unfold Denotes
  decide +kernel

end Libdank.IpSet
