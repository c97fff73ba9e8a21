import Libdank.Lexers

/-! Dotted quads. `dottedQuad` writes an address in host byte order; the C
library's functions work on the network byte order that `ntohl` undoes. -/
namespace Libdank.Parse

def octet (a : UInt32) (i : ℕ) : ℕ := a.toNat / 2 ^ (8 * i) % 256

def dottedQuad (a : UInt32) : Text :=
  ['.'].intercalate ([3, 2, 1, 0].map fun i => Nat.toDigits 10 (octet a i))

/-- The C library's function for `AF_INET`, of an address in network byte order. -/
def inetNtop (s : UInt32) : Text := dottedQuad (ntohl s)

def octetText (field : Text) : Option ℕ :=
  let value := decimal field
  if Nat.toDigits 10 value = field ∧ value < 256 then some value else none

/-- The C library's reading of a dotted quad, into network byte order. -/
def dottedPton (text : Text) : Option UInt32 :=
  match text.splitOn '.' with
  | [a, b, c, d] => do
    let a ← octetText a
    let b ← octetText b
    let c ← octetText c
    let d ← octetText d
    some (htonl (UInt32.ofNat (((a * 256 + b) * 256 + c) * 256 + d)))
  | _ => none

theorem byteMask_bit (j : ℕ) : (0xff00#32).getLsbD j = decide (8 ≤ j ∧ j < 16) := by
  by_cases hj : j < 32
  · interval_cases j <;> rfl
  · rw [BitVec.getLsbD_of_ge _ _ (by omega)]
    simp
    omega

theorem ntohl_bit (x : UInt32) {i : ℕ} (inside : i < 32) :
    (ntohl x).toBitVec.getLsbD i = x.toBitVec.getLsbD (8 * (3 - i / 8) + i % 8) := by
  have shifts : (ntohl x).toBitVec = (x.toBitVec <<< 24 ||| (x.toBitVec &&& 0xff00#32) <<< 8 |||
    x.toBitVec >>> 8 &&& 0xff00#32 ||| x.toBitVec >>> 24) := rfl
  rw [shifts]
  simp only [BitVec.getLsbD_or, BitVec.getLsbD_and, BitVec.getLsbD_shiftLeft,
    BitVec.getLsbD_ushiftRight, byteMask_bit, inside, decide_true, Bool.true_and]
  generalize x.toBitVec = b
  have high (j : ℕ) (hj : 32 ≤ j) : b.getLsbD j = false := BitVec.getLsbD_of_ge _ _ hj
  rcases (by omega : i < 8 ∨ 8 ≤ i ∧ i < 16 ∨ 16 ≤ i ∧ i < 24 ∨ 24 ≤ i) with h | h | h | h
  · have place : 8 * (3 - i / 8) + i % 8 = 24 + i := by omega
    grind
  · have place : 8 * (3 - i / 8) + i % 8 = 8 + i := by omega
    grind
  · have place : 8 * (3 - i / 8) + i % 8 = i - 8 := by omega
    grind
  · have place : 8 * (3 - i / 8) + i % 8 = i - 24 := by omega
    grind

@[simp] theorem ntohl_ntohl (x : UInt32) : ntohl (ntohl x) = x := by
  refine UInt32.toBitVec_inj.mp (BitVec.eq_of_getLsbD_eq fun i hi => ?_)
  rw [ntohl_bit _ hi, ntohl_bit _ (by omega)]
  congr 1
  omega

@[simp] theorem ntohl_htonl (x : UInt32) : ntohl (htonl x) = x := ntohl_ntohl x

theorem inetNtop_htonl (a : UInt32) : inetNtop (htonl a) = dottedQuad a := by
  rw [inetNtop, ntohl_htonl]

theorem octet_lt (a : UInt32) (i : ℕ) : octet a i < 256 := Nat.mod_lt _ (by decide)

theorem octet_testBit (a : UInt32) (i j : ℕ) :
    (octet a i).testBit j = (decide (j < 8) && a.toNat.testBit (8 * i + j)) := by
  have byte : octet a i = (a.toNat >>> (8 * i)) % 2 ^ 8 := by
    rw [Nat.shiftRight_eq_div_pow]
    rfl
  rw [byte, Nat.testBit_mod_two_pow, Nat.testBit_shiftRight]

theorem octet_htonl (a : UInt32) {i : ℕ} (inside : i < 4) : octet (htonl a) i = octet a (3 - i) := by
  refine Nat.eq_of_testBit_eq fun j => ?_
  rw [octet_testBit, octet_testBit]
  by_cases hj : j < 8
  · have swapped := @ntohl_bit a (8 * i + j) (by omega)
    have place : 8 * (3 - (8 * i + j) / 8) + (8 * i + j) % 8 = 8 * (3 - i) + j := by omega
    rw [place] at swapped
    rw [decide_eq_true hj, Bool.true_and, Bool.true_and]
    exact swapped
  · simp [hj]

theorem octets_sum (a : UInt32) :
    ((octet a 3 * 256 + octet a 2) * 256 + octet a 1) * 256 + octet a 0 = a.toNat := by
  have := a.toNat_lt
  simp only [octet]
  omega

theorem eq_of_octets {a b : UInt32} (same : ∀ i < 4, octet a i = octet b i) : a = b := by
  rw [← UInt32.toNat_inj, ← octets_sum a, ← octets_sum b, same 0 (by decide), same 1 (by decide),
    same 2 (by decide), same 3 (by decide)]

theorem htonl_eq_self_iff (a : UInt32) :
    htonl a = a ↔ octet a 3 = octet a 0 ∧ octet a 2 = octet a 1 := by
  constructor
  · intro same
    have first := octet_htonl a (by decide : 0 < 4)
    have second := octet_htonl a (by decide : 1 < 4)
    rw [same] at first second
    exact ⟨first.symm, second.symm⟩
  · rintro ⟨outer, inner⟩
    refine eq_of_octets fun i hi => ?_
    rw [octet_htonl a hi]
    interval_cases i <;> simp [outer, inner]

theorem dottedQuad_eq (a : UInt32) :
    dottedQuad a = Nat.toDigits 10 (octet a 3) ++ '.' :: (Nat.toDigits 10 (octet a 2) ++
      '.' :: (Nat.toDigits 10 (octet a 1) ++ '.' :: Nat.toDigits 10 (octet a 0))) := by
  simp [dottedQuad, List.intercalate]

theorem isdigit_of_mem_toDigits {n : ℕ} {c : Char} (mem : c ∈ Nat.toDigits 10 n) :
    isdigit c = true := by
  rw [Lexers.isdigit_eq]
  exact Nat.isDigit_of_mem_toDigits (by decide) (by decide) mem

def quadChar (c : Char) : Bool := isdigit c || c = '.'

theorem dottedQuad_chars (a : UInt32) : ∀ c ∈ dottedQuad a, quadChar c = true := by
  intro c hc
  rw [quadChar, Bool.or_eq_true, decide_eq_true_eq]
  rw [dottedQuad_eq] at hc
  simp only [List.mem_append, List.mem_cons] at hc
  rcases hc with h | h | h | h | h | h | h
  all_goals first | exact .inr h | exact .inl (isdigit_of_mem_toDigits h)

theorem toDigits_octet_length (a : UInt32) (i : ℕ) :
    1 ≤ (Nat.toDigits 10 (octet a i)).length ∧ (Nat.toDigits 10 (octet a i)).length ≤ 3 := by
  refine ⟨Nat.length_toDigits_pos, (Nat.length_toDigits_le_iff (by decide) (by decide)).mpr ?_⟩
  have := octet_lt a i
  omega

theorem dottedQuad_length (a : UInt32) :
    7 ≤ (dottedQuad a).length ∧ (dottedQuad a).length ≤ 15 := by
  have := toDigits_octet_length a 0
  have := toDigits_octet_length a 1
  have := toDigits_octet_length a 2
  have := toDigits_octet_length a 3
  simp only [dottedQuad_eq, List.length_append, List.length_cons]
  omega

theorem dottedQuad_shape (a : UInt32) :
    ∃ c rest, dottedQuad a = c :: rest ∧ isdigit c = true := by
  obtain ⟨c, rest, shape⟩ := List.exists_cons_of_ne_nil (@Nat.toDigits_ne_nil (octet a 3) 10)
  have first : c ∈ Nat.toDigits 10 (octet a 3) := by simp [shape]
  exact ⟨c, _, by rw [dottedQuad_eq, shape, List.cons_append], isdigit_of_mem_toDigits first⟩

theorem parseWhitespace_of_head {text : Text} (head : ∀ c ∈ text.head?, isspace c = false) :
    parseWhitespace text = text := by
  cases text with
  | nil => rfl
  | cons c rest => exact List.dropWhile_cons_of_neg (by simp [head c rfl])

theorem parseWhitespace_dottedQuad (a : UInt32) (rest : Text) :
    parseWhitespace (dottedQuad a ++ rest) = dottedQuad a ++ rest := by
  obtain ⟨c, tail, shape, digit⟩ := dottedQuad_shape a
  refine parseWhitespace_of_head ?_
  simp [shape, Lexers.isspace_of_isdigit digit]

theorem takeWhile_append_stop {α : Type} {p : α → Bool} {l rest : List α}
    (all : ∀ x ∈ l, p x = true) (stop : ∀ x ∈ rest.head?, p x = false) :
    (l ++ rest).takeWhile p = l := by
  rw [List.takeWhile_append_of_pos all]
  cases rest with
  | nil => simp
  | cons x rest => simp [stop x rfl]

theorem parseIpv4address_run (inetPton : Text → Option UInt32) {buf run rest : Text}
    (begins : parseWhitespace buf = run ++ rest) (all : ∀ c ∈ run, quadChar c = true)
    (stop : ∀ c ∈ rest.head?, quadChar c = false) (low : 7 ≤ run.length) (high : run.length ≤ 15) :
    parseIpv4address inetPton buf =
      (inetPton run).map fun s => (buf.length - (run ++ rest).length + run.length, s) := by
  have window : (run ++ rest).take 15 = run ++ rest.take (15 - run.length) := by
    rw [List.take_append, List.take_of_length_le high]
  have shorter : ∀ c ∈ (rest.take (15 - run.length)).head?, quadChar c = false := by
    intro c hc
    refine stop c ?_
    rw [List.head?_take] at hc
    split_ifs at hc
    · simp at hc
    · exact hc
  have ipbuf : ((run ++ rest).take (inetAddrstrlen - 1)).takeWhile
      (fun c => isdigit c || c = '.') = run := by
    change ((run ++ rest).take 15).takeWhile quadChar = run
    rw [window]
    exact takeWhile_append_stop all shorter
  simp only [parseIpv4address, begins, ipbuf]
  rw [if_neg (by simp only [inetAddrstrlen]; omega)]

theorem parseIpv4address_dottedQuad {inetPton : Text → Option UInt32}
    (inverse : ∀ s, inetPton (inetNtop s) = some s) (a : UInt32) {rest : Text}
    (stop : ∀ c ∈ rest.head?, quadChar c = false) :
    parseIpv4address inetPton (dottedQuad a ++ rest) = some ((dottedQuad a).length, htonl a) := by
  obtain ⟨low, high⟩ := dottedQuad_length a
  have read : inetPton (dottedQuad a) = some (htonl a) := by rw [← inetNtop_htonl, inverse]
  rw [parseIpv4address_run inetPton (parseWhitespace_dottedQuad a rest) (dottedQuad_chars a) stop low
    high, read]
  simp

theorem decimal_eq (digits : Text) : decimal digits = Nat.ofDigitChars 10 digits 0 := by
  rw [Nat.ofDigitChars_eq_foldl]
  rfl

theorem octetText_toDigits {n : ℕ} (small : n < 256) : octetText (Nat.toDigits 10 n) = some n := by
  have value : decimal (Nat.toDigits 10 n) = n := by rw [decimal_eq, Nat.ofDigitChars_ten_toDigits]
  simp [octetText, value, small]

theorem dottedPton_inetNtop (s : UInt32) : dottedPton (inetNtop s) = some s := by
  have nodot : ∀ l ∈ [3, 2, 1, 0].map (fun i => Nat.toDigits 10 (octet (ntohl s) i)), '.' ∉ l := by
    intro l hl dot
    obtain ⟨i, -, rfl⟩ := List.mem_map.mp hl
    exact absurd (isdigit_of_mem_toDigits dot) (by decide)
  have fields := List.splitOn_intercalate '.' nodot (by simp)
  rw [dottedPton, inetNtop, dottedQuad, fields]
  simp only [List.map_cons, List.map_nil, octetText_toDigits (octet_lt _ _), Option.bind_eq_bind,
    Option.bind_some, octets_sum, UInt32.ofNat_toNat]
  exact congrArg some (ntohl_ntohl s)

end Libdank.Parse
