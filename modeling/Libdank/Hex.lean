import Libdank.Printing

/-! Bytes written as pairs of hex digits, after `utils/hex.c`. A buffer written to
is the list of what has been written, in order; every offset of a text that is
looked at is recorded. -/
namespace Libdank.Hex
open Requests Parse Printing

/-- A character put between two pairs. Where one is wanted at all it is passed as
an `int`, with `EOF` for none. -/
structure Separator where
  char : Char
  ascii : 1 ≤ char.toNat ∧ char.toNat ≤ 127
deriving DecidableEq

def between (sep : Option Separator) : Text := sep.toList.map Separator.char

abbrev Reads := StateM (List ℕ)

def readChar (text : Text) (i : ℕ) : Reads Char := do
  modify (i :: ·)
  pure (text.getD i nul)

/-- The table of both `switch`es: the first has it shifted, the second as it is. -/
def hexDigit : Char → Option UInt8
  | 'F' | 'f' => some 0xF
  | 'E' | 'e' => some 0xE
  | 'D' | 'd' => some 0xD
  | 'C' | 'c' => some 0xC
  | 'B' | 'b' => some 0xB
  | 'A' | 'a' => some 0xA
  | '9' => some 0x9
  | '8' => some 0x8
  | '7' => some 0x7
  | '6' => some 0x6
  | '5' => some 0x5
  | '4' => some 0x4
  | '3' => some 0x3
  | '2' => some 0x2
  | '1' => some 0x1
  | '0' => some 0
  | _ => none

section Decoding

variable (text : Text) (sep : Option Separator)

/-- The loop at `hex` with that many pairs to come. The pointer returned is an
offset in the buffer; as `off` never changes it is the end of what was written. -/
def hextoasciiLoop : ℕ → ℕ → List UInt8 → Reads (Pointer ℕ × List UInt8)
  | 0, _, buf => pure (some buf.length, buf)
  | len + 1, hex, buf => do
    let first ← readChar text hex
    match hexDigit first with
    | none => pure (none, buf)
    | some high => do
      let second ← readChar text (hex + 1)
      match hexDigit second with
      | none => pure (none, buf ++ [high <<< 4])
      | some low =>
        let buf := buf ++ [high <<< 4 ||| low]
        if len = 0 then hextoasciiLoop len (hex + 2) buf
        else match sep with
          | none => hextoasciiLoop len (hex + 2) buf
          | some sep => do
            let c ← readChar text (hex + 2)
            if c ≠ sep.char then pure (none, buf) else hextoasciiLoop len (hex + 3) buf

def hextoascii (len : ℕ) : Reads (Pointer ℕ × List UInt8) := hextoasciiLoop text sep len 0 []

end Decoding

def hexdig : Text :=
  ['0', '1', '2', '3', '4', '5', '6', '7', '8', '9', 'A', 'B', 'C', 'D', 'E', 'F']

/-- `hex[i++] = c`. The index is an `int`, and counting past the last of them is
undefined. -/
def put (hex : Text) (c : Char) : Option Text :=
  if hex.length + 1 < 2 ^ 31 then some (hex ++ [c]) else none

def putPair (hex : Text) (b : UInt8) : Option Text := do
  let hex ← put hex (hexdig.getD (b >>> 4).toNat nul)
  put hex (hexdig.getD (b &&& 0x0f).toNat nul)

def asciitohexLoop (sep : Option Separator) : List UInt8 → Text → Option Text
  | [], hex => some hex
  | [b], hex => putPair hex b
  | b :: c :: buf, hex => do
    let hex ← putPair hex b
    let hex ← match sep with
      | none => some hex
      | some sep => put hex sep.char
    asciitohexLoop sep (c :: buf) hex

def asciitohex (buf : List UInt8) (sep : Option Separator) : Option Text := asciitohexLoop sep buf []

def twoDigits (b : UInt8) : Text := ((Nat.toDigits 16 b.toNat).map Char.toUpper).leftpad 2 '0'

section Printers

variable (junk : ℕ → Char) (sep : Option Separator)

def usAsciitohex (u : Ustring) : List UInt8 → Request (ℤ × Ustring)
  | [] => pure (0, u)
  | [b] => do
    let (r, u) ← printUString junk u (twoDigits b)
    pure (if r < 0 then -1 else 0, u)
  | b :: c :: buf => do
    let (r, u) ← printUString junk u (twoDigits b ++ between sep)
    if r < 0 then pure (-1, u) else usAsciitohex u (c :: buf)

end Printers

section Digits

def Denotes (c : Char) (d : ℕ) : Prop :=
  d < 16 ∧ (c = Nat.digitChar d ∨ c = (Nat.digitChar d).toUpper)

theorem hexDigit_digitChar (d : Fin 16) :
    hexDigit (Nat.digitChar d) = some (UInt8.ofNat d) ∧
      hexDigit (Nat.digitChar d).toUpper = some (UInt8.ofNat d) := by
  revert d
  decide

theorem hexDigit_iff {c : Char} {d : UInt8} : hexDigit c = some d ↔ Denotes c d.toNat := by
  constructor
  · unfold hexDigit
    split <;> rintro ⟨⟩ <;> simp [Denotes] <;> decide
  · rintro ⟨small, same⟩
    obtain ⟨lower, upper⟩ := hexDigit_digitChar ⟨d.toNat, small⟩
    rw [UInt8.ofNat_toNat] at lower upper
    rcases same with rfl | rfl
    · exact lower
    · exact upper

end Digits

section Accepted

variable {sep : Option Separator}

/-- The text begins with pairs that denote these bytes. -/
inductive Pairs (sep : Option Separator) : List UInt8 → Text → Prop
  | nil (rest) : Pairs sep [] rest
  | last {b high low} (rest) (first : Denotes high (b.toNat / 16))
      (second : Denotes low (b.toNat % 16)) : Pairs sep [b] (high :: low :: rest)
  | cons {b c bs high low rest} (first : Denotes high (b.toNat / 16))
      (second : Denotes low (b.toNat % 16)) (others : Pairs sep (c :: bs) rest) :
      Pairs sep (b :: c :: bs) (high :: low :: (between sep ++ rest))

theorem join_toNat {high low : UInt8} (h : high.toNat < 16) (l : low.toNat < 16) :
    (high <<< 4 ||| low).toNat = 16 * high.toNat + low.toNat := by
  have shifted : (high <<< 4).toNat = high.toNat <<< 4 := by
    have small : high.toNat * 2 ^ 4 < 2 ^ 8 := by omega
    rw [UInt8.toNat_shiftLeft]
    change high.toNat <<< 4 % 2 ^ 8 = high.toNat <<< 4
    rw [Nat.shiftLeft_eq, Nat.mod_eq_of_lt small]
  rw [UInt8.toNat_or, shifted, ← Nat.shiftLeft_add_eq_or_of_lt (by omega), Nat.shiftLeft_eq]
  omega

theorem digits_join {high low : Char} {h l : UInt8} (first : hexDigit high = some h)
    (second : hexDigit low = some l) :
    Denotes high ((h <<< 4 ||| l).toNat / 16) ∧ Denotes low ((h <<< 4 ||| l).toNat % 16) := by
  rw [hexDigit_iff] at first second
  have high_small := first.1
  have low_small := second.1
  have whole := join_toNat high_small low_small
  constructor
  · convert first using 1
    omega
  · convert second using 1
    omega

theorem digits_of {high low : Char} {b : UInt8} (first : Denotes high (b.toNat / 16))
    (second : Denotes low (b.toNat % 16)) :
    ∃ h l, hexDigit high = some h ∧ hexDigit low = some l ∧ h <<< 4 ||| l = b := by
  have bound := b.toNat_lt
  have upper : (UInt8.ofNat (b.toNat / 16)).toNat = b.toNat / 16 :=
    UInt8.toNat_ofNat_of_lt' (by rw [UInt8.size]; omega)
  have lower : (UInt8.ofNat (b.toNat % 16)).toNat = b.toNat % 16 :=
    UInt8.toNat_ofNat_of_lt' (by rw [UInt8.size]; omega)
  refine ⟨UInt8.ofNat (b.toNat / 16), UInt8.ofNat (b.toNat % 16), ?_, ?_, ?_⟩
  · rwa [hexDigit_iff, upper]
  · rwa [hexDigit_iff, lower]
  · rw [← UInt8.toNat_inj, join_toNat (by omega) (by omega), upper, lower]
    omega

theorem readChar_apply (text : Text) (i : ℕ) (s : List ℕ) :
    readChar text i s = (text.getD i nul, i :: s) := rfl

theorem getD_of_drop {text rest : Text} {hex : ℕ} (at_ : text.drop hex = rest) (k : ℕ) :
    text.getD (hex + k) nul = rest.getD k nul := by
  rw [← at_, List.getD_eq_getElem?_getD, List.getD_eq_getElem?_getD, List.getElem?_drop]

theorem drop_of_drop {text first rest : Text} {hex : ℕ} (at_ : text.drop hex = first ++ rest) :
    text.drop (hex + first.length) = rest := by
  rw [← List.drop_drop, at_, List.drop_left]

theorem hextoasciiLoop_digits {text rest : Text} {hex len : ℕ} {high low : Char} {h l : UInt8}
    (at_ : text.drop hex = high :: low :: rest) (first : hexDigit high = some h)
    (second : hexDigit low = some l) (buf : List UInt8) (s : List ℕ) :
    hextoasciiLoop text sep (len + 1) hex buf s =
      (if len = 0 then hextoasciiLoop text sep len (hex + 2) (buf ++ [h <<< 4 ||| l])
        else match sep with
          | none => hextoasciiLoop text sep len (hex + 2) (buf ++ [h <<< 4 ||| l])
          | some sep' => do
            let c ← readChar text (hex + 2)
            if c ≠ sep'.char then pure (none, buf ++ [h <<< 4 ||| l])
            else hextoasciiLoop text sep len (hex + 3) (buf ++ [h <<< 4 ||| l]))
        ((hex + 1) :: hex :: s) := by
  have one : text.getD hex nul = high := getD_of_drop at_ 0
  have two : text.getD (hex + 1) nul = low := getD_of_drop at_ 1
  rw [hextoasciiLoop, bind_apply, readChar_apply, one]
  simp only [first, bind_apply, readChar_apply, two, second]

theorem hextoasciiLoop_pairs {text rest : Text} {bs : List UInt8} (pairs : Pairs sep bs rest)
    {hex : ℕ} (at_ : text.drop hex = rest) (buf : List UInt8) (s : List ℕ) :
    (hextoasciiLoop text sep bs.length hex buf s).1 =
      (some (buf.length + bs.length), buf ++ bs) := by
  induction pairs generalizing hex buf s with
  | nil rest => simp [hextoasciiLoop, pure_apply]
  | last rest first second =>
    obtain ⟨h, l, high, low, rfl⟩ := digits_of first second
    rw [List.length_singleton, hextoasciiLoop_digits at_ high low]
    simp [hextoasciiLoop, pure_apply]
  | @cons b c bs high low rest first second others ih =>
    obtain ⟨h, l, high_, low_, rfl⟩ := digits_of first second
    have split : text.drop hex = [high, low] ++ (between sep ++ rest) := at_
    have after : text.drop (hex + 2) = between sep ++ rest := drop_of_drop split
    have later := drop_of_drop after
    have goal : ∀ s, (hextoasciiLoop text sep (c :: bs).length (hex + 2 + (between sep).length)
        (buf ++ [h <<< 4 ||| l]) s).1 =
        (some (buf.length + ((c :: bs).length + 1)), buf ++ (h <<< 4 ||| l) :: c :: bs) := by
      intro s
      rw [ih later]
      simp
      omega
    rw [List.length_cons, hextoasciiLoop_digits at_ high_ low_, if_neg (by simp)]
    cases sep with
    | none => exact goal _
    | some sep =>
      dsimp only
      rw [bind_apply, readChar_apply, getD_of_drop after 0, if_neg (by simp [between])]
      exact goal _

theorem drop_of_char {text : Text} {hex : ℕ} (char : text.getD hex nul ≠ nul) :
    hex < text.length ∧ text.drop hex = text.getD hex nul :: text.drop (hex + 1) := by
  have inside : hex < text.length := by
    by_contra outside
    rw [List.getD_eq_getElem?_getD, List.getElem?_eq_none (by omega)] at char
    exact char rfl
  refine ⟨inside, ?_⟩
  rw [List.drop_eq_getElem_cons inside, List.getD_eq_getElem?_getD, List.getElem?_eq_getElem inside]
  rfl

theorem ne_nul_of_digit {c : Char} {d : UInt8} (digit : hexDigit c = some d) : c ≠ nul := by
  rintro rfl
  exact absurd digit (by simp [hexDigit, nul])

theorem Separator.ne_nul (sep : Separator) : sep.char ≠ nul := by
  intro same
  have ascii := sep.ascii.1
  rw [same] at ascii
  exact absurd ascii (by decide)

/-- No new read of `q` is past the NUL, and its success means pairs from `hex` on. -/
def Sound (text : Text) (sep : Option Separator) (len hex : ℕ) (s : List ℕ)
    (q : (Pointer ℕ × List UInt8) × List ℕ) : Prop :=
  (∀ i ∈ q.2, i ∈ s ∨ i ≤ text.length) ∧
    (q.1.1 ≠ none → ∃ bs, bs.length = len ∧ Pairs sep bs (text.drop hex))

section Sound

variable {text : Text} {len hex : ℕ} {s s₁ : List ℕ} (old : ∀ i ∈ s₁, i ∈ s ∨ i ≤ text.length)

include old

theorem sound_fail (buf : List UInt8) : Sound text sep len hex s ((none, buf), s₁) :=
  ⟨old, fun success => absurd rfl success⟩

theorem sound_cons {b : UInt8} {high low : Char} {rest : Text}
    {q : (Pointer ℕ × List UInt8) × List ℕ} (at_ : text.drop hex = high :: low :: (between sep ++ rest))
    (first : Denotes high (b.toNat / 16)) (second : Denotes low (b.toNat % 16)) (more : len ≠ 0)
    {hex₁ : ℕ} (next : text.drop hex₁ = rest) (later : Sound text sep len hex₁ s₁ q) :
    Sound text sep (len + 1) hex s q := by
  obtain ⟨reads, pairs⟩ := later
  refine ⟨fun i hi => (reads i hi).elim (old i) .inr, fun success => ?_⟩
  obtain ⟨bs, length, found⟩ := pairs success
  cases bs with
  | nil => exact absurd length.symm more
  | cons c bs =>
    refine ⟨b :: c :: bs, congrArg (· + 1) length, ?_⟩
    rw [at_, ← next]
    exact .cons first second found

end Sound

theorem hextoasciiLoop_sound (text : Text) (len : ℕ) {hex : ℕ} (inside : hex ≤ text.length)
    (buf : List UInt8) (s : List ℕ) :
    Sound text sep len hex s (hextoasciiLoop text sep len hex buf s) := by
  induction len generalizing hex buf s with
  | zero => exact ⟨fun i hi => .inl hi, fun _ => ⟨[], rfl, .nil _⟩⟩
  | succ len ih =>
    cases first : hexDigit (text.getD hex nul) with
    | none =>
      rw [hextoasciiLoop, bind_apply, readChar_apply]
      simp only [first]
      refine sound_fail ?_ buf
      rintro i (_ | ⟨_, old⟩)
      exacts [.inr inside, .inl old]
    | some h =>
    obtain ⟨inside₁, at₁⟩ := drop_of_char (ne_nul_of_digit first)
    cases second : hexDigit (text.getD (hex + 1) nul) with
    | none =>
      rw [hextoasciiLoop, bind_apply, readChar_apply]
      simp only [first, bind_apply, readChar_apply, second]
      refine sound_fail ?_ _
      rintro i (_ | ⟨_, _ | ⟨_, old⟩⟩)
      exacts [.inr inside₁, .inr inside, .inl old]
    | some l =>
    obtain ⟨inside₂, at₂⟩ := drop_of_char (ne_nul_of_digit second)
    rw [at₂] at at₁
    obtain ⟨high, low⟩ := digits_join first second
    have old : ∀ i ∈ (hex + 1) :: hex :: s, i ∈ s ∨ i ≤ text.length := by
      rintro i (_ | ⟨_, _ | ⟨_, old⟩⟩)
      exacts [.inr inside₂.le, .inr inside₁.le, .inl old]
    rw [hextoasciiLoop_digits at₁ first second]
    split_ifs with last
    · subst last
      refine ⟨old, fun _ => ⟨[h <<< 4 ||| l], rfl, ?_⟩⟩
      rw [at₁]
      exact .last _ high low
    cases sep with
    | none => exact sound_cons old at₁ high low last rfl (ih inside₂ _ _)
    | some sep =>
      dsimp only
      rw [bind_apply, readChar_apply]
      have old₃ : ∀ i ∈ (hex + 2) :: (hex + 1) :: hex :: s, i ∈ s ∨ i ≤ text.length := by
        rintro i (_ | ⟨_, earlier⟩)
        exacts [.inr inside₂, old i earlier]
      split_ifs with other
      · exact sound_fail old₃ _
      · have same : text.getD (hex + 2) nul = sep.char := not_not.mp other
        have char : text.getD (hex + 2) nul ≠ nul := same ▸ sep.ne_nul
        obtain ⟨inside₃, at₃⟩ := drop_of_char char
        have at₄ : text.drop hex = text.getD hex nul :: text.getD (hex + 1) nul ::
            (between (some sep) ++ text.drop (hex + 3)) := by
          rw [at₁, at₃, same]
          rfl
        exact sound_cons old₃ at₄ high low last rfl (ih inside₃ _ _)

end Accepted

section Encoding

def pairText (b : UInt8) : Text :=
  [hexdig.getD (b >>> 4).toNat nul, hexdig.getD (b &&& 0x0f).toNat nul]

def hexText (sep : Option Separator) : List UInt8 → Text
  | [] => []
  | [b] => pairText b
  | b :: c :: bs => pairText b ++ (between sep ++ hexText sep (c :: bs))

variable {sep : Option Separator}

theorem length_hexText (sep : Option Separator) (bs : List UInt8) :
    (hexText sep bs).length = 2 * bs.length + (between sep).length * (bs.length - 1) := by
  induction bs using hexText.induct with
  | case1 => rfl
  | case2 b => simp [hexText, pairText]
  | case3 b c bs ih =>
    simp only [hexText, List.length_append, ih, List.length_cons, Nat.add_sub_cancel, mul_add]
    simp only [pairText, List.length_cons, List.length_nil]
    omega

theorem pair_table (b : Fin 256) :
    twoDigits (UInt8.ofNat b) = pairText (UInt8.ofNat b) ∧
      pairText (UInt8.ofNat b) =
        [(Nat.digitChar (b / 16)).toUpper, (Nat.digitChar (b % 16)).toUpper] := by
  revert b
  decide +kernel

theorem twoDigits_eq (b : UInt8) : twoDigits b = pairText b := by
  have entry := (pair_table ⟨b.toNat, b.toNat_lt⟩).1
  rwa [UInt8.ofNat_toNat] at entry

theorem pairText_eq (b : UInt8) :
    pairText b = [(Nat.digitChar (b.toNat / 16)).toUpper, (Nat.digitChar (b.toNat % 16)).toUpper] := by
  have entry := (pair_table ⟨b.toNat, b.toNat_lt⟩).2
  rwa [UInt8.ofNat_toNat] at entry

theorem pairs_hexText (sep : Option Separator) (bs : List UInt8) : Pairs sep bs (hexText sep bs) := by
  have first : ∀ b : UInt8, Denotes (Nat.digitChar (b.toNat / 16)).toUpper (b.toNat / 16) := fun b =>
    ⟨by have := b.toNat_lt; omega, .inr rfl⟩
  have second : ∀ b : UInt8, Denotes (Nat.digitChar (b.toNat % 16)).toUpper (b.toNat % 16) := fun b =>
    ⟨by omega, .inr rfl⟩
  induction bs using hexText.induct with
  | case1 => exact .nil _
  | case2 b =>
    rw [hexText, pairText_eq]
    exact .last [] (first b) (second b)
  | case3 b c bs ih =>
    rw [hexText, pairText_eq]
    exact .cons (first b) (second b) ih

theorem foldlM_put (out hex : Text) (small : hex.length < 2 ^ 31) :
    out.foldlM put hex =
      if (hex ++ out).length < 2 ^ 31 then some (hex ++ out) else none := by
  induction out generalizing hex with
  | nil => rw [List.foldlM_nil, List.append_nil, if_pos small, Option.pure_def]
  | cons c out ih =>
    rw [List.foldlM_cons, put]
    by_cases fits : hex.length + 1 < 2 ^ 31
    · rw [if_pos fits, Option.bind_eq_bind, Option.bind_some, ih _ (by simpa using fits)]
      simp only [List.append_assoc, List.singleton_append]
    · rw [if_neg fits, if_neg (by simp only [List.length_append, List.length_cons]; omega)]
      rfl

theorem asciitohexLoop_foldlM (sep : Option Separator) (bs : List UInt8) (hex : Text) :
    asciitohexLoop sep bs hex = (hexText sep bs).foldlM put hex := by
  induction bs using hexText.induct generalizing hex with
  | case1 => rfl
  | case2 b =>
    simp [asciitohexLoop, hexText, putPair, pairText]
  | case3 b c bs ih =>
    have pair : putPair hex b = (pairText b).foldlM put hex := by simp [putPair, pairText]
    rw [hexText, List.foldlM_append, asciitohexLoop, pair]
    congr 1
    funext hex
    rw [List.foldlM_append, ← funext ih]
    cases sep <;> simp [between]

theorem asciitohex_eq (bs : List UInt8) (sep : Option Separator) :
    asciitohex bs sep =
      if (hexText sep bs).length < 2 ^ 31 then some (hexText sep bs) else none := by
  rw [asciitohex, asciitohexLoop_foldlM, foldlM_put _ _ (by simp), List.nil_append]

theorem length_between (sep : Option Separator) : (between sep).length ≤ 1 := by
  cases sep <;> simp [between]

theorem usAsciitohex_served (junk : ℕ → Char) (sep : Option Separator) (bs : List UInt8) {u : Ustring}
    (valid : u.Valid) :
    Ensures Served (usAsciitohex junk sep u bs) (Appends (· = 0) u (hexText sep bs)) := by
  induction bs using hexText.induct generalizing u with
  | case1 => exact appends_pure valid rfl
  | case2 b =>
    rw [usAsciitohex, hexText, twoDigits_eq]
    refine ensures_bind (printUString_served junk valid (by simp [pairText])) fun q h hq => ?_
    obtain ⟨ok, appended⟩ := hq
    exact ⟨if_neg (not_lt.mpr ok), appended⟩
  | case3 b c bs ih =>
    have short : (pairText b ++ between sep).length < 2 ^ 31 := by
      have := length_between sep
      simp only [pairText, List.length_append, List.length_cons, List.length_nil]
      omega
    rw [usAsciitohex, hexText, twoDigits_eq, ← List.append_assoc]
    exact appends_then (printUString_served junk valid short) fun q valid => ih valid

end Encoding

section Exactness

/-- The text of `b` decodes to `b`, and the other encoder appends the same text. -/
def RoundTrips (b : List UInt8) (sep : Option Separator) : Prop :=
  ∃ hex, asciitohex b sep = some hex ∧ (hextoascii hex sep b.length []).1 = (some b.length, b) ∧
    ∀ (junk : ℕ → Char) (u : Ustring), u.Valid →
      Ensures Served (usAsciitohex junk sep u b) (Appends (· = 0) u hex)

/-- A text is accepted for `len` pairs just when it begins with them, the bytes are
those they denote, and the last offset read is at most that of the NUL. -/
structure DecodesExactly (text : Text) (sep : Option Separator) (len : ℕ) : Prop where
  accepted : (hextoascii text sep len []).1.1 ≠ none ↔ ∃ bs, bs.length = len ∧ Pairs sep bs text
  bytes : ∀ bs, bs.length = len → Pairs sep bs text → (hextoascii text sep len []).1 = (some len, bs)
  reads : ∀ i ∈ (hextoascii text sep len []).2, i ≤ text.length

theorem hextoascii_exact (text : Text) (sep : Option Separator) (len : ℕ) :
    DecodesExactly text sep len := by
  have sound : Sound text sep len 0 [] (hextoasciiLoop text sep len 0 [] []) :=
    hextoasciiLoop_sound text len (Nat.zero_le _) [] []
  obtain ⟨reads, found⟩ := sound
  have bytes : ∀ bs, bs.length = len → Pairs sep bs text →
      (hextoascii text sep len []).1 = (some len, bs) := by
    rintro bs rfl pairs
    have start : text.drop 0 = text := List.drop_zero
    have decoded := hextoasciiLoop_pairs pairs start [] []
    rwa [List.length_nil, Nat.zero_add, List.nil_append] at decoded
  refine ⟨⟨found, ?_⟩, bytes, fun i hi => (reads i hi).resolve_left List.not_mem_nil⟩
  rintro ⟨bs, length, pairs⟩
  rw [bytes bs length pairs]
  exact Option.some_ne_none _

theorem roundTrips_iff (b : List UInt8) (sep : Option Separator) :
    RoundTrips b sep ↔ (hexText sep b).length < 2 ^ 31 := by
  have written := asciitohex_eq b sep
  constructor
  · rintro ⟨hex, ascii, -⟩
    by_contra long
    rw [if_neg long, ascii] at written
    exact absurd written (Option.some_ne_none hex)
  · intro fits
    rw [if_pos fits] at written
    exact ⟨_, written, (hextoascii_exact _ sep _).bytes b rfl (pairs_hexText sep b),
      fun junk u valid => usAsciitohex_served junk sep b valid⟩

theorem hex_exact_iff (b : List UInt8) (sep : Option Separator) :
    (RoundTrips b sep ∧ ∀ text len, DecodesExactly text sep len) ↔
      2 * b.length + (between sep).length * (b.length - 1) < 2 ^ 31 := by
  rw [← length_hexText, ← roundTrips_iff]
  exact and_iff_left fun text len => hextoascii_exact text sep len

theorem gigabyte_overflows : ¬ RoundTrips (List.replicate (2 ^ 30) 0) none := by
  rw [roundTrips_iff, length_hexText, List.length_replicate]
  norm_num [between]

end Exactness

end Libdank.Hex
