import Mathlib.Order.Bounds.Basic
import Mathlib.Data.UInt
import Mathlib.Tactic

/-! Sizes aligned to cache lines, after `arch/cpu.c`. -/
namespace Libdank.CacheLines

/-- What libtorque answers: whether a context was made, and whether `torque_stop` reported an
error. -/
structure Torque where
  context : Bool
  stopFailed : Bool
deriving DecidableEq, Repr

/-- The line size, unless -1 is returned, and `L1_DLINE_SIZE` afterwards. -/
def getL1Dline (torque : Torque) (l1DlineSize : UInt32) : Option UInt32 × UInt32 :=
  if l1DlineSize = 0 then
    if torque.context then (if torque.stopFailed then none else some 64, 64) else (none, 0)
  else (some l1DlineSize, l1DlineSize)

/-- `while(lsize / 2 >= s) lsize /= 2`, for at most `fuel` tests. -/
def halve (s : UInt64) : ℕ → UInt32 → Option UInt32
  | 0, _ => none
  | fuel + 1, lsize => if s ≤ (lsize / 2).toUInt64 then halve s fuel (lsize / 2) else some lsize

def alignSize (fuel : ℕ) (torque : Torque) (l1DlineSize : UInt32) (s : UInt64) : Option UInt64 :=
  match (getL1Dline torque l1DlineSize).1 with
  | some lsize =>
    let shmask := lsize - 1
    if s ≤ lsize.toUInt64 then (halve s fuel lsize).map UInt32.toUInt64
    else some ((s / lsize.toUInt64 + (if s &&& shmask.toUInt64 ≠ 0 then 1 else 0)) * lsize.toUInt64)
  | none => some 0

/-- The sizes that hold `s`, with lines of `L`: powers of two up to a line, multiples of it
beyond that. -/
def sizes (L s : ℕ) : Set ℕ := {m | s ≤ m ∧ if L < s then L ∣ m else ∃ j, m = 2 ^ j}

/-- The call ends, with the least such size. -/
def Aligns (torque : Torque) (l1DlineSize lsize : UInt32) (s : UInt64) : Prop :=
  ∃ fuel r, alignSize fuel torque l1DlineSize s = some r ∧ IsLeast (sizes lsize.toNat s.toNat) r.toNat

theorem alignSize_eq {torque : Torque} {l1DlineSize lsize : UInt32}
    (line : (getL1Dline torque l1DlineSize).1 = some lsize) (fuel : ℕ) (s : UInt64) :
    alignSize fuel torque l1DlineSize s =
      if s ≤ lsize.toUInt64 then (halve s fuel lsize).map UInt32.toUInt64
      else some ((s / lsize.toUInt64 + (if s &&& (lsize - 1).toUInt64 ≠ 0 then 1 else 0)) *
        lsize.toUInt64) := by
  unfold alignSize
  rw [line]

theorem halve_zero (fuel : ℕ) (lsize : UInt32) : halve 0 fuel lsize = none := by
  induction fuel generalizing lsize with
  | zero => rfl
  | succ fuel ih =>
    rw [halve, if_pos (UInt64.le_iff_toNat_le.mpr (Nat.zero_le _))]
    exact ih _

theorem halve_ends {s : UInt64} (pos : 0 < s.toNat) (k : ℕ) :
    ∀ lsize : UInt32, lsize.toNat = 2 ^ k → s.toNat ≤ 2 ^ k →
      ∃ r, halve s (k + 1) lsize = some r ∧ IsLeast {m | s.toNat ≤ m ∧ ∃ j, m = 2 ^ j} r.toNat := by
  induction k with
  | zero =>
    intro lsize size fits
    have half : (lsize / 2).toUInt64.toNat = 0 := by
      rw [UInt32.toNat_toUInt64, UInt32.toNat_div, size]
      rfl
    refine ⟨lsize, ?_, ?_, ?_⟩
    · rw [halve, if_neg]
      rw [UInt64.le_iff_toNat_le, half]
      omega
    · exact ⟨by omega, 0, size⟩
    · rintro m ⟨-, j, rfl⟩
      rw [size]
      exact Nat.one_le_two_pow
  | succ k ih =>
    intro lsize size fits
    have half : (lsize / 2).toNat = 2 ^ k := by
      rw [UInt32.toNat_div, size, pow_succ]
      exact Nat.mul_div_cancel _ (by decide)
    rw [halve]
    split
    case isTrue enough =>
      rw [UInt64.le_iff_toNat_le, UInt32.toNat_toUInt64, half] at enough
      exact ih _ half enough
    case isFalse short =>
      rw [UInt64.le_iff_toNat_le, UInt32.toNat_toUInt64, half] at short
      refine ⟨lsize, rfl, ⟨by omega, k + 1, size⟩, ?_⟩
      rintro m ⟨enough, j, rfl⟩
      rw [size]
      apply Nat.pow_le_pow_right (by decide)
      have : 2 ^ k < 2 ^ j := by omega
      exact (Nat.pow_lt_pow_iff_right (by decide)).mp this

def lines (L s : ℕ) : ℕ := s / L + if s % L ≠ 0 then 1 else 0

theorem lines_least {L s : ℕ} (pos : 0 < L) : IsLeast {m | s ≤ m ∧ L ∣ m} (lines L s * L) := by
  have whole := Nat.div_add_mod' s L
  have part := Nat.mod_lt s pos
  refine ⟨⟨?_, Dvd.intro_left _ rfl⟩, ?_⟩
  · unfold lines
    split <;> rw [Nat.add_mul] <;> omega
  · rintro m ⟨enough, c, rfl⟩
    rw [Nat.mul_comm L c] at enough ⊢
    apply Nat.mul_le_mul_right
    have quotient : s / L ≤ c := Nat.div_le_of_le_mul (by rwa [Nat.mul_comm])
    unfold lines
    split
    case isFalse => exact quotient
    case isTrue partly =>
      refine Nat.succ_le_of_lt (lt_of_le_of_ne quotient ?_)
      rintro rfl
      omega

theorem toNat_lines {lsize : UInt32} {s : UInt64} {k : ℕ} (size : lsize.toNat = 2 ^ k) :
    ((s / lsize.toUInt64 + (if s &&& (lsize - 1).toUInt64 ≠ 0 then 1 else 0)) *
      lsize.toUInt64).toNat = lines lsize.toNat s.toNat * lsize.toNat % 2 ^ 64 := by
  have one : (1 : UInt32) ≤ lsize := by
    rw [UInt32.le_iff_toNat_le, size]
    exact Nat.one_le_two_pow
  have mask : (s &&& (lsize - 1).toUInt64).toNat = s.toNat % lsize.toNat := by
    rw [UInt64.toNat_and, UInt32.toNat_toUInt64, UInt32.toNat_sub_of_le _ _ one, size]
    exact Nat.and_two_pow_sub_one_eq_mod _ _
  have rest : (s &&& (lsize - 1).toUInt64 ≠ 0) ↔ s.toNat % lsize.toNat ≠ 0 := by
    rw [← mask]
    exact not_congr UInt64.toNat_inj.symm
  rw [UInt64.toNat_mul, UInt64.toNat_add, UInt64.toNat_div, UInt32.toNat_toUInt64, lines]
  simp only [rest]
  rw [Nat.mod_mul_mod]
  split <;> rfl

section Line
variable {torque : Torque} {l1DlineSize lsize : UInt32} {k : ℕ}

theorem aligns_small (line : (getL1Dline torque l1DlineSize).1 = some lsize)
    (size : lsize.toNat = 2 ^ k) {s : UInt64} (small : s.toNat ≤ lsize.toNat) :
    Aligns torque l1DlineSize lsize s ↔ 0 < s.toNat := by
  have fits : s ≤ lsize.toUInt64 := by rwa [UInt64.le_iff_toNat_le, UInt32.toNat_toUInt64]
  unfold Aligns
  simp only [alignSize_eq line, if_pos fits, sizes, if_neg (Nat.not_lt.mpr small)]
  constructor
  · rintro ⟨fuel, r, ended, -⟩
    rcases Nat.eq_zero_or_pos s.toNat with zero | pos
    · obtain rfl : s = 0 := UInt64.toNat_inj.mp zero
      rw [halve_zero] at ended
      cases ended
    · exact pos
  · intro pos
    obtain ⟨r, ended, least⟩ := halve_ends pos k lsize size (size ▸ small)
    exact ⟨k + 1, r.toUInt64, by rw [ended]; rfl, by rwa [UInt32.toNat_toUInt64]⟩

theorem aligns_large (line : (getL1Dline torque l1DlineSize).1 = some lsize)
    (size : lsize.toNat = 2 ^ k) {s : UInt64} (large : lsize.toNat < s.toNat) :
    Aligns torque l1DlineSize lsize s ↔ s.toNat ≤ 2 ^ 64 - lsize.toNat := by
  have large' : ¬ s ≤ lsize.toUInt64 := by
    rw [UInt64.le_iff_toNat_le, UInt32.toNat_toUInt64]
    omega
  have pos : 0 < lsize.toNat := by
    rw [size]
    exact Nat.two_pow_pos k
  obtain ⟨⟨enough, whole⟩, least⟩ := lines_least (s := s.toNat) pos
  have line_fits := lsize.toNat_lt
  have whole_space : lsize.toNat ∣ 2 ^ 64 := by
    rw [size] at line_fits ⊢
    exact pow_dvd_pow 2 (le_trans ((Nat.pow_lt_pow_iff_right (by decide)).mp line_fits).le (by decide))
  unfold Aligns
  simp only [alignSize_eq line, if_neg large', sizes, if_pos large, Option.some.injEq]
  constructor
  · rintro ⟨fuel, r, rfl, ⟨holds, -⟩, -⟩
    rw [toNat_lines size] at holds
    have most : lines lsize.toNat s.toNat * lsize.toNat ≤ 2 ^ 64 := least ⟨s.toNat_lt.le, whole_space⟩
    have fits : lines lsize.toNat s.toNat * lsize.toNat ≠ 2 ^ 64 := by
      intro wraps
      rw [wraps, Nat.mod_self] at holds
      omega
    -- the next multiple is at most 2^64 as well
    obtain ⟨p, space⟩ := whole_space
    have fewer : lines lsize.toNat s.toNat < p := by
      refine lt_of_mul_lt_mul_right (a := lsize.toNat) ?_ (Nat.zero_le _)
      rw [Nat.mul_comm p, ← space]
      omega
    have next := Nat.mul_le_mul_right lsize.toNat fewer
    rw [Nat.succ_mul, Nat.mul_comm p, ← space] at next
    omega
  · intro room
    have below : lines lsize.toNat s.toNat * lsize.toNat ≤ 2 ^ 64 - lsize.toNat :=
      least ⟨room, Nat.dvd_sub whole_space (dvd_refl _)⟩
    refine ⟨0, _, rfl, ?_⟩
    rw [toNat_lines size, Nat.mod_eq_of_lt (by omega)]
    exact lines_least pos

/-- `align_size` does what it is for except for no bytes at all, where the halving goes on
forever, and for more than the last line boundary, where the product wraps to 0. -/
theorem alignSize_iff (line : (getL1Dline torque l1DlineSize).1 = some lsize)
    (size : lsize.toNat = 2 ^ k) (s : UInt64) :
    Aligns torque l1DlineSize lsize s ↔ 1 ≤ s.toNat ∧ s.toNat ≤ 2 ^ 64 - lsize.toNat := by
  have line_fits := lsize.toNat_lt
  rcases Nat.lt_or_ge lsize.toNat s.toNat with large | small
  · rw [aligns_large line size large]
    omega
  · rw [aligns_small line size small]
    omega

end Line

theorem alignSize_iff_test : Aligns ⟨true, false⟩ 0 64 257 ↔ 1 ≤ 257 ∧ 257 ≤ 2 ^ 64 - 64 :=
  alignSize_iff (k := 6) rfl rfl 257

/-- No fuel is enough for a size of 0. -/
theorem alignSize_zero : ¬ Aligns ⟨true, false⟩ 0 64 0 :=
  fun aligned => absurd ((aligns_small (k := 6) rfl rfl (Nat.zero_le _)).mp aligned) (by decide)

end Libdank.CacheLines
