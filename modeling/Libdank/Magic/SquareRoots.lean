import Mathlib.Data.Nat.Size
import Mathlib.Tactic

/-! The approximate square roots of `utils/magic.c`, with the bit counts of `utils/magic.h`. -/
namespace Libdank.Magic

def popCount32 (n : UInt32) : UInt32 :=
  let n := n - ((n >>> 1) &&& 0x55555555)
  let n := (n &&& (0x33333333 : UInt32)) + ((n >>> 2) &&& (0x33333333 : UInt32))
  let n := (n + (n >>> 4)) &&& 0x0f0f0f0f
  let n := n + (n >>> 8)
  let n := n + (n >>> 16)
  n &&& 0x0000003f

def smear (shift n : UInt32) : UInt32 := n ||| (n >>> shift)

def nlz32 (n : UInt32) : UInt32 := popCount32 (~~~smear 16 (smear 8 (smear 4 (smear 2 (smear 1 n)))))

def sqrtu32 (n : UInt32) : UInt32 := n >>> ((32 - nlz32 n) / 2)

/-- The bits of `x` are those of `n`, each copied to all of the `w` places from its own down. -/
def Smeared (w : ℕ) (n x : UInt32) : Prop :=
  ∀ i, x.toNat.testBit i = true ↔ ∃ d < w, n.toNat.testBit (i + d) = true

theorem smeared_self (n : UInt32) : Smeared 1 n n := by
  intro i
  simp

theorem Smeared.twice {w : ℕ} {n x : UInt32} (smeared : Smeared w n x) {shift : UInt32}
    (places : shift.toNat % 32 = w) : Smeared (w + w) n (smear shift x) := by
  intro i
  rw [smear, UInt32.toNat_or, UInt32.toNat_shiftRight, places, Nat.testBit_or, Nat.testBit_shiftRight,
    Bool.or_eq_true, smeared, smeared]
  constructor
  · rintro (⟨d, near, bit⟩ | ⟨d, far, bit⟩)
    · exact ⟨d, by omega, bit⟩
    · exact ⟨w + d, by omega, by rwa [← Nat.add_assoc, Nat.add_comm i w]⟩
  · rintro ⟨d, inside, bit⟩
    rcases Nat.lt_or_ge d w with near | far
    · exact .inl ⟨d, near, bit⟩
    · refine .inr ⟨d - w, by omega, ?_⟩
      have place : w + i + (d - w) = i + d := by omega
      rwa [place]

theorem smeared_size {n x : UInt32} (smeared : Smeared 32 n x) :
    x.toNat = 2 ^ n.toNat.size - 1 := by
  apply Nat.eq_of_testBit_eq
  intro i
  rw [Nat.testBit_two_pow_sub_one, Bool.eq_iff_iff, smeared, decide_eq_true_eq]
  have short : n.toNat.size ≤ 32 := Nat.size_le.mpr n.toNat_lt
  constructor
  · rintro ⟨d, -, bit⟩
    have above : i + d < n.toNat.size := Nat.lt_size.mpr (Nat.ge_two_pow_of_testBit bit)
    omega
  · intro below
    obtain ⟨j, above, bit⟩ := Nat.exists_ge_and_testBit_of_ge_two_pow (Nat.lt_size.mp below)
    have inside : j < n.toNat.size := Nat.lt_size.mpr (Nat.ge_two_pow_of_testBit bit)
    exact ⟨j - i, by omega, by rwa [Nat.add_sub_cancel' above]⟩

theorem popCount32_high : ∀ b ≤ 32, popCount32 (~~~UInt32.ofNat (2 ^ b - 1)) = UInt32.ofNat (32 - b) := by
  decide +kernel

theorem nlz32_eq (n : UInt32) : nlz32 n = UInt32.ofNat (32 - n.toNat.size) := by
  have smeared : Smeared 32 n (smear 16 (smear 8 (smear 4 (smear 2 (smear 1 n))))) :=
    (((((smeared_self n).twice (w := 1) rfl).twice (w := 2) rfl).twice (w := 4) rfl).twice (w := 8) rfl).twice
      (w := 16) rfl
  have bits : smear 16 (smear 8 (smear 4 (smear 2 (smear 1 n)))) = UInt32.ofNat (2 ^ n.toNat.size - 1) := by
    apply UInt32.toNat_inj.mp
    have fits : 2 ^ n.toNat.size ≤ 2 ^ 32 :=
      Nat.pow_le_pow_right (by decide) (Nat.size_le.mpr n.toNat_lt)
    rw [smeared_size smeared, UInt32.toNat_ofNat', Nat.mod_eq_of_lt (by omega)]
  rw [nlz32, bits]
  exact popCount32_high _ (Nat.size_le.mpr n.toNat_lt)

theorem toNat_sqrtu32 (n : UInt32) : (sqrtu32 n).toNat = n.toNat / 2 ^ (n.toNat.size / 2) := by
  have short : n.toNat.size ≤ 32 := Nat.size_le.mpr n.toNat_lt
  have half : ∀ b ≤ 32, ((32 - UInt32.ofNat (32 - b)) / 2).toNat % 32 = b / 2 := by decide +kernel
  rw [sqrtu32, nlz32_eq, UInt32.toNat_shiftRight, half _ short, Nat.shiftRight_eq_div_pow]

section Root
variable {n : ℕ}

def root (n : ℕ) : ℕ := n / 2 ^ (n.size / 2)

theorem two_pow_le_of_pos (pos : 0 < n) : 2 ^ (n.size - 1) ≤ n :=
  Nat.lt_size.mp (Nat.sub_one_lt (Nat.size_pos.mpr pos).ne')

theorem root_pos (pos : 0 < n) : 0 < root n := by
  have some_ := Nat.size_pos.mpr pos
  have half : 2 ^ (n.size / 2) ≤ 2 ^ (n.size - 1) := Nat.pow_le_pow_right (by decide) (by omega)
  exact Nat.div_pos (le_trans half (two_pow_le_of_pos pos)) (Nat.two_pow_pos _)

theorem two_mul_root_le (two : 2 ≤ n) : 2 * root n ≤ n := by
  have long : 2 ≤ n.size := Nat.lt_size.mpr two
  have once : 2 ^ 1 ≤ 2 ^ (n.size / 2) := Nat.pow_le_pow_right (by decide) (by omega)
  have less : root n ≤ n / 2 := Nat.div_le_div_left once (by decide)
  omega

theorem lt_root_succ_sq (pos : 0 < n) : n < 2 * (root n + 1) ^ 2 := by
  have below : n < (root n + 1) * 2 ^ (n.size / 2) := by
    rw [Nat.add_mul, one_mul]
    exact Nat.lt_div_mul_add (Nat.two_pow_pos _)
  have square : (2 ^ (n.size / 2)) ^ 2 ≤ 2 * n := by
    have shorter : 2 ^ (n.size / 2 * 2) ≤ 2 ^ (n.size - 1 + 1) :=
      Nat.pow_le_pow_right (by decide) (by omega)
    rw [← pow_mul]
    rw [pow_succ 2 (n.size - 1)] at shorter
    have := two_pow_le_of_pos pos
    omega
  refine lt_of_mul_lt_mul_left ?_ (Nat.zero_le n)
  calc n * n < ((root n + 1) * 2 ^ (n.size / 2)) * ((root n + 1) * 2 ^ (n.size / 2)) :=
        Nat.mul_lt_mul'' below below
    _ = (root n + 1) ^ 2 * (2 ^ (n.size / 2)) ^ 2 := by ring
    _ ≤ (root n + 1) ^ 2 * (2 * n) := Nat.mul_le_mul_left _ square
    _ = n * (2 * (root n + 1) ^ 2) := by ring

end Root

end Libdank.Magic
