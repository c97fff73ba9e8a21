import Libdank.Foundation.Lanes
import Libdank.Magic.SquareRoots

/-! The bit counts of `utils/magic.h` are exact, and the approximate root is off by no more than a
factor. -/
namespace Libdank.Magic
open Lanes

section PopCount

theorem toNat_countPairs (n : UInt32) : (n - ((n >>> 1) &&& 0x55555555)).toNat = pairs 1 16 n.toNat := by
  have masked : ((n >>> 1) &&& (0x55555555 : UInt32)).toNat = evens 1 16 (n.toNat / 2 ^ 1) := by
    rw [UInt32.toNat_and, UInt32.toNat_shiftRight, ← and_mask]
    rfl
  have whole := evens_add (h := 1) 16 n.toNat
  rw [Nat.mod_eq_of_lt n.toNat_lt] at whole
  rw [UInt32.toNat_sub_of_le, masked, pairs]
  · omega
  · rw [UInt32.le_iff_toNat_le, masked]
    omega

theorem toNat_addHalves (n : UInt32) :
    ((n &&& (0x33333333 : UInt32)) + ((n >>> 2) &&& (0x33333333 : UInt32))).toNat = pairs 2 8 n.toNat := by
  have fits : pairs 2 8 n.toNat < 2 ^ 32 := pairs_lt 8 n.toNat (by decide)
  have sum : (n &&& (0x33333333 : UInt32)).toNat + ((n >>> 2) &&& (0x33333333 : UInt32)).toNat =
      pairs 2 8 n.toNat := by
    rw [UInt32.toNat_and, UInt32.toNat_and, UInt32.toNat_shiftRight, Nat.shiftRight_eq_div_pow, pairs,
      ← and_mask, ← and_mask]
    rfl
  rw [UInt32.toNat_add, sum, Nat.mod_eq_of_lt fits]

theorem toNat_addNibbles {n : UInt32} (small : Small 4 4 n.toNat) (room : n.toNat < 2 ^ 31) :
    ((n + (n >>> 4)) &&& 0x0f0f0f0f).toNat = pairs 4 4 n.toNat := by
  have shifted : (n >>> 4).toNat = n.toNat / 2 ^ 4 := Nat.shiftRight_eq_div_pow _ _
  have sum : (n + (n >>> 4)).toNat = n.toNat + n.toNat / 2 ^ 4 := by
    rw [UInt32.toNat_add, shifted, Nat.mod_eq_of_lt (by omega)]
  rw [UInt32.toNat_and, sum, ← evens_add_shifted small (by decide), ← and_mask]
  rfl

theorem exists_bytes {x : ℕ} (word : x < 2 ^ 32) (small : Small 8 8 x) :
    ∃ a b c d, a ≤ 8 ∧ b ≤ 8 ∧ c ≤ 8 ∧ d ≤ 8 ∧ x = a + 256 * b + 65536 * c + 16777216 * d ∧
      digitSum 8 4 x = a + b + c + d := by
  refine ⟨_, _, _, _, small.first, small.second, small.above.second, small.above.above.second, ?_, ?_⟩
  · omega
  · simp only [digitSum, Nat.add_zero, Nat.add_assoc]

theorem toNat_addBytes {n m : UInt32} (small : Small 8 8 n.toNat) (folded : m = n + (n >>> 8)) :
    ((m + (m >>> 16)) &&& 0x0000003f).toNat = digitSum 8 4 n.toNat := by
  obtain ⟨a, b, c, d, ha, hb, hc, hd, bytes, sum⟩ := exists_bytes n.toNat_lt small
  have shifted : (n >>> 8).toNat = n.toNat / 2 ^ 8 := Nat.shiftRight_eq_div_pow _ _
  have half : m.toNat = (a + b) + 256 * (b + c) + 65536 * (c + d) + 16777216 * d := by
    rw [folded, UInt32.toNat_add, shifted, bytes, Nat.mod_eq_of_lt (by omega)]
    omega
  have shifted' : (m >>> 16).toNat = (c + d) + 256 * d := by
    have places : (m >>> 16).toNat = m.toNat / 2 ^ 16 := Nat.shiftRight_eq_div_pow _ _
    rw [places, half]
    omega
  have whole : (m + (m >>> 16)).toNat = (a + b + c + d) + 64 * (4 * (b + c + d) + 1024 * (c + d) + 262144 * d) := by
    rw [UInt32.toNat_add, half, shifted', Nat.mod_eq_of_lt (by omega)]
    ring
  have masked : ((m + (m >>> 16)) &&& 0x0000003f).toNat = (m + (m >>> 16)).toNat % 2 ^ 6 := by
    rw [UInt32.toNat_and]
    exact Nat.and_two_pow_sub_one_eq_mod _ 6
  rw [masked, whole, sum]
  omega

/-- No field overflows, and what is returned is the number of the bits that are set. -/
theorem toNat_popCount32 (n : UInt32) :
    (popCount32 n).toNat = ((Finset.range 32).filter fun i => n.toNat.testBit i = true).card := by
  let a := n - ((n >>> 1) &&& 0x55555555)
  let b := (a &&& (0x33333333 : UInt32)) + ((a >>> 2) &&& (0x33333333 : UInt32))
  let c := (b + (b >>> 4)) &&& 0x0f0f0f0f
  have first : a.toNat = pairs 1 16 n.toNat := toNat_countPairs n
  have second : b.toNat = pairs 2 8 a.toNat := toNat_addHalves a
  have bits := (small_one n.toNat).pairs (by decide) 16
  rw [← first] at bits
  have halves := bits.pairs (by decide) 8
  rw [← second] at halves
  have room : b.toNat < 2 ^ 31 := by
    have top := halves 7
    have word := b.toNat_lt
    omega
  have nibbles := halves.pairs (by decide) 4
  have third : c.toNat = pairs 4 4 b.toNat := toNat_addNibbles halves room
  rw [← third] at nibbles
  calc (popCount32 n).toNat = digitSum 8 4 c.toNat := toNat_addBytes nibbles rfl
    _ = digitSum 4 8 b.toNat := by rw [third]; exact digitSum_pairs 4 b.toNat (by decide)
    _ = digitSum 2 16 a.toNat := by rw [second]; exact digitSum_pairs 8 a.toNat (by decide)
    _ = digitSum 1 32 n.toNat := by rw [first]; exact digitSum_pairs 16 n.toNat (by decide)
    _ = _ := digitSum_one 32 n.toNat

end PopCount

theorem nlz32_leading {n : UInt32} (pos : 1 ≤ n.toNat) :
    (∀ i < (nlz32 n).toNat, n.toBitVec.getMsbD i = false) ∧ n.toBitVec.getMsbD (nlz32 n).toNat = true := by
  have short : n.toNat.size ≤ 32 := Nat.size_le.mpr n.toNat_lt
  have some_ : 0 < n.toNat.size := Nat.size_pos.mpr pos
  have places : (nlz32 n).toNat = 32 - n.toNat.size := by
    rw [nlz32_eq, UInt32.toNat_ofNat_of_lt' (by simp only [UInt32.size]; omega)]
  have msb : ∀ i < 32, n.toBitVec.getMsbD i = n.toNat.testBit (31 - i) := by
    intro i inside
    rw [BitVec.getMsbD, decide_eq_true inside, Bool.true_and, Nat.sub_right_comm]
    rfl
  rw [places]
  constructor
  · intro i before
    rw [msb i (by omega)]
    apply Nat.testBit_lt_two_pow
    exact lt_of_lt_of_le (Nat.lt_size_self _) (Nat.pow_le_pow_right (by decide) (by omega))
  · rw [msb _ (by omega)]
    have top : 31 - (32 - n.toNat.size) = n.toNat.size - 1 := by omega
    rw [top]
    apply Nat.testBit_of_two_pow_le_and_two_pow_add_one_gt (two_pow_le_of_pos pos)
    rw [Nat.sub_add_cancel some_]
    exact Nat.lt_size_self _

theorem root_sq_le (n : ℕ) : root n * root n ≤ 2 * n := by
  have below : root n * 2 ^ (n.size / 2) ≤ n := Nat.div_mul_le_self _ _
  have above : n < 2 * (2 ^ (n.size / 2) * 2 ^ (n.size / 2)) := by
    rw [← pow_add, ← pow_succ']
    exact lt_of_lt_of_le (Nat.lt_size_self n) (Nat.pow_le_pow_right (by decide) (by omega))
  rcases Nat.eq_zero_or_pos n with rfl | pos
  · rfl
  refine Nat.le_of_mul_le_mul_right ?_ pos
  calc root n * root n * n ≤ root n * root n * (2 * (2 ^ (n.size / 2) * 2 ^ (n.size / 2))) :=
        Nat.mul_le_mul_left _ above.le
    _ = 2 * ((root n * 2 ^ (n.size / 2)) * (root n * 2 ^ (n.size / 2))) := by ring
    _ ≤ 2 * (n * n) := Nat.mul_le_mul_left 2 (Nat.mul_le_mul below below)
    _ = 2 * n * n := by ring

/-- The bit counts are exact for every word, and the root is close to the true one. -/
theorem sqrtu32_close :
    (∀ n : UInt32, (popCount32 n).toNat =
      ((Finset.range 32).filter fun i => n.toNat.testBit i = true).card) ∧
    ∀ n : UInt32, 1 ≤ n.toNat →
      ((∀ i < (nlz32 n).toNat, n.toBitVec.getMsbD i = false) ∧ n.toBitVec.getMsbD (nlz32 n).toNat = true) ∧
      1 ≤ (sqrtu32 n).toNat ∧ (sqrtu32 n).toNat ≤ n.toNat ∧
      (sqrtu32 n).toNat * (sqrtu32 n).toNat ≤ 2 * n.toNat ∧
      n.toNat < 2 * (((sqrtu32 n).toNat + 1) * ((sqrtu32 n).toNat + 1)) := by
  refine ⟨toNat_popCount32, fun n pos => ⟨nlz32_leading pos, ?_⟩⟩
  have same : (sqrtu32 n).toNat = root n.toNat := toNat_sqrtu32 n
  have above := lt_root_succ_sq pos
  rw [same]
  rw [pow_two] at above
  exact ⟨root_pos pos, Nat.div_le_self _ _, root_sq_le n.toNat, above⟩

theorem sqrtu32_close_six : 1 ≤ (sqrtu32 6).toNat ∧ (sqrtu32 6).toNat ≤ (6 : UInt32).toNat ∧
    (sqrtu32 6).toNat * (sqrtu32 6).toNat ≤ 2 * (6 : UInt32).toNat ∧
      (6 : UInt32).toNat < 2 * (((sqrtu32 6).toNat + 1) * ((sqrtu32 6).toNat + 1)) :=
  (sqrtu32_close.2 6 (by decide)).2

end Libdank.Magic
