import Libdank.IpSet.Notations

/-! The range of addresses that a route covers, as `iprange_from_route` finds it. -/
namespace Libdank.IpSet

def shiftMask : ℕ → UInt32 → UInt32
  | 0, imask => imask
  | bits + 1, imask => shiftMask bits (imask <<< 1)

def iprangeFromRoute (dst : UInt32) (bits : ℕ) : Option Iprange :=
  if 32 < bits then none
  else
    let imask := shiftMask (32 - bits) 0xffffffff
    some ⟨dst &&& imask, dst &&& imask ||| ~~~imask⟩

/-- The first `bits` bits are the same. -/
def SharesBits (bits : ℕ) (a x : UInt32) : Prop :=
  ∀ i < bits, x.toBitVec.getMsbD i = a.toBitVec.getMsbD i

instance (bits : ℕ) (a x : UInt32) : Decidable (SharesBits bits a x) :=
  inferInstanceAs (Decidable (∀ i < bits, x.toBitVec.getMsbD i = a.toBitVec.getMsbD i))

theorem sharesBits_iff {bits : ℕ} (le : bits ≤ 32) (a x : UInt32) :
    SharesBits bits a x ↔ x.toNat / 2 ^ (32 - bits) = a.toNat / 2 ^ (32 - bits) := by
  have msb : ∀ (y : UInt32) (i : ℕ), i < 32 →
      y.toBitVec.getMsbD i = y.toNat.testBit (31 - i) := by
    intro y i inside
    rw [BitVec.getMsbD, decide_eq_true inside, Bool.true_and, Nat.sub_right_comm]
    rfl
  constructor
  · intro shared
    apply Nat.eq_of_testBit_eq
    intro j
    rw [Nat.testBit_div_two_pow, Nat.testBit_div_two_pow]
    by_cases high : j + (32 - bits) < 32
    · have same := shared (31 - (j + (32 - bits))) (by omega)
      rw [msb x _ (by omega), msb a _ (by omega)] at same
      have place : 31 - (31 - (j + (32 - bits))) = j + (32 - bits) := by omega
      rwa [place] at same
    · have out : ∀ y : UInt32, y.toNat.testBit (j + (32 - bits)) = false := fun y =>
        Nat.testBit_lt_two_pow (lt_of_lt_of_le y.toNat_lt (Nat.pow_le_pow_right (by decide) (by omega)))
      rw [out x, out a]
  · intro same i first
    have bit := congrArg (fun n => n.testBit (31 - i - (32 - bits))) same
    simp only [Nat.testBit_div_two_pow] at bit
    have place : 31 - i - (32 - bits) + (32 - bits) = 31 - i := by omega
    rwa [place, ← msb x i (by omega), ← msb a i (by omega)] at bit

theorem toNat_shiftMask (bits : ℕ) (imask : UInt32) :
    (shiftMask bits imask).toNat = imask.toNat <<< bits % 2 ^ 32 := by
  induction bits generalizing imask with
  | zero => exact (Nat.mod_eq_of_lt imask.toNat_lt).symm
  | succ bits ih =>
    have once : (imask <<< 1).toNat = imask.toNat <<< 1 % 2 ^ 32 := UInt32.toNat_shiftLeft imask 1
    rw [shiftMask, ih, once, Nat.shiftLeft_eq, Nat.mod_mul_mod, ← Nat.shiftLeft_eq,
      ← Nat.shiftLeft_add, Nat.add_comm]

theorem toNat_not_shiftMask {c : ℕ} (le : c ≤ 32) :
    (~~~shiftMask c 0xffffffff).toNat = 2 ^ c - 1 := by
  have pos := Nat.two_pow_pos c
  have below : 2 ^ c ≤ 2 ^ 32 := Nat.pow_le_pow_right (by decide) le
  have whole : (2 ^ 32 - 1) * 2 ^ c = 2 ^ 32 - 2 ^ c + 2 ^ 32 * (2 ^ c - 1) := by
    rw [Nat.sub_mul, Nat.mul_sub]
    omega
  have mask : (shiftMask c 0xffffffff).toNat = 2 ^ 32 - 2 ^ c := by
    rw [toNat_shiftMask, Nat.shiftLeft_eq]
    change (2 ^ 32 - 1) * 2 ^ c % 2 ^ 32 = _
    rw [whole, Nat.add_mul_mod_self_left, Nat.mod_eq_of_lt (by omega)]
  rw [UInt32.toNat_not, mask]
  change 2 ^ 32 - 1 - _ = _
  omega

theorem iprangeFromRoute_eq (dst : UInt32) {bits : ℕ} (le : bits ≤ 32) :
    iprangeFromRoute dst bits = some (blockRange dst bits) := by
  have lower : dst &&& shiftMask (32 - bits) 0xffffffff = (blockRange dst bits).lower := by
    apply UInt32.toNat_inj.mp
    rw [UInt32.toNat_and, toNat_shiftMask, blockRange_lower]
    exact and_ones_shift dst.toNat_lt
  have upper : (blockRange dst bits).lower ||| ~~~shiftMask (32 - bits) 0xffffffff =
      (blockRange dst bits).upper := by
    apply UInt32.toNat_inj.mp
    rw [UInt32.toNat_or, toNat_not_shiftMask (Nat.sub_le _ _), blockRange_lower, blockRange_upper,
      mul_comm, Nat.two_pow_add_eq_or_of_lt (Nat.sub_lt (Nat.two_pow_pos _) one_pos)]
  rw [iprangeFromRoute, if_neg (Nat.not_lt.mpr le)]
  simp only [lower, upper]

theorem mem_iprangeFromRoute {dst : UInt32} {bits : ℕ} {ir : Iprange} (le : bits ≤ 32)
    (range : iprangeFromRoute dst bits = some ir) (x : UInt32) :
    x ∈ ir.addresses ↔ SharesBits bits dst x := by
  rw [iprangeFromRoute_eq dst le] at range
  obtain rfl := Option.some.inj range
  rw [mem_blockRange, sharesBits_iff le]

end Libdank.IpSet
