import Mathlib.Algebra.BigOperators.Group.Finset.Basic
import Mathlib.Data.Nat.Bitwise
import Mathlib.Tactic

/-! Words read as digits of `h` bits, and masks that keep every other one of them. Added up in
pairs, the digits have the same sum as before, in lanes twice as wide. -/
namespace Libdank.Lanes

def digitSum (h : ℕ) : ℕ → ℕ → ℕ
  | 0, _ => 0
  | k + 1, x => x % 2 ^ h + digitSum h k (x / 2 ^ h)

/-- Ones in the lower halves of `k` lanes of `2 * h` bits. -/
def mask (h : ℕ) : ℕ → ℕ
  | 0 => 0
  | k + 1 => 2 ^ h - 1 + 2 ^ (2 * h) * mask h k

def evens (h : ℕ) : ℕ → ℕ → ℕ
  | 0, _ => 0
  | k + 1, x => x % 2 ^ h + 2 ^ (2 * h) * evens h k (x / 2 ^ (2 * h))

def pairs (h k x : ℕ) : ℕ := evens h k x + evens h k (x / 2 ^ h)

def Small (h m x : ℕ) : Prop := ∀ i, x / 2 ^ (h * i) % 2 ^ h ≤ m

section Digits
variable {h : ℕ} (k x : ℕ)

theorem two_pow_double (h : ℕ) : 2 ^ (2 * h) = 2 ^ h * 2 ^ h := by
  rw [Nat.two_mul, pow_add]

theorem div_lane (h x : ℕ) : x / 2 ^ (2 * h) = x / 2 ^ h / 2 ^ h := by
  rw [two_pow_double, Nat.div_div_eq_div_mul]

theorem digit_lt (h x : ℕ) : x % 2 ^ h < 2 ^ h := Nat.mod_lt x (Nat.two_pow_pos h)

theorem and_mask : x &&& mask h k = evens h k x := by
  induction k generalizing x with
  | zero => exact Nat.and_zero x
  | succ k ih =>
    have ones : 2 ^ h - 1 < 2 ^ (2 * h) :=
      lt_of_lt_of_le (Nat.sub_lt (Nat.two_pow_pos h) one_pos) (Nat.pow_le_pow_right (by decide) (by omega))
    have low : (x &&& mask h (k + 1)) % 2 ^ (2 * h) = x % 2 ^ h := by
      rw [Nat.and_mod_two_pow, mask, Nat.add_mul_mod_self_left, Nat.mod_eq_of_lt ones,
        Nat.and_two_pow_sub_one_eq_mod, two_pow_double, Nat.mod_mul_right_mod]
    have high : (x &&& mask h (k + 1)) / 2 ^ (2 * h) = evens h k (x / 2 ^ (2 * h)) := by
      rw [Nat.and_div_two_pow, mask, Nat.add_mul_div_left _ _ (Nat.two_pow_pos _),
        Nat.div_eq_of_lt ones, Nat.zero_add, ih]
    rw [evens, ← low, ← high, Nat.mod_add_div]

theorem evens_add (x : ℕ) : evens h k x + 2 ^ h * evens h k (x / 2 ^ h) = x % 2 ^ (2 * h * k) := by
  induction k generalizing x with
  | zero => rw [Nat.mul_zero, pow_zero, Nat.mod_one]; rfl
  | succ k ih =>
    have deeper := ih (x / 2 ^ (2 * h))
    have same : x / 2 ^ (2 * h) / 2 ^ h = x / 2 ^ h / 2 ^ (2 * h) := Nat.div_right_comm ..
    have digits : x % 2 ^ (2 * h) = x % 2 ^ h + 2 ^ h * (x / 2 ^ h % 2 ^ h) := by
      rw [two_pow_double, Nat.mod_mul]
    rw [same] at deeper
    calc evens h (k + 1) x + 2 ^ h * evens h (k + 1) (x / 2 ^ h)
        = x % 2 ^ h + 2 ^ h * (x / 2 ^ h % 2 ^ h) + 2 ^ (2 * h) *
            (evens h k (x / 2 ^ (2 * h)) + 2 ^ h * evens h k (x / 2 ^ h / 2 ^ (2 * h))) := by
          rw [evens, evens]
          ring
      _ = x % 2 ^ (2 * h) + 2 ^ (2 * h) * (x / 2 ^ (2 * h) % 2 ^ (2 * h * k)) := by
          rw [deeper, digits]
      _ = x % 2 ^ (2 * h * (k + 1)) := by
          rw [Nat.mul_succ, pow_add, Nat.mul_comm (2 ^ (2 * h * k)), Nat.mod_mul]

theorem pairs_succ : pairs h (k + 1) x =
    x % 2 ^ h + x / 2 ^ h % 2 ^ h + 2 ^ (2 * h) * pairs h k (x / 2 ^ (2 * h)) := by
  have same : x / 2 ^ h / 2 ^ (2 * h) = x / 2 ^ (2 * h) / 2 ^ h := Nat.div_right_comm ..
  rw [pairs, evens, evens, pairs, same]
  ring

theorem pair_lt (pos : 0 < h) (x : ℕ) : x % 2 ^ h + x / 2 ^ h % 2 ^ h < 2 ^ (2 * h) := by
  have two : 2 ≤ 2 ^ h := Nat.le_self_pow pos.ne' 2
  have double : 2 * 2 ^ h ≤ 2 ^ h * 2 ^ h := Nat.mul_le_mul_right _ two
  have first := digit_lt h x
  have second := digit_lt h (x / 2 ^ h)
  rw [two_pow_double]
  omega

theorem pairs_mod (pos : 0 < h) : pairs h (k + 1) x % 2 ^ (2 * h) = x % 2 ^ h + x / 2 ^ h % 2 ^ h := by
  rw [pairs_succ, Nat.add_mul_mod_self_left, Nat.mod_eq_of_lt (pair_lt pos x)]

theorem pairs_div (pos : 0 < h) : pairs h (k + 1) x / 2 ^ (2 * h) = pairs h k (x / 2 ^ (2 * h)) := by
  rw [pairs_succ, Nat.add_mul_div_left _ _ (Nat.two_pow_pos _), Nat.div_eq_of_lt (pair_lt pos x),
    Nat.zero_add]

theorem pairs_lt (pos : 0 < h) : pairs h k x < 2 ^ (2 * h * k) := by
  induction k generalizing x with
  | zero => exact one_pos
  | succ k ih =>
    rw [Nat.mul_succ, pow_add, ← Nat.div_lt_iff_lt_mul (Nat.two_pow_pos _), pairs_div k x pos]
    exact ih _

theorem digitSum_pairs (pos : 0 < h) : digitSum (2 * h) k (pairs h k x) = digitSum h (2 * k) x := by
  induction k generalizing x with
  | zero => rfl
  | succ k ih =>
    rw [digitSum, pairs_mod k x pos, pairs_div k x pos, ih, Nat.mul_succ, digitSum, digitSum, div_lane,
      Nat.add_assoc]

end Digits

section Small
variable {h m x : ℕ}

theorem Small.above (small : Small h m x) : Small h m (x / 2 ^ h) := by
  intro i
  rw [Nat.div_div_eq_div_mul, ← pow_add, Nat.add_comm, ← Nat.mul_succ]
  exact small (i + 1)

theorem Small.first (small : Small h m x) : x % 2 ^ h ≤ m := by
  simpa using small 0

theorem Small.second (small : Small h m x) : x / 2 ^ h % 2 ^ h ≤ m := small.above.first

theorem small_one (x : ℕ) : Small 1 1 x := fun _ => Nat.lt_succ_iff.mp (digit_lt 1 _)

theorem Small.pairs (pos : 0 < h) (small : Small h m x) (k : ℕ) : Small (2 * h) (2 * m) (pairs h k x) := by
  intro i
  induction k generalizing x i with
  | zero => simp [Lanes.pairs, evens]
  | succ k ih =>
    cases i with
    | zero =>
      have first := small.first
      have second := small.second
      rw [Nat.mul_zero, pow_zero, Nat.div_one, pairs_mod k x pos]
      omega
    | succ i =>
      have above := small.above.above
      rw [← div_lane] at above
      rw [Nat.mul_succ, pow_add, Nat.mul_comm (2 ^ (2 * h * i)), ← Nat.div_div_eq_div_mul, pairs_div k x pos]
      exact ih above i

theorem add_shifted (h x : ℕ) : x + x / 2 ^ h = x % 2 ^ h + x / 2 ^ h % 2 ^ h +
    2 ^ h * (x / 2 ^ h % 2 ^ h + x / 2 ^ (2 * h) % 2 ^ h +
      2 ^ h * (x / 2 ^ (2 * h) + x / 2 ^ (2 * h) / 2 ^ h)) := by
  have parts : ∀ y, y = y % 2 ^ h + 2 ^ h * (y / 2 ^ h) := fun y => (Nat.mod_add_div y _).symm
  rw [div_lane]
  calc x + x / 2 ^ h = x % 2 ^ h + 2 ^ h * (x / 2 ^ h) +
        (x / 2 ^ h % 2 ^ h + 2 ^ h * (x / 2 ^ h / 2 ^ h)) := by rw [← parts, ← parts]
    _ = x % 2 ^ h + x / 2 ^ h % 2 ^ h + 2 ^ h * (x / 2 ^ h + x / 2 ^ h / 2 ^ h) := by ring
    _ = x % 2 ^ h + x / 2 ^ h % 2 ^ h + 2 ^ h * (x / 2 ^ h % 2 ^ h + 2 ^ h * (x / 2 ^ h / 2 ^ h) +
          (x / 2 ^ h / 2 ^ h % 2 ^ h + 2 ^ h * (x / 2 ^ h / 2 ^ h / 2 ^ h))) := by rw [← parts, ← parts]
    _ = _ := by ring

theorem evens_add_shifted (small : Small h m x) (room : 2 * m < 2 ^ h) (k : ℕ) :
    evens h k (x + x / 2 ^ h) = Lanes.pairs h k x := by
  induction k generalizing x with
  | zero => rfl
  | succ k ih =>
    have above := small.above.above
    rw [← div_lane] at above
    have first := small.first
    have second := small.second
    have third := above.first
    have low : (x + x / 2 ^ h) % 2 ^ h = x % 2 ^ h + x / 2 ^ h % 2 ^ h := by
      rw [add_shifted, Nat.add_mul_mod_self_left, Nat.mod_eq_of_lt (by omega)]
    have high : (x + x / 2 ^ h) / 2 ^ (2 * h) = x / 2 ^ (2 * h) + x / 2 ^ (2 * h) / 2 ^ h := by
      have carry : (x % 2 ^ h + x / 2 ^ h % 2 ^ h) / 2 ^ h = 0 := Nat.div_eq_of_lt (by omega)
      have carry' : (x / 2 ^ h % 2 ^ h + x / 2 ^ (2 * h) % 2 ^ h) / 2 ^ h = 0 :=
        Nat.div_eq_of_lt (by omega)
      rw [add_shifted, div_lane h (_ + _), Nat.add_mul_div_left _ _ (Nat.two_pow_pos h), carry,
        Nat.zero_add, Nat.add_mul_div_left _ _ (Nat.two_pow_pos h), carry', Nat.zero_add]
    rw [evens, low, high, ih above, pairs_succ]

end Small

theorem digitSum_one (k x : ℕ) :
    digitSum 1 k x = ((Finset.range k).filter fun i => x.testBit i = true).card := by
  induction k generalizing x with
  | zero => rfl
  | succ k ih =>
    have later := ih (x / 2)
    simp only [Finset.card_filter, ← Nat.testBit_succ] at later ⊢
    rw [Finset.sum_range_succ', ← later, digitSum, pow_one, Nat.add_comm, Nat.testBit_zero]
    have bit := Nat.mod_two_eq_zero_or_one x
    congr 1
    rcases bit with clear | set_
    · rw [clear]
      rfl
    · rw [set_]
      rfl

end Libdank.Lanes
