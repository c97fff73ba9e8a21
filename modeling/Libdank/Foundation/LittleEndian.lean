import Mathlib.Data.List.Basic
import Mathlib.Tactic

/-! Numbers laid out in bytes, the least significant byte first. A pointer into a buffer is the
list of the bytes from there on; where there are no more of them, zeros are read. -/
namespace Libdank.LittleEndian

/-- A number in `width` bytes. -/
def wire : ℕ → ℕ → List UInt8
  | 0, _ => []
  | width + 1, n => UInt8.ofNat n :: wire width (n / 256)

/-- The number in the first `width` bytes. -/
def peek : ℕ → List UInt8 → ℕ
  | 0, _ => 0
  | width + 1, p => (p.headD 0).toNat + 256 * peek width p.tail

@[simp] theorem length_wire (width n : ℕ) : (wire width n).length = width := by
  induction width generalizing n with
  | zero => rfl
  | succ width ih => rw [wire, List.length_cons, ih]

theorem peek_lt (width : ℕ) (p : List UInt8) : peek width p < 256 ^ width := by
  induction width generalizing p with
  | zero => exact one_pos
  | succ width ih =>
    have first := (p.headD 0).toNat_lt
    have later := ih p.tail
    rw [peek, pow_succ]
    omega

theorem peek_wire_append {width n : ℕ} (fits : n < 256 ^ width) (rest : List UInt8) :
    peek width (wire width n ++ rest) = n := by
  induction width generalizing n with
  | zero => exact (Nat.lt_one_iff.mp fits).symm
  | succ width ih =>
    have high : n / 256 < 256 ^ width := by
      rw [Nat.div_lt_iff_lt_mul (by decide), ← pow_succ]
      exact fits
    rw [wire, peek, List.cons_append, List.headD_cons, List.tail_cons, ih high, UInt8.toNat_ofNat']
    omega

theorem peek_append {width : ℕ} {p : List UInt8} (long : width ≤ p.length) (rest : List UInt8) :
    peek width (p ++ rest) = peek width p := by
  induction width generalizing p with
  | zero => rfl
  | succ width ih =>
    cases p with
    | nil => exact absurd long (Nat.not_succ_le_zero width)
    | cons c p =>
      rw [List.cons_append, peek, peek, List.tail_cons, List.tail_cons,
        ih (Nat.le_of_succ_le_succ long)]
      rfl

@[simp] theorem drop_wire_append (width n : ℕ) (rest : List UInt8) :
    (wire width n ++ rest).drop width = rest :=
  List.drop_left' (length_wire width n)

theorem wire_add (low high n : ℕ) : wire (low + high) n = wire low n ++ wire high (n / 256 ^ low) := by
  induction low generalizing n with
  | zero => rw [Nat.zero_add, pow_zero, Nat.div_one, wire, List.nil_append]
  | succ low ih =>
    rw [Nat.add_right_comm, wire, wire, ih, List.cons_append, pow_succ', Nat.div_div_eq_div_mul]

end Libdank.LittleEndian
