import Mathlib.Data.List.Basic
import Mathlib.Tactic

/-! Bit tricks, after `utils/magic.h` and the table generated for it. -/
namespace Libdank.Magic

/-- Logarithms by remainder: 2 generates the units modulo the prime 67. -/
def pow2table : List ℕ :=
  [127, 0, 1, 39, 2, 15, 40, 23, 3, 12, 16, 59, 41, 19, 24, 54,
    4, 127, 13, 10, 17, 62, 60, 28, 42, 30, 20, 51, 25, 44, 55, 47,
    5, 32, 127, 38, 14, 22, 11, 58, 18, 53, 63, 9, 61, 27, 29, 50,
    43, 46, 31, 37, 21, 57, 52, 8, 26, 49, 45, 36, 56, 7, 48, 35,
    6, 34, 33]

def uintlog2 (n : ℕ) : ℕ := pow2table.getD (n % pow2table.length) 0

theorem uintlog2_pow {k : ℕ} (lt : k < 64) : uintlog2 (2 ^ k) = k := by
  have table : ∀ k < 64, uintlog2 (2 ^ k) = k := by decide
  exact table k lt

end Libdank.Magic
