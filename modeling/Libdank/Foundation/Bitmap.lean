import Mathlib.Data.Finset.Card
import Mathlib.Data.Nat.Bitwise
import Mathlib.Tactic

/-! Arrays of machine words read as finite sets of naturals: `i` is in the set
if bit `i % w` of word `i / w` is on. -/
namespace Libdank.Bitmap

variable {w : ℕ}

theorem testBit_succ_of_lowest {x k : ℕ} (below : ∀ i < k, x.testBit i = true)
    (clear : x.testBit k = false) (i : ℕ) :
    (x + 1).testBit i = if i < k then false else if i = k then true else x.testBit i := by
  induction k generalizing x i with
  | zero =>
    have even : x % 2 = 0 := by simpa using clear
    cases i with
    | zero => simp; omega
    | succ i =>
      rw [Nat.testBit_succ, Nat.testBit_succ, show (x + 1) / 2 = x / 2 by omega]
      simp
  | succ k ih =>
    have odd : x % 2 = 1 := by simpa using below 0 (by omega)
    have half := @ih (x / 2) (fun i lt => by
      rw [← Nat.testBit_succ]
      exact below (i + 1) (by omega)) (by rw [← Nat.testBit_succ, clear])
    cases i with
    | zero => simp; omega
    | succ i =>
      rw [Nat.testBit_succ, Nat.testBit_succ, show (x + 1) / 2 = x / 2 + 1 by omega, half]
      simp

/-- The word whose only bit is the lowest clear one of `x`; 0 if all are set. -/
def rightmostClear (x : BitVec w) : BitVec w := ~~~x &&& (x + 1)

theorem rightmostClear_full {x : BitVec w} (full : ∀ i < w, x.getLsbD i = true) :
    rightmostClear x = 0 := by
  apply BitVec.eq_of_getLsbD_eq
  intro i lt
  simp [rightmostClear, full i lt]

theorem rightmostClear_lowest {x : BitVec w} {k : ℕ} (lt : k < w)
    (below : ∀ i < k, x.getLsbD i = true) (clear : x.getLsbD k = false) :
    rightmostClear x = BitVec.twoPow w k := by
  apply BitVec.eq_of_getLsbD_eq
  intro i hi
  have carry : (x + 1).getLsbD i = (x.toNat + 1).testBit i := by
    have one : (1 : BitVec w).toNat = 1 := by
      rw [BitVec.ofNat_eq_ofNat, BitVec.toNat_ofNat]
      exact Nat.mod_eq_of_lt (Nat.one_lt_two_pow (by omega))
    rw [BitVec.getLsbD, BitVec.toNat_add, one, Nat.testBit_mod_two_pow]
    simp [hi]
  rw [rightmostClear, BitVec.getLsbD_and, BitVec.getLsbD_not, carry,
    testBit_succ_of_lowest below clear, BitVec.getLsbD_twoPow]
  rcases lt_trichotomy i k with less | rfl | more
  · simp [less, less.ne']
  · rw [clear]
    simp [hi]
  · have same : x.getLsbD i = x.toNat.testBit i := rfl
    simp [more.ne, more.not_gt, more.ne', same]

theorem twoPow_ne_zero {k : ℕ} (lt : k < w) : BitVec.twoPow w k ≠ 0 := fun zero => by
  have bit := congrArg (fun x => BitVec.getLsbD x k) zero
  simp [lt] at bit

def bit (words : List (BitVec w)) (i : ℕ) : Bool := (words.getD (i / w) 0).getLsbD (i % w)

theorem bit_cons (pos : 0 < w) (word : BitVec w) (rest : List (BitVec w)) (i : ℕ) :
    bit (word :: rest) i = if i < w then word.getLsbD i else bit rest (i - w) := by
  split_ifs with first
  · simp [bit, Nat.div_eq_of_lt first, Nat.mod_eq_of_lt first]
  · obtain ⟨j, rfl⟩ := Nat.exists_eq_add_of_le (not_lt.mp first)
    rw [bit, bit, Nat.add_sub_cancel_left, Nat.add_div_left _ pos, Nat.add_mod_left,
      List.getD_cons_succ]

def marked (words : List (BitVec w)) : Finset ℕ :=
  (Finset.range (w * words.length)).filter fun i => bit words i = true

@[simp] theorem mem_marked {words : List (BitVec w)} {i : ℕ} :
    i ∈ marked words ↔ bit words i = true := by
  refine ⟨fun h => (Finset.mem_filter.mp h).2, fun on => Finset.mem_filter.mpr ⟨?_, on⟩⟩
  have pos : 0 < w := Nat.pos_of_ne_zero fun none => by
    subst none
    simp [bit] at on
  have inside : i / w < words.length := by
    by_contra past
    rw [bit, List.getD_eq_default _ _ (by omega)] at on
    simp at on
  rw [Finset.mem_range, mul_comm]
  exact (Nat.div_lt_iff_lt_mul pos).mp inside

theorem marked_replicate (n : ℕ) : marked (List.replicate n (0 : BitVec w)) = ∅ := by
  ext i
  rw [mem_marked, bit, List.getD_eq_getElem?_getD, List.getElem?_replicate]
  split <;> simp

theorem bit_modify {words : List (BitVec w)} {z : ℕ} (inside : z < words.length)
    (f : BitVec w → BitVec w) (i : ℕ) :
    bit (words.modify z f) i =
      if i / w = z then (f (words.getD z 0)).getLsbD (i % w) else bit words i := by
  by_cases here : i / w = z
  · subst here
    simp [bit, inside]
  · simp [bit, here, Ne.symm here]

theorem div_mod_iff {i z k : ℕ} (lt : k < w) : i / w = z ∧ i % w = k ↔ i = z * w + k := by
  rw [Nat.div_mod_unique (by omega), mul_comm w z]
  omega

theorem marked_or {words : List (BitVec w)} {z k : ℕ} (inside : z < words.length) (lt : k < w) :
    marked (words.modify z (· ||| BitVec.twoPow w k)) = insert (z * w + k) (marked words) := by
  ext i
  have pos : 0 < w := by omega
  rw [mem_marked, Finset.mem_insert, mem_marked, bit_modify inside, ← div_mod_iff lt]
  by_cases here : i / w = z
  · subst here
    rw [if_pos rfl, BitVec.getLsbD_or, BitVec.getLsbD_twoPow, Bool.or_eq_true, or_comm]
    simp [bit, lt, @eq_comm _ k]
  · simp [here]

theorem marked_and_not {words : List (BitVec w)} {z k : ℕ} (inside : z < words.length)
    (lt : k < w) :
    marked (words.modify z (· &&& ~~~BitVec.twoPow w k)) = (marked words).erase (z * w + k) := by
  ext i
  have pos : 0 < w := by omega
  rw [mem_marked, Finset.mem_erase, mem_marked, bit_modify inside, Ne, ← div_mod_iff lt]
  by_cases here : i / w = z
  · subst here
    rw [if_pos rfl, BitVec.getLsbD_and, BitVec.getLsbD_not, BitVec.getLsbD_twoPow,
      Bool.and_eq_true, and_comm]
    simp [bit, lt, @eq_comm _ k, Nat.mod_lt i pos]
  · simp [here]

end Libdank.Bitmap
