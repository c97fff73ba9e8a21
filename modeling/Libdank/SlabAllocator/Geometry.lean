import Libdank.SlabAllocator.Operations
import Mathlib.Order.CompletePartialOrder
import Mathlib.Order.Interval.Set.Disjoint

/-! Where the objects of a block lie: object `i` is the `i % objsperpage`th of
page `i / objsperpage`. The offsets ascend with a whole object between any two,
so distinct objects never share a byte, and the index is read back from the
offset by the divisions `slalloc_free` makes. -/
namespace Libdank.SlabAllocator
open Magic

variable {w : ℕ} (l : Layout w)

namespace Layout

theorem objsperpage_pos : 0 < l.objsperpage := Nat.div_pos l.fits l.nonempty

theorem objects_fit : l.objsperpage * l.objsize ≤ l.pgsize := Nat.div_mul_le_self _ _

theorem lowest_bit_pow {n : ℕ} (pos : 0 < n) (le : n ≤ 64) :
    ∃ k < 7, n &&& (2 ^ 32 - n) = 2 ^ k ∧ 2 ^ k ≤ n := by
  have all : ∀ n < 65, 0 < n → ∃ k < 7, n &&& (2 ^ 32 - n) = 2 ^ k ∧ 2 ^ k ≤ n := by
    decide +kernel
  exact all n (by omega) pos

theorem pagesperblock_pow : ∃ k < 7, l.pagesperblock = 2 ^ k ∧ (k = 0 ∨ l.objsperblock ≤ w) := by
  have word := l.word
  unfold objsperblock pagesperblock
  by_cases none : w / l.objsperpage = 0
  · exact ⟨0, by omega, by simp [none], .inl rfl⟩
  · obtain ⟨k, lt, same, le⟩ := lowest_bit_pow (Nat.pos_of_ne_zero none)
      ((Nat.div_le_self _ _).trans word.2)
    refine ⟨k, lt, by simp only [if_neg none, same], .inr ?_⟩
    simp only [if_neg none, same]
    calc l.objsperpage * 2 ^ k ≤ l.objsperpage * (w / l.objsperpage) := Nat.mul_le_mul_left _ le
      _ ≤ w := Nat.mul_div_le _ _

theorem pagesperblock_pos : 0 < l.pagesperblock := by
  obtain ⟨k, -, same, -⟩ := l.pagesperblock_pow
  rw [same]
  exact Nat.two_pow_pos k

theorem order_pagesperblock :
    uintlog2 l.pagesperblock ≤ 32 ∧ 2 ^ uintlog2 l.pagesperblock = l.pagesperblock ∧
      l.pagesperblock ≤ 256 := by
  obtain ⟨k, lt, same, -⟩ := l.pagesperblock_pow
  rw [same, uintlog2_pow (by omega)]
  exact ⟨by omega, rfl, Nat.pow_le_pow_right (by decide) (show k ≤ 8 by omega)⟩

theorem objsperblock_pos : 0 < l.objsperblock :=
  Nat.mul_pos l.objsperpage_pos l.pagesperblock_pos

theorem objsperblock_lt : l.objsperblock < 2 ^ 32 := by
  have word := l.word
  have int := l.int
  obtain ⟨k, -, same, one | small⟩ := l.pagesperblock_pow
  · have page : l.objsperpage ≤ l.pgsize := Nat.div_le_self _ _
    rw [objsperblock, same, one]
    omega
  · omega

theorem objsperblock_le_words : l.objsperblock ≤ w * l.objwordsperblock := by
  have split := Nat.div_add_mod l.objsperblock w
  have rest := Nat.mod_lt l.objsperblock (show 0 < w by have := l.word; omega)
  rw [objwordsperblock, Nat.mul_add]
  by_cases none : l.objsperblock % w = 0
  · rw [if_pos none]
    omega
  · rw [if_neg none]
    omega

theorem objwordsperblock_pos : 0 < l.objwordsperblock := by
  have pos := l.objsperblock_pos.trans_le l.objsperblock_le_words
  exact Nat.pos_of_mul_pos_left pos

def offset (i : ℕ) : ℕ := i / l.objsperpage * l.pgsize + i % l.objsperpage * l.objsize

def blockBytes : ℕ := l.pgsize * l.pagesperblock

theorem in_page (i : ℕ) : i % l.objsperpage * l.objsize + l.objsize ≤ l.pgsize := by
  have lt := Nat.mod_lt i l.objsperpage_pos
  calc i % l.objsperpage * l.objsize + l.objsize = (i % l.objsperpage + 1) * l.objsize := by ring
    _ ≤ l.objsperpage * l.objsize := Nat.mul_le_mul_right _ lt
    _ ≤ l.pgsize := l.objects_fit

theorem offset_fits {i : ℕ} (lt : i < l.objsperblock) :
    l.offset i + l.objsize ≤ l.blockBytes := by
  have page : i / l.objsperpage < l.pagesperblock :=
    (Nat.div_lt_iff_lt_mul l.objsperpage_pos).mpr (by rwa [mul_comm])
  have inside := l.in_page i
  calc l.offset i + l.objsize ≤ (i / l.objsperpage + 1) * l.pgsize := by
        rw [offset, Nat.add_mul]
        omega
    _ ≤ l.pagesperblock * l.pgsize := Nat.mul_le_mul_right _ page
    _ = l.blockBytes := mul_comm _ _

theorem offset_apart {i j : ℕ} (lt : i < j) : l.offset i + l.objsize ≤ l.offset j := by
  have inside := l.in_page i
  rcases (Nat.div_le_div_right lt.le : i / l.objsperpage ≤ j / l.objsperpage).eq_or_lt with
    same | before
  · have later : i % l.objsperpage < j % l.objsperpage := by
      have hi := Nat.div_add_mod i l.objsperpage
      have hj := Nat.div_add_mod j l.objsperpage
      rw [same] at hi
      omega
    have step : (i % l.objsperpage + 1) * l.objsize ≤ j % l.objsperpage * l.objsize :=
      Nat.mul_le_mul_right _ later
    rw [Nat.add_mul, Nat.one_mul] at step
    rw [offset, offset, same]
    omega
  · have step : (i / l.objsperpage + 1) * l.pgsize ≤ j / l.objsperpage * l.pgsize :=
      Nat.mul_le_mul_right _ before
    rw [Nat.add_mul, Nat.one_mul] at step
    rw [offset, offset]
    omega

theorem index_of_offset (i : ℕ) :
    l.offset i / l.pgsize * l.objsperpage + l.offset i % l.pgsize / l.objsize = i := by
  have inside := l.in_page i
  have nonempty := l.nonempty
  have pos : 0 < l.pgsize := nonempty.trans_le l.fits
  have within : i % l.objsperpage * l.objsize < l.pgsize := by omega
  have page : l.offset i / l.pgsize = i / l.objsperpage := by
    rw [offset, Nat.add_comm, Nat.add_mul_div_right _ _ pos, Nat.div_eq_of_lt within, Nat.zero_add]
  have rest : l.offset i % l.pgsize = i % l.objsperpage * l.objsize := by
    rw [offset, Nat.add_comm, Nat.add_mul_mod_self_right, Nat.mod_eq_of_lt within]
  rw [page, rest, Nat.mul_div_cancel _ nonempty, Nat.mul_comm]
  exact Nat.div_add_mod i l.objsperpage

def extent (obj : ℕ) : Set ℕ := Set.Ico obj (obj + l.objsize)

def region (base : ℕ) : Set ℕ := Set.Ico base (base + l.blockBytes)

theorem extent_subset_region {base i : ℕ} (lt : i < l.objsperblock) :
    l.extent (base + l.offset i) ⊆ l.region base := by
  have fits := l.offset_fits lt
  exact Set.Ico_subset_Ico (by omega) (by omega)

theorem extents_disjoint {base i j : ℕ} (ne : i ≠ j) :
    Disjoint (l.extent (base + l.offset i)) (l.extent (base + l.offset j)) := by
  rw [extent, extent, Set.Ico_disjoint_Ico]
  rcases lt_or_gt_of_ne ne with lt | gt
  · have apart := l.offset_apart lt
    omega
  · have apart := l.offset_apart gt
    omega

theorem start_mem_extent (obj : ℕ) : obj ∈ l.extent obj :=
  ⟨le_rfl, Nat.lt_add_of_pos_right l.nonempty⟩

end Layout

end Libdank.SlabAllocator
