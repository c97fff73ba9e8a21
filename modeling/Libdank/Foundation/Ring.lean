import Mathlib.Data.List.Basic
import Mathlib.Tactic

/-! Rings of cells with a head, where the next item is taken, and a tail, where the
next one is put. One cell stays free, so that a full ring is not an empty one. -/
namespace Libdank.Ring

variable {β : Type} (size : ℕ)

def next (i : ℕ) : ℕ := if i + 1 < size then i + 1 else 0

def slot (head i : ℕ) : ℕ := if head + i < size then head + i else head + i - size

def backlog (head tail : ℕ) : ℕ := if head ≤ tail then tail - head else tail + size - head

/-- The items, the one taken next first. -/
def contents (cells : ℕ → β) (head count : ℕ) : List β :=
  (List.range count).map fun i => cells (slot size head i)

variable {size} {head tail : ℕ}

theorem next_eq_mod {i : ℕ} (lt : i < size) : next size i = (i + 1) % size := by
  unfold next
  split_ifs with inside
  · exact (Nat.mod_eq_of_lt inside).symm
  · have whole : i + 1 = size := by omega
    rw [whole, Nat.mod_self]

theorem next_lt (pos : 0 < size) (i : ℕ) : next size i < size := by
  unfold next
  split_ifs <;> omega

theorem backlog_lt (hh : head < size) (ht : tail < size) : backlog size head tail < size := by
  unfold backlog
  split_ifs <;> omega

theorem slot_backlog (hh : head < size) (ht : tail < size) :
    slot size head (backlog size head tail) = tail := by
  unfold slot backlog
  split_ifs <;> omega

theorem slot_zero (hh : head < size) : slot size head 0 = head := if_pos hh

theorem slot_inj {i j : ℕ} (hi : i < size) (hj : j < size)
    (same : slot size head i = slot size head j) : i = j := by
  unfold slot at same
  split_ifs at same <;> omega

theorem slot_next {i : ℕ} (hh : head < size) (hi : i + 1 < size) :
    slot size (next size head) i = slot size head (i + 1) := by
  unfold slot next
  split_ifs <;> omega

theorem slot_ne_of_next {i j : ℕ} (hi : i < size) (before : next size i = head) (hj : j + 1 < size) :
    slot size head j ≠ i := by
  unfold slot
  unfold next at before
  split_ifs at * <;> omega

theorem backlog_put (hh : head < size) (ht : tail < size) (room : next size tail ≠ head) :
    backlog size head (next size tail) = backlog size head tail + 1 := by
  unfold backlog next at *
  split_ifs at * <;> omega

theorem backlog_take (hh : head < size) (ht : tail < size) (some_ : head ≠ tail) :
    backlog size head tail = backlog size (next size head) tail + 1 := by
  unfold backlog next
  split_ifs <;> omega

variable {cells : ℕ → β} {count : ℕ}

theorem contents_update (i : ℕ) (x : β) (other : ∀ j < count, slot size head j ≠ i) :
    contents size (Function.update cells i x) head count = contents size cells head count :=
  List.map_congr_left fun j hj => Function.update_of_ne (other j (List.mem_range.mp hj)) _ _

theorem contents_put (x : β) (room : count < size) :
    contents size (Function.update cells (slot size head count) x) head (count + 1) =
      contents size cells head count ++ [x] := by
  have before := @contents_update β size head cells count (slot size head count) x fun j hj same => by
    have := slot_inj (by omega) room same
    omega
  rw [contents, List.range_succ, List.map_append]
  rw [contents] at before
  rw [before]
  simp [contents]

theorem contents_take (hh : head < size) (inside : count < size) :
    contents size cells head (count + 1) = cells head :: contents size cells (next size head) count := by
  rw [contents, List.range_succ_eq_map, List.map_cons, slot_zero hh, List.map_map]
  congr 1
  refine List.map_congr_left fun j hj => ?_
  have lt := List.mem_range.mp hj
  simp only [Function.comp_apply, slot_next hh (by omega : j + 1 < size)]

end Libdank.Ring
