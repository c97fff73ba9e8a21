import Mathlib.Data.List.Basic
import Mathlib.Tactic

/-! Blocks of memory as lists of cells, with the copies a program makes within
them. -/
namespace Libdank.Buffers

variable {β : Type}

def slice (buf : List β) (base count : ℕ) : List β := (buf.drop base).take count

def overwrite (buf : List β) (at_ : ℕ) (cells : List β) : List β :=
  buf.take at_ ++ cells ++ buf.drop (at_ + cells.length)

/-- The block made larger; `junk` is what the new cells happen to hold. -/
def regrow (junk : ℕ → β) (buf : List β) (size : ℕ) : List β :=
  buf ++ (List.range' buf.length (size - buf.length)).map junk

/-- What the cells that a reallocation adds to a block hold, by their place in it. -/
class Leftover (β : Type) where
  junk : ℕ → β

theorem length_slice (buf : List β) (base count : ℕ) (fits : base + count ≤ buf.length) :
    (slice buf base count).length = count := by
  simp only [slice, List.length_take, List.length_drop]
  omega

@[simp] theorem slice_zero (buf : List β) (base : ℕ) : slice buf base 0 = [] := by simp [slice]

theorem length_overwrite (buf : List β) (at_ : ℕ) (cells : List β)
    (fits : at_ + cells.length ≤ buf.length) : (overwrite buf at_ cells).length = buf.length := by
  simp only [overwrite, List.length_append, List.length_take, List.length_drop]
  omega

theorem length_regrow (junk : ℕ → β) (buf : List β) {size : ℕ} (grows : buf.length ≤ size) :
    (regrow junk buf size).length = size := by
  simp only [regrow, List.length_append, List.length_map, List.length_range']
  omega

theorem le_length_regrow (junk : ℕ → β) (buf : List β) (size : ℕ) :
    size ≤ (regrow junk buf size).length := by
  simp only [regrow, List.length_append, List.length_map, List.length_range']
  omega

theorem getElem?_regrow (junk : ℕ → β) {buf : List β} {size i : ℕ} {x : β}
    (cell : buf[i]? = some x) : (regrow junk buf size)[i]? = some x := by
  rw [regrow, List.getElem?_append_left (List.getElem?_eq_some_iff.mp cell).1, cell]

theorem regrow_self (junk : ℕ → β) {buf : List β} {size : ℕ} (same : buf.length = size) :
    regrow junk buf size = buf := by
  simp [regrow, same]

theorem slice_regrow (junk : ℕ → β) (buf : List β) (size base count : ℕ)
    (fits : base + count ≤ buf.length) :
    slice (regrow junk buf size) base count = slice buf base count := by
  rw [regrow, slice, slice, List.drop_append_of_le_length (by omega),
    List.take_append_of_le_length (by rw [List.length_drop]; omega)]

theorem slice_overwrite (buf cells : List β) {at_ : ℕ} (inside : at_ ≤ buf.length) :
    slice (overwrite buf at_ cells) at_ cells.length = cells := by
  rw [overwrite, slice, List.append_assoc, List.drop_left' (by rw [List.length_take, min_eq_left inside]),
    List.take_left]

theorem slice_overwrite_start (buf cells : List β) :
    slice (overwrite buf 0 cells) 0 cells.length = cells := slice_overwrite buf cells (Nat.zero_le _)

theorem slice_overwrite_after (buf cells : List β) (count : ℕ) (fits : count ≤ buf.length) :
    slice (overwrite buf count cells) 0 (count + cells.length) = slice buf 0 count ++ cells := by
  have front : (buf.take count).length = count := by
    rw [List.length_take]
    omega
  have whole : (buf.take count ++ cells).length = count + cells.length := by
    rw [List.length_append, front]
  rw [slice, overwrite, List.drop_zero, List.take_append_of_le_length (by omega), slice,
    List.drop_zero, List.take_of_length_le (by omega)]

theorem slice_overwrite_before (buf cells : List β) (count : ℕ) (fits : count ≤ buf.length) :
    slice (overwrite buf count cells) 0 count = slice buf 0 count := by
  have front : (buf.take count).length = count := by
    rw [List.length_take]
    omega
  rw [slice, overwrite, List.drop_zero, List.append_assoc, List.take_left' front, slice,
    List.drop_zero]

theorem overwrite_slice (buf : List β) (base count : ℕ) (fits : base + count ≤ buf.length) :
    overwrite buf base (slice buf base count) = buf := by
  rw [overwrite, length_slice buf base count fits, slice, List.append_assoc, ← List.drop_drop,
    List.take_append_drop, List.take_append_drop]

theorem overwrite_append (buf x : List β) {at_ : ℕ} {y y' : List β} (inside : at_ ≤ buf.length)
    (same : y'.length = y.length) :
    overwrite (overwrite buf at_ (x ++ y)) (at_ + x.length) y' = overwrite buf at_ (x ++ y') := by
  have front : (buf.take at_ ++ x).length = at_ + x.length := by
    rw [List.length_append, List.length_take, min_eq_left inside]
  have whole : (buf.take at_ ++ x ++ y).length = at_ + x.length + y'.length := by
    rw [List.length_append, front, same]
  have split : overwrite buf at_ (x ++ y) =
      buf.take at_ ++ x ++ y ++ buf.drop (at_ + (x ++ y).length) := by
    rw [overwrite, List.append_assoc (buf.take at_) x y]
  rw [split, overwrite, List.drop_left' whole, List.append_assoc _ y, List.take_left' front,
    overwrite, List.length_append, List.length_append, same]
  simp only [List.append_assoc]

theorem overwrite_overwrite (buf : List β) {at_ : ℕ} {y y' : List β} (inside : at_ ≤ buf.length)
    (same : y'.length = y.length) : overwrite (overwrite buf at_ y) at_ y' = overwrite buf at_ y' :=
  overwrite_append buf [] inside same

theorem overwrite_set (buf cells : List β) {at_ i : ℕ} (x : β) (inside : at_ ≤ buf.length)
    (lt : i < cells.length) :
    (overwrite buf at_ cells).set (at_ + i) x = overwrite buf at_ (cells.set i x) := by
  have front : (buf.take at_).length = at_ := by
    rw [List.length_take, min_eq_left inside]
  rw [overwrite, overwrite, List.append_assoc, List.append_assoc, List.length_set,
    List.set_append_right _ _ (by omega), front, Nat.add_sub_cancel_left, List.set_append_left _ _ lt]

theorem getElem?_overwrite_after (buf cells : List β) {at_ i : ℕ} (inside : at_ ≤ buf.length)
    (after : at_ + cells.length ≤ i) : (overwrite buf at_ cells)[i]? = buf[i]? := by
  have front : (buf.take at_ ++ cells).length = at_ + cells.length := by
    rw [List.length_append, List.length_take, min_eq_left inside]
  rw [overwrite, List.getElem?_append_right (by omega), front, List.getElem?_drop,
    Nat.add_sub_cancel' after]

theorem slice_drop (buf : List β) (base count len : ℕ) :
    (slice buf base count).drop len = slice buf (base + len) (count - len) := by
  simp only [slice, List.drop_take, List.drop_drop]

theorem slice_take (buf : List β) (base count len : ℕ) (le : len ≤ count) :
    (slice buf base count).take len = slice buf base len := by
  simp only [slice, List.take_take, min_eq_left le]

theorem getElem?_slice (buf : List β) (base count i : ℕ) (inside : i < count) :
    (slice buf base count)[i]? = buf[base + i]? := by
  rw [slice, List.getElem?_take_of_lt inside, List.getElem?_drop]

theorem mem_slice {buf : List β} {base count i : ℕ} {x : β} (from_ : base ≤ i)
    (before : i < base + count) (cell : buf[i]? = some x) : x ∈ slice buf base count := by
  have read := getElem?_slice buf base count (i - base) (by omega)
  rw [Nat.add_sub_cancel' from_, cell] at read
  exact List.mem_of_getElem? read

end Libdank.Buffers
