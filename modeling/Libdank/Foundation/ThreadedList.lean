import Mathlib.Data.List.Basic
import Mathlib.Tactic

/-! Singly linked lists whose links lie in the cells they pass through. `next`
reads the link of a cell and is `none` for a cell that is no longer there, so a
list is only a list while every cell on the way can still be read. -/
namespace Libdank.ThreadedList

variable {ι : Type} {next next' : ι → Option (Option ι)} {head : Option ι} {l : List ι}

/-- From `head` the links run through the cells of `l`, in order, to NULL. -/
def Threaded (next : ι → Option (Option ι)) : Option ι → List ι → Prop
  | head, [] => head = none
  | head, i :: rest => head = some i ∧ ∃ link, next i = some link ∧ Threaded next link rest

theorem threaded_none : Threaded next none l ↔ l = [] := by
  cases l with
  | nil => simp [Threaded]
  | cons i rest => simp [Threaded]

theorem Threaded.frame (h : Threaded next head l) (same : ∀ i ∈ l, next' i = next i) :
    Threaded next' head l := by
  induction l generalizing head with
  | nil => exact h
  | cons i rest ih =>
    obtain ⟨start, link, read, tail⟩ := h
    exact ⟨start, link, (same i (by simp)).trans read, ih tail fun j hj => same j (by simp [hj])⟩

theorem Threaded.unique {l' : List ι} (h : Threaded next head l) (h' : Threaded next head l') :
    l = l' := by
  induction l generalizing head l' with
  | nil =>
    rw [show head = none from h] at h'
    exact (threaded_none.mp h').symm
  | cons i rest ih =>
    obtain ⟨rfl, link, read, tail⟩ := h
    cases l' with
    | nil => cases h'
    | cons j rest' =>
      obtain ⟨same, link', read', tail'⟩ := h'
      cases Option.some.inj same
      cases Option.some.inj (read.symm.trans read')
      rw [ih tail tail']

end Libdank.ThreadedList
