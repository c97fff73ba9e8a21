import Mathlib.Data.List.TakeWhile
import Libdank.Addresses
import Libdank.Carving.Operations

/-! What a text reads and what moving it and writing behind it leave of its
string. -/
namespace Libdank.Carving
open Parse Printing

theorem carveCharset_nul : carveCharset nul = false := by decide

theorem listCharset_nul : listCharset nul = false := by decide

section Places

variable {pre rest : Text} {c : Char}

theorem getD_length (d : Char) : (pre ++ rest).getD pre.length d = rest.headD d := by
  cases rest <;> simp

theorem getD_at (d : Char) : (pre ++ c :: rest).getD pre.length d = c := getD_length d

theorem getD_set_ne {buf : Text} {i j : ℕ} (other : i ≠ j) (x d : Char) :
    (buf.set i x).getD j d = buf.getD j d := by
  rw [List.getD_eq_getElem?_getD, List.getElem?_set_ne other, List.getD_eq_getElem?_getD]

theorem set_at (d : Char) : (pre ++ c :: rest).set pre.length d = pre ++ d :: rest := by
  rw [List.set_append_right _ _ le_rfl, Nat.sub_self, List.set_cons_zero]

theorem deref_at : (⟨pre ++ c :: rest, pre.length⟩ : Cursor).deref = c := getD_at nul

theorem skip_at {p : Char → Bool} {run : Text} (all : ∀ x ∈ run, p x = true)
    (stop : ∀ x ∈ rest.head?, p x = false) :
    (⟨pre ++ (run ++ rest), pre.length⟩ : Cursor).skip p =
      ⟨pre ++ (run ++ rest), pre.length + run.length⟩ := by
  rw [Cursor.skip]
  simp only [List.drop_left, takeWhile_append_stop all stop]

end Places

section Strings

variable {text : Cursor}

theorem string_eq_nil_iff : text.string = [] ↔ text.deref = nul := by
  obtain ⟨buf, at_⟩ := text
  simp only [Cursor.string, Cursor.deref, List.getD_eq_getElem?_getD, ← List.head?_drop]
  cases buf.drop at_ <;> simp [List.takeWhile_cons]

theorem string_cons {x : Char} {s : Text} (string : text.string = x :: s) :
    text.deref = x ∧ text.next.string = s ∧ text.at_ < text.buf.length := by
  obtain ⟨buf, at_⟩ := text
  simp only [Cursor.string, Cursor.deref, Cursor.next, List.getD_eq_getElem?_getD,
    ← List.head?_drop] at string ⊢
  have inside : at_ < buf.length := by
    by_contra outside
    rw [List.drop_of_length_le (by omega)] at string
    cases string
  rw [List.drop_eq_getElem_cons inside, List.takeWhile_cons] at string
  rw [List.drop_eq_getElem_cons inside]
  split at string
  · obtain ⟨rfl, rfl⟩ := List.cons.inj string
    exact ⟨rfl, rfl, inside⟩
  · cases string

theorem deref_eq_headD : text.deref = text.string.headD nul := by
  cases string : text.string with
  | nil => exact string_eq_nil_iff.mp string
  | cons x s => exact (string_cons string).1

theorem deref_eq_iff {c : Char} (other : c ≠ nul) :
    text.deref = c ↔ text.string.head? = some c := by
  rw [deref_eq_headD]
  cases text.string with
  | nil => simpa using other.symm
  | cons x s => simp

theorem next_string (some_ : text.deref ≠ nul) : text.next.string = text.string.tail := by
  obtain ⟨x, s, string⟩ := List.exists_cons_of_ne_nil (mt string_eq_nil_iff.mp some_)
  rw [string, (string_cons string).2.1]
  rfl

theorem string_set {i : ℕ} (behind : i < text.at_) (x : Char) :
    (⟨text.buf.set i x, text.at_⟩ : Cursor).string = text.string := by
  rw [Cursor.string, Cursor.string, List.drop_set_of_lt behind]

end Strings

section Skipping

variable {p : Char → Bool} (text : Cursor) (ends : p nul = false)
include ends

theorem takeWhile_string : text.string.takeWhile p = (text.buf.drop text.at_).takeWhile p := by
  rw [Cursor.string, List.takeWhile_takeWhile]
  congr 1
  funext x
  by_cases h : x = nul
  · simp [h, ends]
  · simp [h]

theorem skip_offset : (text.skip p).at_ = text.at_ + (text.string.takeWhile p).length := by
  rw [takeWhile_string text ends]
  rfl

theorem skip_string : (text.skip p).string = text.string.dropWhile p := by
  have behind (l : Text) : l.drop (l.takeWhile p).length = l.dropWhile p := by
    have whole : l.takeWhile p ++ l.dropWhile p = l := List.takeWhile_append_dropWhile
    calc l.drop (l.takeWhile p).length
        = (l.takeWhile p ++ l.dropWhile p).drop (l.takeWhile p).length := by rw [whole]
      _ = l.dropWhile p := List.drop_left
  have inside (l : Text) : (l.dropWhile p).takeWhile (· ≠ nul) =
      (l.takeWhile (· ≠ nul)).dropWhile p := by
    induction l with
    | nil => rfl
    | cons x l ih =>
      by_cases hp : p x = true
      · have other : x ≠ nul := by
          rintro rfl
          rw [ends] at hp
          cases hp
        rw [List.dropWhile_cons_of_pos hp, List.takeWhile_cons_of_pos (by simpa using other),
          List.dropWhile_cons_of_pos hp, ih]
      · rw [List.dropWhile_cons_of_neg hp, List.takeWhile_cons]
        split
        · rw [List.dropWhile_cons_of_neg hp]
        · rfl
  rw [Cursor.string, Cursor.string, ← inside, ← behind, List.drop_drop]
  rfl

end Skipping

end Libdank.Carving
