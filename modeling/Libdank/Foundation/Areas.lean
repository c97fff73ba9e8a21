import Mathlib.Data.Option.Basic
import Mathlib.Tactic

/-! Address spaces of which one party owns an area, and others the rest. -/
namespace Libdank.Areas

variable {κ : Type}

abbrev Space (κ : Type) := ℕ → Option κ

def InArea (addr len p : ℕ) : Prop := addr ≤ p ∧ p < addr + len

instance (addr len p : ℕ) : Decidable (InArea addr len p) := inferInstanceAs (Decidable (_ ∧ _))

def install (space : Space κ) (addr len : ℕ) (content : ℕ → κ) : Space κ := fun p =>
  if InArea addr len p then some (content (p - addr)) else space p

def clear (space : Space κ) (addr len : ℕ) : Space κ := fun p =>
  if InArea addr len p then none else space p

def free (space : Space κ) (addr len : ℕ) : Bool :=
  (List.range len).all fun i => (space (addr + i)).isNone

/-- The area shows the content, everything else is what the others have, and they have nothing in
the area. -/
structure Owns (space others : Space κ) (addr len : ℕ) (content : ℕ → κ) : Prop where
  shows_ : ∀ p, space p = if InArea addr len p then some (content (p - addr)) else others p
  apart : ∀ p, InArea addr len p → others p = none

variable {space others : Space κ} {addr len : ℕ} {content : ℕ → κ}

theorem free_iff : free space addr len = true ↔ ∀ p, InArea addr len p → space p = none := by
  simp only [free, List.all_eq_true, List.mem_range, Option.isNone_iff_eq_none, InArea]
  constructor
  · intro none_ p inside
    have same : addr + (p - addr) = p := by omega
    exact same ▸ none_ (p - addr) (by omega)
  · exact fun none_ i lt => none_ (addr + i) (by omega)

theorem owns_nothing (addr : ℕ) (content : ℕ → κ) (space : Space κ) : Owns space space addr 0 content :=
  ⟨fun p => (if_neg fun inside => by unfold InArea at inside; omega).symm,
    fun p inside => by unfold InArea at inside; omega⟩

theorem Owns.eq_others (owns : Owns space others addr 0 content) : space = others :=
  funext fun p => by
    rw [owns.shows_, if_neg fun inside => by unfold InArea at inside; omega]

theorem Owns.outside (owns : Owns space others addr len content) {p : ℕ} (out : ¬ InArea addr len p) :
    space p = others p := by
  rw [owns.shows_, if_neg out]

theorem Owns.inside (owns : Owns space others addr len content) {p : ℕ} (inside : InArea addr len p) :
    space p = some (content (p - addr)) := by
  rw [owns.shows_, if_pos inside]

theorem Owns.move (owns : Owns space others addr len content) {new newlen : ℕ} (content' : ℕ → κ)
    (room : free (clear space addr len) new newlen) :
    Owns (install (clear space addr len) new newlen content') others new newlen content' := by
  rw [free_iff] at room
  have rest (p : ℕ) : clear space addr len p = others p := by
    rw [clear]
    by_cases inside : InArea addr len p
    · rw [if_pos inside, owns.apart p inside]
    · rw [if_neg inside, owns.outside inside]
  refine ⟨fun p => ?_, fun p inside => ?_⟩
  · rw [install, rest]
  · rw [← rest, room p inside]

/-- The content is replaced where it is. -/
theorem Owns.replace (owns : Owns space others addr len content) (content' : ℕ → κ) :
    Owns (install space addr len content') others addr len content' := by
  refine ⟨fun p => ?_, owns.apart⟩
  rw [install]
  by_cases inside : InArea addr len p
  · rw [if_pos inside, if_pos inside]
  · rw [if_neg inside, if_neg inside, owns.outside inside]

theorem Owns.clear_front (owns : Owns space others addr len content) {k : ℕ} (le : k ≤ len) :
    Owns (clear space addr k) others (addr + k) (len - k) fun i => content (k + i) := by
  refine ⟨fun p => ?_, fun p inside => owns.apart p ?_⟩
  · rw [clear]
    by_cases front : InArea addr k p
    · have all : InArea addr len p := by unfold InArea at *; omega
      rw [if_pos front, if_neg fun back => by unfold InArea at *; omega, owns.apart p all]
    · rw [if_neg front]
      by_cases back : InArea (addr + k) (len - k) p
      · have same : k + (p - (addr + k)) = p - addr := by unfold InArea at *; omega
        rw [if_pos back, same]
        exact owns.inside (by unfold InArea at *; omega)
      · rw [if_neg back]
        exact owns.outside (by unfold InArea at *; omega)
  · unfold InArea at *
    omega

theorem Owns.clear_back (owns : Owns space others addr len content) {k : ℕ} (le : k ≤ len) :
    Owns (clear space (addr + (len - k)) k) others addr (len - k) content := by
  refine ⟨fun p => ?_, fun p inside => owns.apart p ?_⟩
  · rw [clear]
    by_cases back : InArea (addr + (len - k)) k p
    · have all : InArea addr len p := by unfold InArea at *; omega
      rw [if_pos back, if_neg fun front => by unfold InArea at *; omega, owns.apart p all]
    · rw [if_neg back]
      by_cases front : InArea addr (len - k) p
      · rw [if_pos front]
        exact owns.inside (by unfold InArea at *; omega)
      · rw [if_neg front]
        exact owns.outside (by unfold InArea at *; omega)
  · unfold InArea at *
    omega

theorem Owns.elsewhere (owns : Owns space others addr len content) {p : ℕ} (out : ¬ InArea addr len p)
    (x : Option κ) : Owns (Function.update space p x) (Function.update others p x) addr len content := by
  refine ⟨fun q => ?_, fun q inside => ?_⟩
  · by_cases same : q = p
    · subst same
      rw [Function.update_self, if_neg out, Function.update_self]
    · rw [Function.update_of_ne same, Function.update_of_ne same, owns.shows_]
  · have ne : q ≠ p := by
      rintro rfl
      exact out inside
    rw [Function.update_of_ne ne, owns.apart q inside]

end Libdank.Areas
