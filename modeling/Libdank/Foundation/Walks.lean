import Mathlib.Data.List.Infix
import Mathlib.Logic.Function.Basic
import Mathlib.Tactic

/-! Nodes with labelled edges, and what is reached along a word of labels. Where
every node carries the word that leads to it, changing one edge changes only the
walks that take it. -/
namespace Libdank.Walks

variable {ν κ : Type} {next next' : ν → κ → Option ν}

def walk (next : ν → κ → Option ν) : Option ν → List κ → Option ν
  | p, [] => p
  | none, _ :: _ => none
  | some a, c :: q => walk next (next a c) q

@[simp] theorem walk_nil (p : Option ν) : walk next p [] = p := by
  cases p <;> rfl

@[simp] theorem walk_none (q : List κ) : walk next none q = none := by
  cases q <;> rfl

theorem walk_append (p : Option ν) (q r : List κ) :
    walk next p (q ++ r) = walk next (walk next p q) r := by
  induction q generalizing p with
  | nil => simp
  | cons c q ih =>
    cases p with
    | none => simp
    | some a => exact ih _

theorem walk_leaf {a b : ν} (leaf : ∀ c, next a c = none) {q : List κ}
    (reached : walk next (some a) q = some b) : q = [] ∧ a = b := by
  cases q with
  | nil =>
    rw [walk_nil] at reached
    exact ⟨rfl, Option.some.inj reached⟩
  | cons c q =>
    rw [walk, leaf c, walk_none] at reached
    cases reached

/-- The nodes of `A` are closed under `next`, and `path` says how each is come to. -/
def Labelled (next : ν → κ → Option ν) (A : List ν) (path : ν → List κ) : Prop :=
  ∀ a ∈ A, ∀ c, ∀ b ∈ next a c, b ∈ A ∧ path b = path a ++ [c]

variable {A : List ν} {path : ν → List κ}

theorem Labelled.walk_congr (labelled : Labelled next A path) (same : ∀ a ∈ A, next' a = next a)
    {p : Option ν} (start : ∀ a ∈ p, a ∈ A) (q : List κ) : walk next' p q = walk next p q := by
  induction q generalizing p with
  | nil => simp
  | cons c q ih =>
    cases p with
    | none => simp
    | some a =>
      rw [walk, walk, same a (start a rfl)]
      exact ih fun b hb => (labelled a (start a rfl) c b hb).1

/-- The walk along `q` takes another edge than the one changed, if the word to
that one is no prefix of the word walked along. -/
theorem Labelled.walk_update [DecidableEq ν] [DecidableEq κ] (labelled : Labelled next A path)
    {a : ν} {c : κ} (x : Option ν) {p : Option ν} {r q : List κ}
    (start : ∀ b ∈ p, b ∈ A ∧ path b = r) (away : ¬ path a ++ [c] <+: r ++ q) :
    walk (Function.update next a (Function.update (next a) c x)) p q = walk next p q := by
  induction q generalizing p r with
  | nil => simp
  | cons d q ih =>
    cases p with
    | none => simp
    | some b =>
      obtain ⟨hb, rfl⟩ := start b rfl
      have edge : Function.update next a (Function.update (next a) c x) b d = next b d := by
        by_cases here : b = a
        · subst here
          rw [Function.update_self]
          refine Function.update_of_ne (fun same => away ?_) _ _
          exact ⟨q, by simp [same]⟩
        · rw [Function.update_of_ne here]
      rw [walk, walk, edge]
      refine ih (labelled b hb d) ?_
      rwa [List.append_assoc, List.singleton_append]

end Libdank.Walks
