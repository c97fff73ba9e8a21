import Libdank.Foundation.OrderedTree

/-! Binary trees kept together by pointers. Every pointer has a place of its own:
the variable that holds the root, and two in each node. What a place holds may be
overwritten, so a tree is only there as long as the pointers within it stay. -/
namespace Libdank.PointerTree
open OrderedTree

inductive Place (ι : Type) where
  | root
  | left (a : ι)
  | right (a : ι)
deriving DecidableEq

abbrev Links (ι : Type) := Place ι → Option ι

variable {ι : Type}

def Off (nodes : List ι) (p : Place ι) : Prop := ∀ a ∈ nodes, p ≠ .left a ∧ p ≠ .right a

theorem off_left {nodes : List ι} {a : ι} : Off nodes (.left a) ↔ a ∉ nodes := by
  constructor
  · exact fun off ha => (off a ha).1 rfl
  · exact fun ha b hb => ⟨fun same => ha (by cases same; exact hb), by simp⟩

theorem off_right {nodes : List ι} {a : ι} : Off nodes (.right a) ↔ a ∉ nodes := by
  constructor
  · exact fun off ha => (off a ha).2 rfl
  · exact fun ha b hb => ⟨by simp, fun same => ha (by cases same; exact hb)⟩

theorem off_append {nodes others : List ι} {p : Place ι} :
    Off (nodes ++ others) p ↔ Off nodes p ∧ Off others p := List.forall_mem_append

theorem off_cons {nodes : List ι} {a : ι} {p : Place ι} :
    Off (a :: nodes) p ↔ (p ≠ .left a ∧ p ≠ .right a) ∧ Off nodes p := List.forall_mem_cons

theorem Off.mono {nodes others : List ι} {p : Place ι} (off : Off nodes p)
    (sub : ∀ a ∈ others, a ∈ nodes) : Off others p := fun a ha => off a (sub a ha)

/-- From the pointer `p` hangs this tree. -/
def Hangs (s : Links ι) : Option ι → BinaryTree ι → Prop
  | p, .nil => p = none
  | p, .node a l r => p = some a ∧ Hangs s (s (.left a)) l ∧ Hangs s (s (.right a)) r

/-- From `p` the right pointers of `nodes` lead to `q`, with nothing to their left. -/
def Chain (s : Links ι) : Option ι → List ι → Option ι → Prop
  | p, [], q => p = q
  | p, a :: nodes, q => p = some a ∧ s (.left a) = none ∧ Chain s (s (.right a)) nodes q

variable {s s' : Links ι} {p q : Option ι}

theorem Hangs.frame {t : BinaryTree ι} (hangs : Hangs s p t)
    (same : ∀ a ∈ inorder t, s' (.left a) = s (.left a) ∧ s' (.right a) = s (.right a)) :
    Hangs s' p t := by
  induction t generalizing p with
  | nil => exact hangs
  | node a l r left right =>
    obtain ⟨here, hl, hr⟩ := hangs
    obtain ⟨sl, sr⟩ := same a (by simp)
    refine ⟨here, ?_, ?_⟩
    · rw [sl]
      exact left hl fun b hb => same b (by simp [hb])
    · rw [sr]
      exact right hr fun b hb => same b (by simp [hb])

theorem Chain.frame {nodes : List ι} (chain : Chain s p nodes q)
    (same : ∀ a ∈ nodes, s' (.left a) = s (.left a) ∧ s' (.right a) = s (.right a)) :
    Chain s' p nodes q := by
  induction nodes generalizing p with
  | nil => exact chain
  | cons a nodes ih =>
    obtain ⟨here, left, rest⟩ := chain
    obtain ⟨sl, sr⟩ := same a (by simp)
    refine ⟨here, sl.trans left, ?_⟩
    rw [sr]
    exact ih rest fun b hb => same b (by simp [hb])

theorem chain_append {nodes others : List ι} :
    Chain s p (nodes ++ others) q ↔ ∃ m, Chain s p nodes m ∧ Chain s m others q := by
  induction nodes generalizing p with
  | nil => simp [Chain]
  | cons a nodes ih => simp only [List.cons_append, Chain, ih, and_assoc, exists_and_left]

theorem chain_concat {nodes : List ι} {a : ι} :
    Chain s p (nodes ++ [a]) q ↔
      Chain s p nodes (some a) ∧ s (.left a) = none ∧ s (.right a) = q := by
  rw [chain_append]
  constructor
  · rintro ⟨m, first, rfl, left, right⟩
    exact ⟨first, left, right⟩
  · rintro ⟨first, left, right⟩
    exact ⟨some a, first, rfl, left, right⟩

def spine : List ι → BinaryTree ι
  | [] => .nil
  | a :: rest => .node a .nil (spine rest)

@[simp] theorem inorder_spine (nodes : List ι) : inorder (spine nodes) = nodes := by
  induction nodes with
  | nil => rfl
  | cons a rest ih => simp [spine, ih]

theorem spine_map {κ : Type} (f : ι → κ) (nodes : List ι) :
    (spine nodes).map f = spine (nodes.map f) := by
  induction nodes with
  | nil => rfl
  | cons a rest ih => simp [spine, BinaryTree.map, ih]

theorem hangs_spine {nodes : List ι} : Hangs s p (spine nodes) ↔ Chain s p nodes none := by
  induction nodes generalizing p with
  | nil => rfl
  | cons a rest ih => simp only [spine, Hangs, Chain, ih]

theorem eq_spine {t : BinaryTree ι} (linear : Linear t) : t = spine (inorder t) := by
  induction t with
  | nil => rfl
  | node a l r left right =>
    obtain ⟨rfl, linear⟩ := linear
    conv_lhs => rw [right linear]
    rfl

end Libdank.PointerTree
