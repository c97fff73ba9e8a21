import Mathlib.Data.Tree.Basic
import Mathlib.Tactic

/-! Binary search trees over any type of entries, read through their inorder
list. Searching ends at a slot, the place where a subtree hangs; what is put
there lands between the entries on either side of the search. -/
namespace Libdank.OrderedTree

variable {ι : Type}

def inorder : BinaryTree ι → List ι
  | .nil => []
  | .node x l r => inorder l ++ x :: inorder r

@[simp] theorem inorder_nil : inorder (.nil : BinaryTree ι) = [] := rfl

@[simp] theorem inorder_node (x : ι) (l r : BinaryTree ι) :
    inorder (.node x l r) = inorder l ++ x :: inorder r := rfl

/-- Every entry comes after those to its left and before those to its right. -/
def Searchable (before : ι → ι → Prop) : BinaryTree ι → Prop
  | .nil => True
  | .node x l r => (∀ y ∈ inorder l, before y x) ∧ (∀ y ∈ inorder r, before x y) ∧
      Searchable before l ∧ Searchable before r

theorem searchable_iff {before : ι → ι → Prop}
    (trans : ∀ x y z, before x y → before y z → before x z) (t : BinaryTree ι) :
    Searchable before t ↔ (inorder t).Pairwise before := by
  induction t with
  | nil => exact ⟨fun _ => List.Pairwise.nil, fun _ => trivial⟩
  | node x l r left right =>
    rw [inorder_node, List.pairwise_append, List.pairwise_cons, Searchable, left, right]
    constructor
    · rintro ⟨below, above, pl, pr⟩
      refine ⟨pl, ⟨above, pr⟩, fun y hy z hz => ?_⟩
      rcases List.mem_cons.mp hz with rfl | hz
      · exact below y hy
      · exact trans y x z (below y hy) (above z hz)
    · rintro ⟨pl, ⟨above, pr⟩, across⟩
      exact ⟨fun y hy => across y hy x (by simp), above, pl, pr⟩

def hangLeft (l : BinaryTree ι) : BinaryTree ι → BinaryTree ι
  | .nil => l
  | .node x a b => .node x (hangLeft l a) b

@[simp] theorem inorder_hangLeft (l t : BinaryTree ι) :
    inorder (hangLeft l t) = inorder l ++ inorder t := by
  induction t with
  | nil => simp [hangLeft]
  | node x a b left right => simp [hangLeft, left]

def hangRight (r : BinaryTree ι) : BinaryTree ι → BinaryTree ι
  | .nil => r
  | .node x a b => .node x a (hangRight r b)

@[simp] theorem inorder_hangRight (r t : BinaryTree ι) :
    inorder (hangRight r t) = inorder t ++ inorder r := by
  induction t with
  | nil => simp [hangRight]
  | node x a b left right => simp [hangRight, right]

def Linear : BinaryTree ι → Prop
  | .nil => True
  | .node _ l r => l = .nil ∧ Linear r

theorem linear_hangRight {r t : BinaryTree ι} (ht : Linear t) (hr : Linear r) :
    Linear (hangRight r t) := by
  induction t with
  | nil => exact hr
  | node x a b left right => exact ⟨ht.1, right ht.2⟩

theorem length_inorder (t : BinaryTree ι) : (inorder t).length = t.numNodes := by
  induction t with
  | nil => rfl
  | node x l r left right =>
    rw [inorder_node, List.length_append, List.length_cons, left, right, BinaryTree.numNodes]
    omega

theorem inorder_map {κ : Type} (f : ι → κ) (t : BinaryTree ι) :
    inorder (t.map f) = (inorder t).map f := by
  induction t with
  | nil => rfl
  | node x l r left right => simp [BinaryTree.map, left, right]

def bisect (entries : List ι) (count : ℕ) : BinaryTree ι :=
  if count = 0 then .nil
  else match entries[count / 2]? with
    | none => .nil
    | some middle => .node middle (bisect entries (count / 2))
        (bisect (entries.drop (count / 2 + 1)) (count - count / 2 - 1))
termination_by count

theorem bisect_some {entries : List ι} {count : ℕ} (pos : count ≠ 0) {middle : ι}
    (here : entries[count / 2]? = some middle) :
    bisect entries count = .node middle (bisect entries (count / 2))
      (bisect (entries.drop (count / 2 + 1)) (count - count / 2 - 1)) := by
  rw [bisect, if_neg pos]
  simp only [here]

theorem take_middle {entries : List ι} {count : ℕ} (pos : count ≠ 0) {middle : ι}
    (here : entries[count / 2]? = some middle) :
    entries.take count = entries.take (count / 2) ++
      middle :: (entries.drop (count / 2 + 1)).take (count - count / 2 - 1) := by
  obtain ⟨inside, rfl⟩ := List.getElem?_eq_some_iff.mp here
  have halves : count = count / 2 + (count - count / 2 - 1 + 1) := by omega
  calc entries.take count
      = entries.take (count / 2) ++
          (entries.drop (count / 2)).take (count - count / 2 - 1 + 1) := by
        rw [← List.take_add, ← halves]
    _ = _ := by rw [List.drop_eq_getElem_cons inside, List.take_succ_cons]

/-- Where there are as many entries as asked for, every half has its middle. -/
theorem bisect_induction {motive : ∀ (entries : List ι) (count : ℕ), count ≤ entries.length → Prop}
    (empty : ∀ entries, motive entries 0 (Nat.zero_le _))
    (halves : ∀ entries count enough middle, count ≠ 0 → entries[count / 2]? = some middle →
      ∀ enoughL enoughR, motive entries (count / 2) enoughL →
        motive (entries.drop (count / 2 + 1)) (count - count / 2 - 1) enoughR →
          motive entries count enough)
    (entries : List ι) (count : ℕ) (enough : count ≤ entries.length) : motive entries count enough := by
  induction entries, count using bisect.induct with
  | case1 entries => exact empty entries
  | case2 entries count pos out =>
    rw [List.getElem?_eq_none_iff] at out
    omega
  | case3 entries count pos middle here left right =>
    have enoughR : count - count / 2 - 1 ≤ (entries.drop (count / 2 + 1)).length := by
      rw [List.length_drop]
      omega
    exact halves entries count enough middle pos here (by omega) enoughR (left _) (right _)

theorem inorder_bisect (entries : List ι) (count : ℕ) (enough : count ≤ entries.length) :
    inorder (bisect entries count) = entries.take count := by
  induction entries, count, enough using bisect_induction with
  | empty entries => simp [bisect]
  | halves entries count enough middle pos here enoughL enoughR left right =>
    rw [bisect_some pos here, inorder_node, left, right, take_middle pos here]

theorem bisect_map {κ : Type} (f : ι → κ) (entries : List ι) (count : ℕ) (enough : count ≤ entries.length) :
    (bisect entries count).map f = bisect (entries.map f) count := by
  induction entries, count, enough using bisect_induction with
  | empty entries => simp [bisect, BinaryTree.map]
  | halves entries count enough middle pos here enoughL enoughR left right =>
    have mapped : (entries.map f)[count / 2]? = some (f middle) := by
      rw [List.getElem?_map, here, Option.map_some]
    rw [bisect_some pos here, bisect_some pos mapped, BinaryTree.map, left, right, List.map_drop]

theorem height_bisect_le (entries : List ι) (count : ℕ) (enough : count ≤ entries.length) (k : ℕ) :
    (bisect entries count).height ≤ k ↔ count < 2 ^ k := by
  induction entries, count, enough using bisect_induction generalizing k with
  | empty entries => simp [bisect]
  | halves entries count enough middle pos here enoughL enoughR left right =>
    rw [bisect_some pos here, BinaryTree.height]
    cases k with
    | zero =>
      rw [pow_zero]
      omega
    | succ k =>
      rw [Nat.add_le_add_iff_right, max_le_iff, left k, right k, pow_succ]
      omega

theorem height_bisect (entries : List ι) (count : ℕ) (enough : count ≤ entries.length)
    (pos : 1 ≤ count) : (bisect entries count).height = Nat.log 2 count + 1 := by
  have height := height_bisect_le entries count enough
  apply le_antisymm
  · exact (height _).mpr (Nat.lt_pow_succ_log_self (by decide) count)
  · by_contra less
    have small := (height (Nat.log 2 count)).mp (by omega)
    exact absurd small (not_lt.mpr (Nat.pow_log_le_self 2 (by omega)))

/-- The place a search arrives at: the subtree there, and the whole tree for
any subtree put in its stead. -/
structure Slot (ι : Type) where
  here : BinaryTree ι
  fill : BinaryTree ι → BinaryTree ι

/-- `side x` says on which side of the entry `x` the search goes on; it stops
at `eq` or where the tree ends. -/
def reach (side : ι → Ordering) : BinaryTree ι → Slot ι
  | .nil => ⟨.nil, id⟩
  | .node x l r =>
    match side x with
    | .lt => ⟨(reach side l).here, fun t => .node x ((reach side l).fill t) r⟩
    | .gt => ⟨(reach side r).here, fun t => .node x l ((reach side r).fill t)⟩
    | .eq => ⟨.node x l r, id⟩

/-- A slot seen from its inorder list: `low` lies to its left and `high` to its
right. -/
structure Between (side : ι → Ordering) (t : BinaryTree ι) (slot : Slot ι)
    (low high : List ι) : Prop where
  fills : ∀ s, inorder (slot.fill s) = low ++ inorder s ++ high
  back : slot.fill slot.here = t
  left : ∀ x ∈ low, side x = .gt
  right : ∀ x ∈ high, side x = .lt
  hit : ∀ x l r, slot.here = .node x l r → side x = .eq

theorem reach_between {side : ι → Ordering} {before : ι → ι → Prop}
    (lower : ∀ x y, before x y → side y = .gt → side x = .gt)
    (upper : ∀ x y, before x y → side x = .lt → side y = .lt)
    (t : BinaryTree ι) (search : Searchable before t) :
    ∃ low high, Between side t (reach side t) low high := by
  induction t with
  | nil => exact ⟨[], [], fun s => by simp [reach], rfl, by simp, by simp, nofun⟩
  | node x l r left right =>
    obtain ⟨below, above, searchL, searchR⟩ := search
    cases turn : side x with
    | lt =>
      obtain ⟨low, high, slot⟩ := left searchL
      refine ⟨low, high ++ x :: inorder r, ?_⟩
      simp only [reach, turn]
      refine ⟨fun s => by simp [slot.fills], by simp [slot.back], slot.left, ?_, slot.hit⟩
      intro y hy
      rcases List.mem_append.mp hy with hy | hy
      · exact slot.right y hy
      · rcases List.mem_cons.mp hy with rfl | hy
        · exact turn
        · exact upper x y (above y hy) turn
    | gt =>
      obtain ⟨low, high, slot⟩ := right searchR
      refine ⟨inorder l ++ x :: low, high, ?_⟩
      simp only [reach, turn]
      refine ⟨fun s => by simp [slot.fills], by simp [slot.back], ?_, slot.right, slot.hit⟩
      intro y hy
      rcases List.mem_append.mp hy with hy | hy
      · exact lower y x (below y hy) turn
      · rcases List.mem_cons.mp hy with rfl | hy
        · exact turn
        · exact slot.left y hy
    | eq =>
      refine ⟨[], [], ?_⟩
      simp only [reach, turn]
      refine ⟨fun s => by simp, rfl, by simp, by simp, fun y a b same => ?_⟩
      obtain ⟨rfl, -, -⟩ := BinaryTree.node.inj same
      exact turn

end Libdank.OrderedTree
