import Libdank.Foundation.PointerTree
import Libdank.Intervals.Disjoint

/-! Balancing as the source does it, on the pointers between the nodes. A node is
known by its address, its interval and data never change, and `fuel` is more than
the depth that the recursion has to reach. -/
namespace Libdank.Intervals.Pointers
open OrderedTree PointerTree Requests

abbrev Address := ℕ

section Walks

variable (s : Links Address)

def depthIntervalTree : ℕ → Pointer Address → Option UInt32
  | 0, _ => none
  | _ + 1, none => some 0
  | fuel + 1, some it => do
    let lm ← depthIntervalTree fuel (s (.left it))
    let rm ← depthIntervalTree fuel (s (.right it))
    pure ((if lm > rm then lm else rm) + 1)

def populationIntervalTree : ℕ → Pointer Address → Option UInt32
  | 0, _ => none
  | _ + 1, none => some 0
  | fuel + 1, some it => do
    let l ← populationIntervalTree fuel (s (.left it))
    let r ← populationIntervalTree fuel (s (.right it))
    pure (l + r + 1)

def vectorizeList : ℕ → Pointer Address → Option (List Address)
  | 0, _ => some []
  | _ + 1, none => none
  | count + 1, some it => (vectorizeList count (s (.right it))).map (it :: ·)

end Walks

/-- The list that the left side has become takes the place of `cur`, which goes
behind its end. -/
def joinList (join : Pointer (Place Address)) (it : Place Address) (cur : Address)
    (s : Links Address) : Links Address :=
  match join with
  | some join =>
    let s := Function.update s it (s (.left cur))
    let s := Function.update s (.left cur) none
    Function.update s join (some cur)
  | none => s

/-- `it` is the place of the tree, which holds the head of the list afterwards. The
place returned is that of the list's end, or NULL. -/
def linearizeIntervalTree : ℕ → Place Address → Links Address →
    Option (Pointer (Place Address) × Links Address)
  | 0, _, _ => none
  | fuel + 1, it, s =>
    match s it with
    | none => some (none, s)
    | some cur => do
      let (join, s) ← linearizeIntervalTree fuel (.left cur) s
      let (join, s) ← linearizeIntervalTree fuel (.right cur) (joinList join it cur s)
      pure (some (join.getD (.right cur)), s)

def bbstizeVector (it : List Address) (count : ℕ) (s : Links Address) :
    Option (Pointer Address × Links Address) :=
  if count = 0 then some (none, s)
  else match it[count / 2]? with
    | none => none
    | some ret => do
      let (l, s) ← bbstizeVector it (count / 2) s
      let s := Function.update s (.left ret) l
      let (r, s) ← bbstizeVector (it.drop (count / 2 + 1)) (count - count / 2 - 1) s
      let s := Function.update s (.right ret) r
      pure (some ret, s)
termination_by count

def balanceIntervalTree (fuel : ℕ) (s : Links Address) (h : Heap) : Option (Links Address × Heap) := do
  let upop ← populationIntervalTree s fuel (s .root)
  let (_, s) ← linearizeIntervalTree fuel .root s
  let (served, h) := allocate (sizeofPointer * upop.toNat) h
  if served then
    let tmp ← vectorizeList s upop.toNat (s .root)
    let (it, s) ← bbstizeVector tmp upop.toNat s
    pure (Function.update s .root it, h)
  else pure (s, h)

section Shapes

variable {α : Type} {s : Links Address} {p : Pointer Address} {t : BinaryTree Address} {fuel : ℕ}

theorem fuel_of_node {a : Address} {l r : BinaryTree Address}
    (deep : (BinaryTree.node a l r).height < fuel) :
    ∃ less, fuel = less + 1 ∧ l.height < less ∧ r.height < less := by
  rw [BinaryTree.height] at deep
  exact ⟨fuel - 1, by omega, by omega, by omega⟩

theorem populationIntervalTree_hangs (entry : Address → Entry α) (hangs : Hangs s p t)
    (deep : t.height < fuel) :
    populationIntervalTree s fuel p = some (Intervals.populationIntervalTree (t.map entry)) := by
  induction t generalizing p fuel with
  | nil =>
    obtain ⟨fuel, rfl⟩ := Nat.exists_eq_succ_of_ne_zero (Nat.ne_of_gt deep)
    rw [show p = none from hangs]
    rfl
  | node a l r left right =>
    obtain ⟨fuel, rfl, deepL, deepR⟩ := fuel_of_node deep
    obtain ⟨rfl, hl, hr⟩ := hangs
    simp only [populationIntervalTree, left hl deepL, right hr deepR]
    rfl

theorem depthIntervalTree_hangs (entry : Address → Entry α) (hangs : Hangs s p t)
    (deep : t.height < fuel) :
    depthIntervalTree s fuel p = some (Intervals.depthIntervalTree (t.map entry)) := by
  induction t generalizing p fuel with
  | nil =>
    obtain ⟨fuel, rfl⟩ := Nat.exists_eq_succ_of_ne_zero (Nat.ne_of_gt deep)
    rw [show p = none from hangs]
    rfl
  | node a l r left right =>
    obtain ⟨fuel, rfl, deepL, deepR⟩ := fuel_of_node deep
    obtain ⟨rfl, hl, hr⟩ := hangs
    simp only [depthIntervalTree, left hl deepL, right hr deepR]
    rfl

theorem vectorizeList_chain {nodes : List Address} (chain : Chain s p nodes none) :
    vectorizeList s nodes.length p = some nodes := by
  induction nodes generalizing p with
  | nil => rfl
  | cons a nodes ih =>
    obtain ⟨rfl, -, rest⟩ := chain
    simp [vectorizeList, ih rest]

end Shapes

section Linearizing

/-- What a call on the tree `t` at the place `it` does: the nodes in order, each
right of the one before, and the place behind the last. No other pointer changes. -/
structure Linearized (s : Links Address) (it : Place Address) (t : BinaryTree Address)
    (join : Pointer (Place Address)) (s' : Links Address) : Prop where
  chain : Chain s' (s' it) (inorder t) none
  join_eq : join = (inorder t).getLast?.map .right
  frame : ∀ p, Off (inorder t) p → p ≠ it → s' p = s p

theorem joinList_spec {s : Links Address} {it : Place Address} {cur : Address} {nodes : List Address}
    (chain : Chain s (s (.left cur)) nodes none) (here : s it = some cur)
    (apart : (nodes ++ [cur]).Nodup) (off : Off nodes it) (elsewhere : it ≠ .left cur)
    {s' : Links Address} (joined : s' = joinList (nodes.getLast?.map .right) it cur s) :
    Chain s' (s' it) nodes (some cur) ∧ s' (.left cur) = none ∧
      ∀ p, Off nodes p → p ≠ .left cur → p ≠ it → s' p = s p := by
  rcases List.eq_nil_or_concat' nodes with rfl | ⟨front, b, rfl⟩
  · subst joined
    exact ⟨here, chain, fun p _ _ _ => rfl⟩
  · rw [List.getLast?_concat, Option.map_some] at joined
    obtain ⟨first, left_b, -⟩ := chain_concat.mp chain
    obtain ⟨inside, -, apart⟩ := List.nodup_append.mp apart
    obtain ⟨-, -, inner⟩ := List.nodup_append.mp inside
    have itb : it ≠ .right b := (off b (by simp)).2
    have value : ∀ p, p ≠ .right b → p ≠ .left cur → p ≠ it → s' p = s p := fun p pb pc pi => by
      simp only [joined, joinList, Function.update_of_ne pb, Function.update_of_ne pc,
        Function.update_of_ne pi]
    have start : s' it = s (.left cur) := by
      simp only [joined, joinList, Function.update_of_ne itb, Function.update_of_ne elsewhere,
        Function.update_self]
    have cut : s' (.left cur) = none := by
      simp only [joined, joinList, Function.update_of_ne (by simp : Place.left cur ≠ .right b),
        Function.update_self]
    have end_ : s' (.right b) = some cur := by rw [joined, joinList, Function.update_self]
    have left_of : ∀ x ∈ front ++ [b], s' (.left x) = s (.left x) := fun x hx =>
      value _ (by simp) (fun same => apart x hx cur (by simp) (Place.left.inj same)) (off x hx).1.symm
    have right_of : ∀ x ∈ front, s' (.right x) = s (.right x) := fun x hx =>
      value _ (fun same => inner x hx b (by simp) (Place.right.inj same)) (by simp)
        (off x (by simp [hx])).2.symm
    refine ⟨?_, cut, fun p offp => value p (offp b (by simp)).2⟩
    rw [start, chain_concat]
    exact ⟨first.frame fun x hx => ⟨left_of x (by simp [hx]), right_of x hx⟩,
      (left_of b (by simp)).trans left_b, end_⟩

theorem linearizeIntervalTree_spec {t : BinaryTree Address} {s : Links Address} {it : Place Address}
    {fuel : ℕ} (hangs : Hangs s (s it) t) (apart : (inorder t).Nodup) (off : Off (inorder t) it)
    (deep : t.height < fuel) :
    ∃ join s', linearizeIntervalTree fuel it s = some (join, s') ∧ Linearized s it t join s' := by
  induction t generalizing s it fuel with
  | nil =>
    obtain ⟨fuel, rfl⟩ := Nat.exists_eq_succ_of_ne_zero (Nat.ne_of_gt deep)
    have here : s it = none := hangs
    exact ⟨none, s, by rw [linearizeIntervalTree, here], ⟨here, rfl, fun p _ _ => rfl⟩⟩
  | node a l r left right =>
    obtain ⟨fuel, rfl, deepL, deepR⟩ := fuel_of_node deep
    obtain ⟨here, hl, hr⟩ := hangs
    rw [inorder_node] at apart off
    obtain ⟨offL, offAR⟩ := off_append.mp off
    obtain ⟨⟨notL, notR⟩, offR⟩ := off_cons.mp offAR
    obtain ⟨apartL, apartAR, cross⟩ := List.nodup_append.mp apart
    obtain ⟨freshR, apartR⟩ := List.nodup_cons.mp apartAR
    have freshL : a ∉ inorder l := fun h => cross a h a (by simp) rfl
    obtain ⟨join₁, s₁, call₁, left_⟩ := left hl apartL (off_left.mpr freshL) deepL
    have here₁ : s₁ it = some a := (left_.frame it offL notL).trans here
    have apart₁ : (inorder l ++ [a]).Nodup :=
      apart.sublist ((List.Sublist.refl _).append (by simp))
    obtain ⟨chain₂, left₂, frame₂⟩ := joinList_spec left_.chain here₁ apart₁ offL notL rfl
    rw [← left_.join_eq] at chain₂ left₂ frame₂
    set s₂ := joinList join₁ it a s₁
    -- The right side has been left alone so far.
    have kept : ∀ p, Off (inorder l) p → p ≠ .left a → p ≠ it → s₂ p = s p := fun p offp na ni =>
      (frame₂ p offp na ni).trans (left_.frame p offp na)
    have hr₂ : Hangs s₂ (s₂ (.right a)) r := by
      rw [kept _ (off_right.mpr freshL) (by simp) notR.symm]
      refine hr.frame fun x hx => ?_
      have far : x ∉ inorder l := fun h => cross x h x (by simp [hx]) rfl
      have other : x ≠ a := fun same => freshR (same ▸ hx)
      exact ⟨kept _ (off_left.mpr far) (by simpa using other) (offR x hx).1.symm,
        kept _ (off_right.mpr far) (by simp) (offR x hx).2.symm⟩
    obtain ⟨join₃, s₃, call₃, right_⟩ := right hr₂ apartR (off_right.mpr freshR) deepR
    refine ⟨some (join₃.getD (.right a)), s₃, ?_, ?_, ?_, ?_⟩
    · simp only [linearizeIntervalTree, here, call₁]
      simp only [Option.bind_eq_bind, Option.bind_some]
      rw [call₃]
      rfl
    · have start : s₃ it = s₂ it := right_.frame it offR notR
      rw [start, inorder_node, chain_append]
      refine ⟨some a, chain₂.frame fun x hx => ?_, rfl, ?_, right_.chain⟩
      · have far : x ∉ inorder r := fun h => cross x hx x (by simp [h]) rfl
        have other : x ≠ a := fun same => freshL (same ▸ hx)
        exact ⟨right_.frame _ (off_left.mpr far) (by simp),
          right_.frame _ (off_right.mpr far) (by simpa using other)⟩
      · exact (right_.frame _ (off_left.mpr freshR) (by simp)).trans left₂
    · rw [right_.join_eq, inorder_node]
      rcases List.eq_nil_or_concat' (inorder r) with none_ | ⟨front, b, some_⟩
      · simp [none_]
      · rw [some_, ← List.cons_append, ← List.append_assoc, List.getLast?_concat, List.getLast?_concat]
        rfl
    · intro p offp ni
      rw [inorder_node] at offp
      obtain ⟨offpL, offpAR⟩ := off_append.mp offp
      obtain ⟨⟨na, nra⟩, offpR⟩ := off_cons.mp offpAR
      exact (right_.frame p offpR nra).trans (kept p offpL na ni)

end Linearizing

section Rebuilding

theorem bbstizeVector_spec (count : ℕ) (it : List Address) (s : Links Address) (apart : it.Nodup)
    (enough : count ≤ it.length) :
    ∃ p s', bbstizeVector it count s = some (p, s') ∧ Hangs s' p (bisect it count) ∧
      ∀ q, Off (it.take count) q → s' q = s q := by
  induction it, count, enough using bisect_induction generalizing s with
  | empty it =>
    rw [bbstizeVector, bisect, if_pos rfl, if_pos rfl]
    exact ⟨none, s, rfl, rfl, fun q _ => rfl⟩
  | halves it count enough ret pos here enoughL enoughR left right =>
    rw [bbstizeVector, bisect, if_neg pos, if_neg pos]
    have cut := take_middle pos here
    have whole : (it.take count).Nodup := apart.sublist (List.take_sublist _ _)
    rw [cut] at whole
    obtain ⟨-, apartR, cross⟩ := List.nodup_append.mp whole
    have freshR := (List.nodup_cons.mp apartR).1
    have freshL : ret ∉ it.take (count / 2) := fun h => cross ret h ret (by simp) rfl
    have others : (it.drop (count / 2 + 1)).Nodup := apart.sublist (List.drop_sublist _ _)
    obtain ⟨l, s₁, call₁, left_, frame₁⟩ := left s apart
    obtain ⟨r, s₃, call₃, right_, frame₃⟩ := right (Function.update s₁ (.left ret) l) others
    have left_inorder := inorder_bisect it (count / 2) enoughL
    have right_inorder := inorder_bisect (it.drop (count / 2 + 1)) _ enoughR
    -- The nodes of the left half are not touched after it is built.
    have later : ∀ q, Off (ret :: (it.drop (count / 2 + 1)).take (count - count / 2 - 1)) q →
        Function.update s₃ (.right ret) r q = s₁ q := fun q offq => by
      obtain ⟨⟨nl, nr⟩, offR⟩ := off_cons.mp offq
      rw [Function.update_of_ne nr, frame₃ q offR, Function.update_of_ne nl]
    refine ⟨some ret, Function.update s₃ (.right ret) r, ?_, ?_, ?_⟩
    · simp only [here, call₁, Option.bind_eq_bind, Option.bind_some]
      rw [call₃]
      rfl
    · simp only [here]
      refine ⟨rfl, ?_, ?_⟩
      · rw [Function.update_of_ne (by simp), frame₃ _ (off_left.mpr freshR), Function.update_self]
        refine left_.frame fun x hx => ?_
        rw [left_inorder] at hx
        have far : x ∉ ret :: (it.drop (count / 2 + 1)).take (count - count / 2 - 1) :=
          fun h => cross x hx x h rfl
        exact ⟨later _ (off_left.mpr far), later _ (off_right.mpr far)⟩
      · rw [Function.update_self]
        refine right_.frame fun x hx => ?_
        rw [right_inorder] at hx
        have other : x ≠ ret := fun same => freshR (same ▸ hx)
        exact ⟨Function.update_of_ne (by simp) _ _, Function.update_of_ne (by simpa using other) _ _⟩
    · intro q offq
      rw [cut] at offq
      obtain ⟨offL, offAR⟩ := off_append.mp offq
      exact (later q offAR).trans (frame₁ q offL)

end Rebuilding

section Balancing

variable {α : Type} {s : Links Address} {t : BinaryTree Address} {fuel : ℕ}

def balanced (served : Bool) (nodes : List Address) : BinaryTree Address :=
  if served then bisect nodes nodes.length else spine nodes

theorem balanceIntervalTree_hangs (entry : Address → Entry α) (hangs : Hangs s (s .root) t)
    (apart : (inorder t).Nodup) (deep : t.height < fuel) (h : Heap)
    (small : (inorder t).length ≤ 2 ^ 32) {served : Bool × Heap}
    (asked : served = allocate
      (sizeofPointer * (Intervals.populationIntervalTree (t.map entry)).toNat) h) :
    ∃ s', balanceIntervalTree fuel s h = some (s', served.2) ∧
      Hangs s' (s' .root) (balanced served.1 (inorder t)) := by
  have population := populationIntervalTree_hangs entry hangs deep
  have count := populationIntervalTree_toNat (t.map entry)
  rw [inorder_map, List.length_map] at count
  obtain ⟨join, s₁, linearize, list⟩ :=
    @linearizeIntervalTree_spec t s .root fuel hangs apart (fun a _ => by simp) deep
  obtain ⟨ok, h'⟩ := served
  cases ok with
  | false =>
    refine ⟨s₁, ?_, hangs_spine.mpr list.chain⟩
    simp only [balanceIntervalTree, population, linearize, Option.bind_eq_bind, Option.bind_some,
      ← asked]
    rfl
  | true =>
    have fits : (inorder t).length < 2 ^ 32 := by
      by_contra full
      rw [count, show (inorder t).length = 2 ^ 32 by omega, Nat.mod_self] at asked
      exact Bool.false_ne_true (congrArg Prod.fst asked).symm
    rw [Nat.mod_eq_of_lt fits] at count
    rw [count] at asked
    have vector := vectorizeList_chain list.chain
    obtain ⟨it, s₂, rebuild, tree, -⟩ := bbstizeVector_spec _ (inorder t) s₁ apart le_rfl
    refine ⟨Function.update s₂ .root it, ?_, ?_⟩
    · simp only [balanceIntervalTree, population, linearize, Option.bind_eq_bind, Option.bind_some,
        ← asked, if_true, count, vector, rebuild]
      rfl
    · rw [Function.update_self]
      exact tree.frame fun a _ => ⟨Function.update_of_ne (by simp) _ _, Function.update_of_ne (by simp) _ _⟩

theorem balanced_map (entry : Address → Entry α) (t : BinaryTree Address) (h : Heap)
    (small : (inorder t).length ≤ 2 ^ 32) :
    (Intervals.balanceIntervalTree (t.map entry) h).1 =
      (balanced (allocate (sizeofPointer * (Intervals.populationIntervalTree (t.map entry)).toNat) h).1
        (inorder t)).map entry := by
  have count := populationIntervalTree_toNat (t.map entry)
  have linear := linear_linearizeIntervalTree (t.map entry)
  have same := inorder_linearizeIntervalTree (t.map entry)
  have list : Intervals.linearizeIntervalTree (t.map entry) = spine ((inorder t).map entry) := by
    rw [eq_spine linear, same, inorder_map]
  unfold Intervals.balanceIntervalTree
  rw [bind_apply]
  cases asked : (allocate (sizeofPointer * (Intervals.populationIntervalTree (t.map entry)).toNat) h).1 with
  | false =>
    rw [if_neg Bool.false_ne_true, pure_apply, list, ← spine_map]
    rfl
  | true =>
    have vector := vectorizeList_linear _ linear
    have fits : (inorder t).length < 2 ^ 32 := by
      by_contra full
      rw [count, inorder_map, List.length_map, show (inorder t).length = 2 ^ 32 by omega,
        Nat.mod_self] at asked
      exact Bool.false_ne_true asked
    rw [inorder_map, List.length_map, Nat.mod_eq_of_lt fits] at count
    rw [same, inorder_map, List.length_map] at vector
    rw [if_pos rfl, pure_apply, count, vector, bbstizeVector_eq, ← bisect_map _ _ _ le_rfl]
    rfl

end Balancing

section Exactness

variable {α : Type}

/-- The pointers at `s` hold the tree `t`, no node of which is met twice, and the
intervals of its nodes make it an interval tree. -/
structure Stored (s : Links Address) (entry : Address → Entry α) (t : BinaryTree Address) : Prop where
  hangs : Hangs s (s .root) t
  apart : (inorder t).Nodup
  ordered : Searchable Before (t.map entry)

theorem height_map {ι κ : Type} (f : ι → κ) (t : BinaryTree ι) : (t.map f).height = t.height := by
  induction t with
  | nil => rfl
  | node a l r left right => simp [BinaryTree.map, left, right]

theorem depthIntervalTree_toNat (it : IntervalTree α) (shallow : it.height < 2 ^ 32) :
    (Intervals.depthIntervalTree it).toNat = it.height := by
  induction it with
  | nil => rfl
  | node e l r left right =>
    rw [BinaryTree.height] at shallow
    have hl := left (by omega)
    have hr := right (by omega)
    have larger : (if Intervals.depthIntervalTree l > Intervals.depthIntervalTree r
        then Intervals.depthIntervalTree l else Intervals.depthIntervalTree r).toNat =
        max l.height r.height := by
      split_ifs with gt
      · rw [gt_iff_lt, UInt32.lt_iff_toNat_lt] at gt
        omega
      · rw [gt_iff_lt, UInt32.lt_iff_toNat_lt] at gt
        omega
    rw [Intervals.depthIntervalTree, UInt32.toNat_add, larger, BinaryTree.height]
    exact Nat.mod_eq_of_lt shallow

/-- What hangs from the pointers in the end is what balancing makes of the tree as a value. -/
theorem balanceIntervalTree_refines {s : Links Address} {entry : Address → Entry α} {t : BinaryTree Address}
    (stored : Stored s entry t) {fuel : ℕ} (deep : t.numNodes < fuel) (h : Heap) :
    ∃ s' t', balanceIntervalTree fuel s h = some (s', (Intervals.balanceIntervalTree (t.map entry) h).2) ∧
      Hangs s' (s' .root) t' ∧ t'.map entry = (Intervals.balanceIntervalTree (t.map entry) h).1 := by
  have small : (inorder t).length ≤ 2 ^ 32 := by
    have bound := stored_length_le _ stored.ordered
    rwa [inorder_map, List.length_map] at bound
  obtain ⟨s', call, tree⟩ := balanceIntervalTree_hangs entry stored.hangs stored.apart
    (lt_of_le_of_lt t.height_le_numNodes deep) h small rfl
  refine ⟨s', _, ?_, tree, (balanced_map entry t h small).symm⟩
  rw [call, Intervals.balanceIntervalTree, bind_apply]
  split_ifs <;> rfl

theorem balanceIntervalTree_exact {s : Links Address} {entry : Address → Entry α}
    {t : BinaryTree Address} (stored : Stored s entry t) {fuel : ℕ} (deep : t.numNodes < fuel)
    (h : Heap) :
    ∃ s' h' t' n, balanceIntervalTree fuel s h = some (s', h') ∧ Stored s' entry t' ∧
      inorder (t'.map entry) = inorder (t.map entry) ∧
      populationIntervalTree s fuel (s .root) = some n ∧
      populationIntervalTree s' fuel (s' .root) = some n ∧
      (1 ≤ t.numNodes → (allocate (sizeofPointer * n.toNat) h).1 = true →
        ∃ depth, depthIntervalTree s' fuel (s' .root) = some depth ∧
          depth.toNat = Nat.log 2 t.numNodes + 1) := by
  have size := length_inorder t
  have shallow := t.height_le_numNodes
  have small : (inorder t).length ≤ 2 ^ 32 := by
    have bound := stored_length_le _ stored.ordered
    rwa [inorder_map, List.length_map] at bound
  generalize population : Intervals.populationIntervalTree (t.map entry) = n
  generalize asked : allocate (sizeofPointer * n.toNat) h = served
  obtain ⟨s', call, tree⟩ := balanceIntervalTree_hangs entry stored.hangs stored.apart
    (lt_of_le_of_lt shallow deep) h small (population ▸ asked.symm)
  set t' := balanced served.1 (inorder t) with shape
  have nodes : inorder t' = inorder t := by
    rw [shape, balanced]
    split_ifs
    · rw [inorder_bisect _ _ le_rfl, List.take_length]
    · exact inorder_spine _
  have entries : inorder (t'.map entry) = inorder (t.map entry) := by
    rw [inorder_map, inorder_map, nodes]
  have size' : t'.numNodes = t.numNodes := by rw [← length_inorder, nodes, size]
  have shallow' := t'.height_le_numNodes
  refine ⟨s', served.2, t', n, call, ⟨tree, nodes ▸ stored.apart, ?_⟩, entries, ?_, ?_, ?_⟩
  · rw [searchable_iff before_trans, entries, ← searchable_iff before_trans]
    exact stored.ordered
  · rw [populationIntervalTree_hangs entry stored.hangs (by omega), population]
  · rw [populationIntervalTree_hangs entry tree (by omega), ← population]
    congr 1
    rw [← UInt32.toNat_inj, populationIntervalTree_toNat, populationIntervalTree_toNat, entries]
  · intro some_ room
    rw [asked] at room
    have halved : t' = bisect (inorder t) (inorder t).length := by rw [shape, balanced, if_pos room]
    have height : t'.height = Nat.log 2 t.numNodes + 1 := by
      rw [halved, height_bisect _ _ le_rfl (by omega), size]
    have low : t'.height ≤ 33 := by
      rw [halved, height_bisect_le _ _ le_rfl]
      omega
    refine ⟨_, depthIntervalTree_hangs entry tree (by omega), ?_⟩
    rw [depthIntervalTree_toNat _ (by rw [height_map]; omega), height_map, height]

def pairLinks : Links Address
  | .root => some 0
  | .left 0 => some 1
  | _ => none

def pairEntry (a : Address) : Entry Unit :=
  if a = 0 then ⟨⟨5, 9, by decide⟩, none⟩ else ⟨⟨1, 2, by decide⟩, none⟩

theorem balanceIntervalTree_exact_pair :
    ∃ s' h' t' n, balanceIntervalTree 3 pairLinks ⟨[], false⟩ = some (s', h') ∧
      Stored s' pairEntry t' ∧
      inorder (t'.map pairEntry) =
        inorder ((BinaryTree.node 0 (.node 1 .nil .nil) .nil).map pairEntry) ∧
      populationIntervalTree pairLinks 3 (pairLinks .root) = some n ∧
      populationIntervalTree s' 3 (s' .root) = some n ∧
      (1 ≤ (BinaryTree.node 0 (.node 1 .nil .nil) .nil).numNodes →
        (allocate (sizeofPointer * n.toNat) ⟨[], false⟩).1 = true →
        ∃ depth, depthIntervalTree s' 3 (s' .root) = some depth ∧
          depth.toNat = Nat.log 2 (BinaryTree.node 0 (.node 1 .nil .nil) .nil).numNodes + 1) := by
  refine balanceIntervalTree_exact ⟨?_, by decide, ?_⟩ (by decide) ⟨[], false⟩
  · exact ⟨rfl, ⟨rfl, rfl, rfl⟩, rfl⟩
  · simp [BinaryTree.map, Searchable, Before, pairEntry]

end Exactness

end Libdank.Intervals.Pointers
