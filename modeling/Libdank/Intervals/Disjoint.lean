import Libdank.Intervals.Operations
import Mathlib.Order.CompletePartialOrder

/-! The tree as a set of disjoint intervals. All calls keep the search order,
which already makes the intervals disjoint; an interval overlaps a stored one
exactly when the search for it stops at a node, so the single path decides. -/
namespace Libdank.Intervals
open OrderedTree Requests

variable {α : Type}

def Interval.keys (i : Interval) : Set UInt32 := {key | i.lbound ≤ key ∧ key ≤ i.ubound}

def Overlaps (i j : Interval) : Prop := ∃ key, key ∈ i.keys ∧ key ∈ j.keys

def Before (e f : Entry α) : Prop := e.ival.ubound < f.ival.lbound

theorem before_trans (x y z : Entry α) (xy : Before x y) (yz : Before y z) : Before x z :=
  UInt32.lt_trans xy (UInt32.lt_of_le_of_lt y.ival.ordered yz)

theorem overlaps_iff (i j : Interval) :
    Overlaps i j ↔ ¬ i.ubound < j.lbound ∧ ¬ j.ubound < i.lbound := by
  constructor
  · rintro ⟨key, ⟨lo, hi⟩, lo', hi'⟩
    exact ⟨UInt32.not_lt.mpr (UInt32.le_trans lo' hi), UInt32.not_lt.mpr (UInt32.le_trans lo hi')⟩
  · rintro ⟨left, right⟩
    rw [UInt32.not_lt] at left right
    rcases UInt32.le_total i.lbound j.lbound with low | low
    · exact ⟨j.lbound, ⟨low, left⟩, UInt32.le_refl _, j.ordered⟩
    · exact ⟨i.lbound, ⟨UInt32.le_refl _, i.ordered⟩, low, right⟩

theorem before_apart {e f : Entry α} (h : Before e f) : ¬ Overlaps e.ival f.ival :=
  fun both => ((overlaps_iff _ _).mp both).1 h

theorem side_lt {ival : Interval} {e : Entry α} :
    side ival e = .lt ↔ ival.ubound < e.ival.lbound := by
  unfold side
  split_ifs <;> simp_all

theorem side_gt {ival : Interval} {e : Entry α} :
    side ival e = .gt ↔ e.ival.ubound < ival.lbound := by
  unfold side
  split_ifs with below above
  · have := UInt32.lt_of_lt_of_le below e.ival.ordered
    have := UInt32.lt_of_le_of_lt ival.ordered this
    simp [UInt32.not_lt.mpr (UInt32.le_of_lt this)]
  · simp [above]
  · simp [above]

theorem side_eq {ival : Interval} {e : Entry α} : side ival e = .eq ↔ Overlaps e.ival ival := by
  rw [overlaps_iff, ← side_gt, ← side_lt]
  cases side ival e <;> simp

/-- The slot reached for `ival`: everything to its left ends before `ival`,
everything to its right starts after it. -/
theorem reach_ival (it : IntervalTree α) (search : Searchable Before it) (ival : Interval) :
    ∃ low high, Between (side ival) it (reach (side ival) it) low high := by
  refine reach_between (fun x y xy h => ?_) (fun x y xy h => ?_) it search
  · rw [side_gt] at h ⊢
    exact UInt32.lt_trans xy (UInt32.lt_of_le_of_lt y.ival.ordered h)
  · rw [side_lt] at h ⊢
    exact UInt32.lt_trans h (UInt32.lt_of_le_of_lt x.ival.ordered xy)

/-- The search for `ival` stops at a free slot, or at a node that overlaps it. -/
theorem reach_cases (it : IntervalTree α) (search : Searchable Before it) (ival : Interval) :
    ∃ low high, Between (side ival) it (reach (side ival) it) low high ∧
      ((reach (side ival) it).here = .nil ∧ inorder it = low ++ high ∨
        ∃ e l r, (reach (side ival) it).here = .node e l r ∧
          inorder it = low ++ (inorder l ++ e :: inorder r) ++ high ∧ Overlaps e.ival ival) := by
  obtain ⟨low, high, slot⟩ := reach_ival it search ival
  have whole : inorder it = low ++ inorder (reach (side ival) it).here ++ high := by
    rw [← slot.fills, slot.back]
  refine ⟨low, high, slot, ?_⟩
  cases here : (reach (side ival) it).here with
  | nil => exact .inl ⟨rfl, by rw [whole, here, inorder_nil, List.append_nil]⟩
  | node e l r =>
    exact .inr ⟨e, l, r, rfl, by rw [whole, here, inorder_node], side_eq.mp (slot.hit e l r here)⟩

theorem between_apart {it : IntervalTree α} {ival : Interval} {slot : Slot (Entry α)}
    {low high : List (Entry α)} (h : Between (side ival) it slot low high) :
    ∀ e ∈ low ++ high, ¬ Overlaps e.ival ival := by
  intro e he
  rw [← side_eq]
  rcases List.mem_append.mp he with he | he
  · simp [h.left e he]
  · simp [h.right e he]

theorem stored_unique {it : IntervalTree α} (search : Searchable Before it) {e f : Entry α}
    (he : e ∈ inorder it) (hf : f ∈ inorder it) (both : Overlaps e.ival f.ival) : e = f := by
  by_contra other
  have apart : (inorder it).Pairwise fun x y => ¬ Overlaps x.ival y.ival :=
    ((searchable_iff before_trans it).mp search).imp before_apart
  have symm : Std.Symm fun x y : Entry α => ¬ Overlaps x.ival y.ival :=
    ⟨fun x y h both => h (both.imp fun _ => And.symm)⟩
  exact apart.forall he hf other both

theorem overlaps_self (i : Interval) : Overlaps i i :=
  ⟨i.lbound, ⟨UInt32.le_refl _, i.ordered⟩, UInt32.le_refl _, i.ordered⟩

theorem intervalsEqual_iff (i j : Interval) : intervalsEqual i j = true ↔ i = j := by
  cases i
  cases j
  simp [intervalsEqual]

theorem searchable_of_ivals {it it' : IntervalTree α} (search : Searchable Before it)
    (same : (inorder it').map Entry.ival = (inorder it).map Entry.ival) :
    Searchable Before it' := by
  rw [searchable_iff before_trans] at search ⊢
  have order : ∀ l : List (Entry α), l.Pairwise Before ↔
      (l.map Entry.ival).Pairwise fun i j => i.ubound < j.lbound := fun l => by
    rw [List.pairwise_map]
    rfl
  rwa [order, same, ← order]

theorem searchable_new {it it' : IntervalTree α} {slot : Slot (Entry α)} {ival : Interval}
    {low high : List (Entry α)} (search : Searchable Before it)
    (h : Between (side ival) it slot low high) (free : inorder it = low ++ high) (v : Pointer α)
    (new : inorder it' = low ++ ⟨ival, v⟩ :: high) : Searchable Before it' := by
  rw [searchable_iff before_trans] at search ⊢
  rw [free, List.pairwise_append] at search
  rw [new, List.pairwise_append, List.pairwise_cons]
  obtain ⟨pl, ph, across⟩ := search
  refine ⟨pl, ⟨fun y hy => side_lt.mp (h.right y hy), ph⟩, fun x hx y hy => ?_⟩
  rcases List.mem_cons.mp hy with rfl | hy
  · exact side_gt.mp (h.left x hx)
  · exact across x hx y hy

theorem searchable_sublist {it it' : IntervalTree α} (search : Searchable Before it)
    (sub : (inorder it').Sublist (inorder it)) : Searchable Before it' := by
  rw [searchable_iff before_trans] at search ⊢
  exact search.sublist sub

theorem createIntervalTreeNode_spec (ival : Interval) (v : Pointer α) :
    Ensures (fun _ => True) (createIntervalTreeNode ival v)
      (fun r _ => ∀ new, r = some new → inorder new = [⟨ival, v⟩]) := by
  refine ensures_bind (ensures_true _) fun ok => ensures_ite (fun _ => ?_)
    (fun _ => ensures_pure fun h _ new same => nomatch same)
  refine ensures_pure fun h _ new same => ?_
  obtain rfl := Option.some.inj same
  rfl

/-- How an insertion ends: with the interval added, or with the tree as it was. -/
theorem insertIntervalTree_spec (it : IntervalTree α) (search : Searchable Before it)
    (ival : Interval) (v : Pointer α) :
    Ensures (fun _ => True) (insertIntervalTree it ival v) (fun r _ => Searchable Before r.2 ∧
      (r.1 = true → (inorder r.2).Perm (⟨ival, v⟩ :: inorder it)) ∧
      (r.1 = false → r.2 = it)) := by
  obtain ⟨low, high, slot, ⟨here, free⟩ | ⟨e, l, r, here, -, -⟩⟩ := reach_cases it search ival
  · simp only [insertIntervalTree, here]
    refine ensures_bind (createIntervalTreeNode_spec ival v) fun new => ?_
    cases new with
    | none => exact ensures_pure fun h _ => ⟨search, nofun, fun _ => rfl⟩
    | some new =>
      refine ensures_pure fun h made => ?_
      have entries : inorder ((reach (side ival) it).fill new) = low ++ ⟨ival, v⟩ :: high := by
        rw [slot.fills, made new rfl]
        simp
      refine ⟨searchable_new search slot free v entries, fun _ => ?_, nofun⟩
      rw [entries, free]
      exact List.perm_middle
  · simp only [insertIntervalTree, here]
    exact ensures_pure fun h _ => ⟨search, nofun, fun _ => rfl⟩

theorem insertIntervalTree_fails_iff (it : IntervalTree α) (search : Searchable Before it)
    (ival : Interval) (v : Pointer α) :
    Ensures Served (insertIntervalTree it ival v)
      (fun r _ => r.1 = false ↔ ∃ e ∈ inorder it, Overlaps e.ival ival) := by
  obtain ⟨low, high, slot, ⟨here, free⟩ | ⟨e, l, r, here, whole, overlap⟩⟩ :=
    reach_cases it search ival
  · have apart : ¬ ∃ e ∈ inorder it, Overlaps e.ival ival := by
      rintro ⟨e, he, overlap⟩
      exact between_apart slot e (free ▸ he) overlap
    simp only [insertIntervalTree, here, apart, iff_false]
    have made : Ensures Served (createIntervalTreeNode ival v) (fun r _ => r ≠ none) := by
      refine ensures_bind (allocate_served (by decide)) fun ok h hs => ?_
      obtain ⟨rfl, -⟩ := hs
      nofun
    refine ensures_bind made fun new => ?_
    cases new with
    | none => exact fun h hs => absurd rfl hs
    | some new => exact ensures_pure fun h _ => nofun
  · simp only [insertIntervalTree, here]
    refine ensures_pure fun h _ => ⟨fun _ => ⟨e, ?_, overlap⟩, fun _ => rfl⟩
    simp [whole]

theorem replaceIntervalTree_searchable (it : IntervalTree α) (search : Searchable Before it)
    (ival : Interval) (v : Pointer α) (freefxn : Bool) :
    Ensures (fun _ => True) (replaceIntervalTree it ival v freefxn)
      (fun r _ => Searchable Before r.2.1) := by
  obtain ⟨low, high, slot, ⟨here, free⟩ | ⟨e, l, r, here, whole, -⟩⟩ := reach_cases it search ival
  · simp only [replaceIntervalTree, here]
    refine ensures_bind (createIntervalTreeNode_spec ival v) fun new => ?_
    cases new with
    | none => exact ensures_pure fun h _ => search
    | some new =>
      refine ensures_pure fun h made => searchable_new search slot free v ?_
      rw [slot.fills, made new rfl]
      simp
  · simp only [replaceIntervalTree, here]
    refine ensures_ite (fun _ => ensures_pure fun h _ => ?_) (fun _ => ensures_pure fun h _ => search)
    refine searchable_of_ivals search ?_
    simp [slot.fills, whole]

@[simp] theorem inorder_spliceOutNode (l r : IntervalTree α) :
    inorder (spliceOutNode l r) = inorder l ++ inorder r := by
  cases l with
  | nil => rfl
  | node x a b =>
    cases r with
    | nil => simp [spliceOutNode]
    | node y c d => simp only [spliceOutNode, inorder_hangLeft]

/-- How taking out an interval ends. `out` is the data handed back for it. -/
structure TakesOut (it : IntervalTree α) (ival : Interval) (ok : Bool) (it' : IntervalTree α)
    (out : Option (Pointer α)) : Prop where
  search : Searchable Before it'
  found : ok = true ↔ ∃ e ∈ inorder it, e.ival = ival
  taken : ∀ e ∈ inorder it, e.ival = ival → (inorder it).Perm (e :: inorder it') ∧ out = some e.data
  missed : ok = false → it' = it ∧ out = none

theorem extractIntervalTree_takesOut (it : IntervalTree α) (search : Searchable Before it)
    (ival : Interval) :
    TakesOut it ival (extractIntervalTree it ival).1.isSome (extractIntervalTree it ival).2
      (extractIntervalTree it ival).1 := by
  obtain ⟨low, high, slot, ⟨here, free⟩ | ⟨e, l, r, here, whole, overlap⟩⟩ :=
    reach_cases it search ival
  · have apart : ∀ e ∈ inorder it, e.ival ≠ ival := by
      rintro e he rfl
      exact between_apart slot e (free ▸ he) (overlaps_self _)
    simp only [extractIntervalTree, here]
    exact ⟨search, by simpa using apart, fun e he same => absurd same (apart e he),
      fun _ => ⟨rfl, rfl⟩⟩
  · have stored : e ∈ inorder it := by simp [whole]
    have only : ∀ f ∈ inorder it, f.ival = ival → f = e := by
      rintro f hf rfl
      exact (stored_unique search stored hf overlap).symm
    simp only [extractIntervalTree, here]
    by_cases equal : e.ival = ival
    · rw [if_pos ((intervalsEqual_iff _ _).mpr equal)]
      have rest : inorder ((reach (side ival) it).fill (spliceOutNode l r)) =
          low ++ (inorder l ++ inorder r) ++ high := by
        rw [slot.fills, inorder_spliceOutNode]
      refine ⟨searchable_sublist search ?_, by simpa using ⟨e, stored, equal⟩, ?_, nofun⟩
      · rw [rest, whole]
        simp
      · intro f hf same
        obtain rfl := only f hf same
        refine ⟨?_, rfl⟩
        rw [rest, whole]
        simp only [List.append_assoc, List.cons_append]
        rw [← List.append_assoc, ← List.append_assoc]
        exact List.perm_middle
    · rw [if_neg fun h => equal ((intervalsEqual_iff _ _).mp h)]
      have apart : ∀ f ∈ inorder it, f.ival ≠ ival := fun f hf same =>
        equal (only f hf same ▸ same)
      exact ⟨search, by simpa using apart, fun f hf same => absurd same (apart f hf),
        fun _ => ⟨rfl, rfl⟩⟩

theorem removeIntervalTree_eq (it : IntervalTree α) (ival : Interval) (freefxn : Bool) :
    removeIntervalTree it ival freefxn =
      ((extractIntervalTree it ival).1.isSome, (extractIntervalTree it ival).2,
        ((extractIntervalTree it ival).1.map (freed freefxn)).getD []) := by
  unfold removeIntervalTree extractIntervalTree
  dsimp only
  cases (reach (side ival) it).here with
  | nil => rfl
  | node e l r => by_cases equal : intervalsEqual e.ival ival <;> simp [equal]

theorem keyInInterval_iff (i : Interval) (key : UInt32) :
    keyInInterval i key = true ↔ key ∈ i.keys := by
  simp [keyInInterval, Interval.keys]

theorem lookupIntervalTree_spec (it : IntervalTree α) (search : Searchable Before it)
    (key : UInt32) :
    (∃ e ∈ inorder it, key ∈ e.ival.keys ∧ lookupIntervalTree key it = e.data) ∨
      (∀ e ∈ inorder it, key ∉ e.ival.keys) ∧ lookupIntervalTree key it = none := by
  induction it with
  | nil => exact .inr ⟨by simp, rfl⟩
  | node x l r left right =>
    obtain ⟨below, above, searchL, searchR⟩ := search
    rw [lookupIntervalTree]
    by_cases here : key ∈ x.ival.keys
    · rw [if_pos ((keyInInterval_iff _ _).mpr here)]
      exact .inl ⟨x, by simp, here, rfl⟩
    · rw [if_neg fun h => here ((keyInInterval_iff _ _).mp h)]
      split_ifs with low
      · have elsewhere : ∀ y ∈ inorder r, key ∉ y.ival.keys := fun y hy inside =>
          UInt32.not_lt.mpr inside.1
            (UInt32.lt_trans low (UInt32.lt_of_le_of_lt x.ival.ordered (above y hy)))
        rcases left searchL with ⟨e, he, inside, found⟩ | ⟨nowhere, missed⟩
        · exact .inl ⟨e, by simp [he], inside, found⟩
        · refine .inr ⟨fun y hy => ?_, missed⟩
          rcases List.mem_append.mp hy with hy | hy
          · exact nowhere y hy
          · rcases List.mem_cons.mp hy with rfl | hy
            · exact here
            · exact elsewhere y hy
      · have elsewhere : ∀ y ∈ inorder l, key ∉ y.ival.keys := fun y hy inside =>
          low (UInt32.lt_of_le_of_lt inside.2 (below y hy))
        rcases right searchR with ⟨e, he, inside, found⟩ | ⟨nowhere, missed⟩
        · exact .inl ⟨e, by simp [he], inside, found⟩
        · refine .inr ⟨fun y hy => ?_, missed⟩
          rcases List.mem_append.mp hy with hy | hy
          · exact elsewhere y hy
          · rcases List.mem_cons.mp hy with rfl | hy
            · exact here
            · exact nowhere y hy

/-- The lookup finds the stored interval that holds the key, if there is one. -/
def LooksUp (it : IntervalTree α) : Prop := ∀ key,
  (∀ e ∈ inorder it, key ∈ e.ival.keys → lookupIntervalTree key it = e.data) ∧
    ((∀ e ∈ inorder it, key ∉ e.ival.keys) → lookupIntervalTree key it = none)

theorem searchable_looksUp {it : IntervalTree α} (search : Searchable Before it) : LooksUp it := by
  intro key
  rcases lookupIntervalTree_spec it search key with ⟨e, he, inside, found⟩ | ⟨nowhere, missed⟩
  · refine ⟨fun f hf inside' => ?_, fun nowhere => absurd inside (nowhere e he)⟩
    rwa [stored_unique search hf he ⟨key, inside', inside⟩]
  · exact ⟨fun f hf inside => absurd inside (nowhere f hf), fun _ => missed⟩

@[simp] theorem inorder_linearizeIntervalTree (it : IntervalTree α) :
    inorder (linearizeIntervalTree it) = inorder it := by
  induction it with
  | nil => rfl
  | node x l r left right => simp [linearizeIntervalTree, left, right]

theorem linear_linearizeIntervalTree (it : IntervalTree α) : Linear (linearizeIntervalTree it) := by
  induction it with
  | nil => trivial
  | node x l r left right => exact linear_hangRight left ⟨rfl, right⟩

theorem vectorizeList_linear (it : IntervalTree α) (linear : Linear it) :
    vectorizeList (inorder it).length it = inorder it := by
  induction it with
  | nil => rfl
  | node x l r left right =>
    obtain ⟨rfl, linear⟩ := linear
    simp [vectorizeList, right linear]

theorem bbstizeVector_eq (it : List (Entry α)) (count : ℕ) :
    bbstizeVector it count = bisect it count := by
  induction it, count using bbstizeVector.induct with
  | case1 it => simp [bbstizeVector, bisect]
  | case2 it count pos out => rw [bbstizeVector, bisect, if_neg pos, if_neg pos, out]
  | case3 it count pos ret middle left right =>
    rw [bbstizeVector, if_neg pos, bisect_some pos middle]
    simp only [middle, left, right]

theorem inorder_bbstizeVector (it : List (Entry α)) (count : ℕ) (enough : count ≤ it.length) :
    inorder (bbstizeVector it count) = it.take count := by
  rw [bbstizeVector_eq, inorder_bisect it count enough]

theorem populationIntervalTree_toNat (it : IntervalTree α) :
    (populationIntervalTree it).toNat = (inorder it).length % 2 ^ 32 := by
  induction it with
  | nil => rfl
  | node x l r left right =>
    simp only [populationIntervalTree, inorder_node, List.length_append, List.length_cons,
      UInt32.toNat_add, left, right, UInt32.reduceToNat]
    omega

theorem stored_length_le (it : IntervalTree α) (search : Searchable Before it) :
    (inorder it).length ≤ 2 ^ 32 := by
  have bounds : ((inorder it).map fun e => e.ival.lbound.toFin).Nodup := by
    rw [List.Nodup, List.pairwise_map]
    refine ((searchable_iff before_trans it).mp search).imp fun {e f} h same => ?_
    have lt := UInt32.lt_of_le_of_lt e.ival.ordered h
    rw [UInt32.toFin_inj.mp same] at lt
    exact UInt32.lt_irrefl _ lt
  simpa [UInt32.size] using bounds.length_le_card

/-- Balancing keeps the entries in their order. The population of a tree that
covers every key one by one comes out as 0, but then no vector is allocated. -/
theorem balanceIntervalTree_inorder (it : IntervalTree α) (search : Searchable Before it) :
    Ensures (fun _ => True) (balanceIntervalTree it) (fun r _ => inorder r = inorder it) := by
  have count := populationIntervalTree_toNat it
  have bound := stored_length_le it search
  have linear := inorder_linearizeIntervalTree it
  unfold balanceIntervalTree
  by_cases small : (inorder it).length < 2 ^ 32
  · rw [Nat.mod_eq_of_lt small] at count
    refine ensures_bind (ensures_true _) fun ok => ensures_ite (fun _ => ensures_pure fun h _ => ?_)
      (fun _ => ensures_pure fun h _ => linear)
    have vector := vectorizeList_linear _ (linear_linearizeIntervalTree it)
    rw [linear] at vector
    rw [count, vector, inorder_bbstizeVector _ _ le_rfl, List.take_length]
  · have full : (inorder it).length = 2 ^ 32 := by omega
    rw [count, full, Nat.mod_self]
    exact ensures_pure fun h _ => linear

inductive Call (α : Type) where
  | insert (ival : Interval) (v : Pointer α)
  | replace (ival : Interval) (v : Pointer α) (freefxn : Bool)
  | remove (ival : Interval) (freefxn : Bool)
  | extract (ival : Interval)
  | balance

def Call.run (it : IntervalTree α) : Call α → Request (Bool × IntervalTree α)
  | insert ival v => insertIntervalTree it ival v
  | replace ival v freefxn => do
    let (ok, it, _) ← replaceIntervalTree it ival v freefxn
    pure (ok, it)
  | remove ival freefxn =>
    let (ok, it, _) := removeIntervalTree it ival freefxn
    pure (ok, it)
  | extract ival =>
    let (v, it) := extractIntervalTree it ival
    pure (v.isSome, it)
  | balance => do
    let it ← balanceIntervalTree it
    pure (true, it)

theorem call_searchable (c : Call α) (it : IntervalTree α) (search : Searchable Before it) :
    Ensures (fun _ => True) (c.run it) (fun r _ => Searchable Before r.2) := by
  cases c with
  | insert ival v =>
    exact (insertIntervalTree_spec it search ival v).mono (fun _ h => h) fun _ _ h => h.1
  | replace ival v freefxn =>
    exact ensures_bind (replaceIntervalTree_searchable it search ival v freefxn)
      fun _ => ensures_pure fun _ h => h
  | remove ival freefxn =>
    refine ensures_pure fun h _ => ?_
    change Searchable Before (removeIntervalTree it ival freefxn).2.1
    rw [removeIntervalTree_eq]
    exact (extractIntervalTree_takesOut it search ival).search
  | extract ival => exact ensures_pure fun h _ => (extractIntervalTree_takesOut it search ival).search
  | balance =>
    refine ensures_bind (balanceIntervalTree_inorder it search) fun it' => ensures_pure fun h same => ?_
    exact searchable_of_ivals search (congrArg _ same)

theorem calls_searchable (calls : List (Call α)) (h : Heap) :
    Searchable Before (runAll Call.run .nil calls h).1 := by
  have each : ∀ (c : Call α) it, Ensures (fun _ => True ∧ Searchable Before it) (Call.run it c)
      (fun r _ => Searchable Before r.2) :=
    fun c it h now => call_searchable c it now.2 h trivial
  exact runAll_along each calls .nil h trivial (along_trivial _ _ _ _)

/-- After any run of calls from the empty tree, whatever memory they were given,
the tree is in search order, its intervals are disjoint, and every operation
does to the stored intervals exactly what it should. -/
theorem calls_exact (calls : List (Call α)) (h : Heap) :
    let it := (runAll Call.run .nil calls h).1
    Searchable Before it ∧
      (inorder it).Pairwise (fun e f => Disjoint e.ival.keys f.ival.keys) ∧
      LooksUp it ∧
      (∀ ival v h',
        let r := (insertIntervalTree it ival v h').1
        (r.1 = true → (inorder r.2).Perm (⟨ival, v⟩ :: inorder it)) ∧
          (r.1 = false → r.2 = it) ∧
          (Served h' → (r.1 = false ↔ ∃ e ∈ inorder it, Overlaps e.ival ival))) ∧
      (∀ ival,
        let r := extractIntervalTree it ival
        TakesOut it ival r.1.isSome r.2 r.1) ∧
      ∀ ival freefxn,
        let r := removeIntervalTree it ival freefxn
        ∃ out, TakesOut it ival r.1 r.2.1 out ∧ r.2.2 = (out.map (freed freefxn)).getD [] := by
  intro it
  have search : Searchable Before it := calls_searchable calls h
  refine ⟨search, ?_, searchable_looksUp search, fun ival v h' => ?_,
    extractIntervalTree_takesOut _ search, fun ival freefxn =>
      ⟨(extractIntervalTree it ival).1, ?_, ?_⟩⟩
  · refine ((searchable_iff before_trans _).mp search).imp fun apart => ?_
    exact Set.disjoint_left.mpr fun key inE inF => before_apart apart ⟨key, inE, inF⟩
  · obtain ⟨-, stored, unchanged⟩ := insertIntervalTree_spec _ search ival v h' trivial
    exact ⟨stored, unchanged, fun served => insertIntervalTree_fails_iff _ search ival v h' served⟩
  · rw [removeIntervalTree_eq]
    exact extractIntervalTree_takesOut _ search ival
  · rw [removeIntervalTree_eq]

end Libdank.Intervals
