import Libdank.Foundation.Walks
import Libdank.PatriciaTrie.Chains

/-! Which way leads to a node. The ways are written on the nodes beside the trie,
and the nodes that hold a key can all be reached along theirs. -/
namespace Libdank.PatriciaTrie.Pointers
open Requests Buffers SlabAllocator Walks

variable {w : ℕ} {α : Type} {place : ℕ → ℕ+} {fold : UInt8 → UInt8}

def Lrupat.next (lp : Lrupat w α) (a : ℕ) : UInt8 → Pointer ℕ := (lp.lpatnodes a).arr

def Lrupat.reach (lp : Lrupat w α) (q : Key) : Pointer ℕ := walk lp.next lp.nodes q

structure Linked (lp : Lrupat w α) (A : List ℕ) (path : ℕ → Key) : Prop where
  root : ∀ a ∈ lp.nodes, a ∈ A ∧ path a = []
  child : Labelled lp.next A path

/-- The nodes with a key: those with more than the end of one have no children,
and all are within reach. -/
structure Holders (lp : Lrupat w α) (A : List ℕ) (path : ℕ → Key) : Prop where
  leaf : ∀ a ∈ A, ∀ c p, (lp.lpatnodes a).patstr = some (c :: p) → ∀ x, lp.next a x = none
  reached : ∀ a ∈ A, (lp.lpatnodes a).patstr ≠ none → lp.reach (path a) = some a

structure Inner (lp : Lrupat w α) (A : List ℕ) (path : ℕ → Key) (a : ℕ) : Prop where
  mem : a ∈ A
  reached : lp.reach (path a) = some a
  shallow : Shallow (lp.lpatnodes a).patstr

/-- What the place `slot` holds is reached along `q`. -/
def At (lp : Lrupat w α) (A : List ℕ) (path : ℕ → Key) : Slot → Key → Prop
  | .nodes, q => q = []
  | .arr a c, q => Inner lp A path a ∧ q = path a ++ [c]

variable {lp lp' : Lrupat w α} {A : List ℕ} {path : ℕ → Key} {slot : Slot} {q : Key}

theorem At.reach (located : At lp A path slot q) : lp.reach q = lp.follow slot := by
  cases slot with
  | nodes =>
    obtain rfl : q = [] := located
    exact walk_nil _
  | arr a c =>
    obtain ⟨inner, rfl⟩ := located
    have here := inner.reached
    rw [Lrupat.reach] at here ⊢
    rw [walk_append, here, walk, walk_nil]
    rfl

theorem At.label (linked : Linked lp A path) (located : At lp A path slot q) {b : ℕ}
    (here : lp.follow slot = some b) : b ∈ A ∧ path b = q := by
  cases slot with
  | nodes =>
    obtain rfl : q = [] := located
    exact linked.root b here
  | arr a c =>
    obtain ⟨inner, rfl⟩ := located
    exact linked.child a inner.mem c b here

theorem Holders.reach_leaf (holders : Holders lp A path) {a b : ℕ} (ha : a ∈ A) {p u : Key}
    (held : (lp.lpatnodes a).patstr = some p) (more : p ≠ [])
    (below : lp.reach (path a ++ u) = some b) : u = [] ∧ a = b := by
  have reached := holders.reached a ha (by simp [held])
  obtain ⟨c, p, rfl⟩ := List.exists_cons_of_ne_nil more
  rw [Lrupat.reach] at reached below
  rw [walk_append, reached] at below
  exact walk_leaf (holders.leaf a ha c p held) below

theorem At.below (holders : Holders lp A path) (located : At lp A path slot q) {b : ℕ}
    (hb : b ∈ A) {p rest : Key} (held : (lp.lpatnodes b).patstr = some p)
    (same : path b ++ p = q ++ rest) : ∃ u, path b = q ++ u ∧ u ++ p = rest := by
  rcases List.append_eq_append_iff.mp same with ⟨u, rfl, rfl⟩ | ⟨u, way, rfl⟩
  · rcases List.eq_nil_or_concat u with rfl | ⟨u, d, rfl⟩
    · exact ⟨[], by simp, by simp⟩
    · exfalso
      cases slot with
      | nodes => simp [At] at located
      | arr a c =>
        obtain ⟨inner, last⟩ := located
        have way : path b ++ u = path a := by
          rw [List.concat_eq_append, ← List.append_assoc] at last
          exact List.append_inj_left' last rfl
        have reached := inner.reached
        rw [← way] at reached
        obtain ⟨rfl, rfl⟩ := holders.reach_leaf hb held (by simp) reached
        have shallow := inner.shallow
        rw [held] at shallow
        simp [Shallow] at shallow
  · exact ⟨u, way, rfl⟩

theorem At.none_below (holders : Holders lp A path) (located : At lp A path slot q)
    (empty : lp.follow slot = none) {b : ℕ} (hb : b ∈ A) {p : Key}
    (held : (lp.lpatnodes b).patstr = some p) : ¬ q <+: path b := by
  rintro ⟨u, way⟩
  have reached := holders.reached b hb (by simp [held])
  have here := located.reach.trans empty
  rw [Lrupat.reach] at here reached
  rw [← way, walk_append, here, walk_none] at reached
  cases reached

theorem Inner.only (holders : Holders lp A path) {a b : ℕ} (inner : Inner lp A path a) (hb : b ∈ A)
    {p : Key} (held : (lp.lpatnodes b).patstr = some p) (same : path b ++ p = path a) :
    b = a ∧ p = [] := by
  have reached := inner.reached
  rw [← same] at reached
  by_cases more : p = []
  · subst more
    rw [List.append_nil, holders.reached b hb (by simp [held])] at reached
    exact ⟨Option.some.inj reached, rfl⟩
  · exact absurd (holders.reach_leaf hb held more reached).1 more

section Linking

@[simp] theorem link_patstr (x : Pointer ℕ) (slot : Slot) (lp : Lrupat w α) (a : ℕ) :
    ((lp.link x slot).lpatnodes a).patstr = (lp.lpatnodes a).patstr := by
  cases slot with
  | nodes => rfl
  | arr b c => by_cases here : a = b <;> simp [Lrupat.link, Lrupat.change, here]

@[simp] theorem link_obj (x : Pointer ℕ) (slot : Slot) (lp : Lrupat w α) (a : ℕ) :
    ((lp.link x slot).lpatnodes a).obj = (lp.lpatnodes a).obj := by
  cases slot with
  | nodes => rfl
  | arr b c => by_cases here : a = b <;> simp [Lrupat.link, Lrupat.change, here]

@[simp] theorem link_upkeep (x : Pointer ℕ) (slot : Slot) (lp : Lrupat w α) :
    (lp.link x slot).sl = lp.sl ∧ (lp.link x slot).nwatchcb = lp.nwatchcb ∧
      (lp.link x slot).watched = lp.watched := by
  cases slot <;> exact ⟨rfl, rfl, rfl⟩

@[simp] theorem follow_link (x : Pointer ℕ) (slot : Slot) (lp : Lrupat w α) :
    (lp.link x slot).follow slot = x := by
  cases slot with
  | nodes => rfl
  | arr a c => simp [Lrupat.link, Lrupat.change, Lrupat.follow]

theorem next_link (x : Pointer ℕ) (lp : Lrupat w α) (a : ℕ) (c : UInt8) :
    (lp.link x (.arr a c)).next =
      Function.update lp.next a (Function.update (lp.next a) c x) := by
  funext b
  by_cases here : b = a
  · subst here
    simp [Lrupat.link, Lrupat.change, Lrupat.next]
  · simp [Lrupat.link, Lrupat.change, Lrupat.next, here]

theorem next_link_of_ne (x : Pointer ℕ) (lp : Lrupat w α) {b : ℕ}
    (other : ∀ a c, slot = .arr a c → b ≠ a) : (lp.link x slot).next b = lp.next b := by
  cases slot with
  | nodes => rfl
  | arr a c => rw [next_link, Function.update_of_ne (other a c rfl)]

theorem next_change {f : Lpatnode α → Lpatnode α} (kept : ∀ node, (f node).arr = node.arr)
    (lp : Lrupat w α) (a : ℕ) : (lp.change a f).next = lp.next := by
  funext b
  by_cases here : b = a
  · subst here
    simp [Lrupat.change, Lrupat.next, kept]
  · simp [Lrupat.change, Lrupat.next, here]

theorem Linked.alike (linked : Linked lp A path) (alike : Alike A lp lp') : Linked lp' A path where
  root a ha := linked.root a (alike.nodes ▸ ha)
  child a ha c b hb := by
    rw [Lrupat.next, alike.lpatnodes a ha] at hb
    exact linked.child a ha c b hb

theorem Linked.reach_alike (linked : Linked lp A path) (alike : Alike A lp lp') (q : Key) :
    lp'.reach q = lp.reach q := by
  rw [Lrupat.reach, Lrupat.reach, alike.nodes]
  refine linked.child.walk_congr (fun a ha => ?_) (fun a ha => (linked.root a ha).1) q
  rw [Lrupat.next, Lrupat.next, alike.lpatnodes a ha]

theorem Holders.alike (holders : Holders lp A path) (linked : Linked lp A path)
    (alike : Alike A lp lp') : Holders lp' A path where
  leaf a ha c p held x := by
    rw [alike.lpatnodes a ha] at held
    rw [Lrupat.next, alike.lpatnodes a ha]
    exact holders.leaf a ha c p held x
  reached a ha held := by
    rw [alike.lpatnodes a ha] at held
    rw [linked.reach_alike alike]
    exact holders.reached a ha held

theorem Linked.cons (linked : Linked lp A path) {a : ℕ} (new : a ∉ A) {q : Key}
    (children : ∀ c, ∀ b ∈ lp.next a c, b ∈ A ∧ path b = q ++ [c]) :
    Linked lp (a :: A) (Function.update path a q) := by
  have old : ∀ b ∈ A, Function.update path a q b = path b := fun b hb =>
    update_of_mem hb new _ _
  refine ⟨fun b hb => ?_, fun b hb c d hd => ?_⟩
  · obtain ⟨mem, way⟩ := linked.root b hb
    exact ⟨List.mem_cons_of_mem a mem, (old b mem).trans way⟩
  · rcases List.mem_cons.mp hb with rfl | hb
    · obtain ⟨mem, way⟩ := children c d hd
      rw [Function.update_self]
      exact ⟨List.mem_cons_of_mem b mem, (old d mem).trans way⟩
    · obtain ⟨mem, way⟩ := linked.child b hb c d hd
      rw [old b hb]
      exact ⟨List.mem_cons_of_mem a mem, (old d mem).trans way⟩

theorem Linked.link (linked : Linked lp A path) (located : At lp A path slot q) {x : ℕ}
    (hx : x ∈ A) (way : path x = q) : Linked (lp.link (some x) slot) A path := by
  cases slot with
  | nodes =>
    obtain rfl : q = [] := located
    refine ⟨?_, linked.child⟩
    rintro a ⟨⟩
    exact ⟨hx, way⟩
  | arr a c =>
    obtain ⟨inner, rfl⟩ := located
    refine ⟨linked.root, fun b hb d e he => ?_⟩
    rw [next_link] at he
    by_cases here : b = a
    · subst here
      rw [Function.update_self] at he
      by_cases edge : d = c
      · subst edge
        rw [Function.update_self] at he
        cases he
        exact ⟨hx, way⟩
      · rw [Function.update_of_ne edge] at he
        exact linked.child b hb d e he
    · rw [Function.update_of_ne here] at he
      exact linked.child b hb d e he

theorem Linked.reach_link (linked : Linked lp A path) (located : At lp A path slot q)
    (x : Pointer ℕ) {r : Key} (away : ¬ q <+: r) : (lp.link x slot).reach r = lp.reach r := by
  cases slot with
  | nodes =>
    obtain rfl : q = [] := located
    exact absurd r.nil_prefix away
  | arr a c =>
    obtain ⟨-, rfl⟩ := located
    rw [Lrupat.reach, next_link]
    exact linked.child.walk_update x (r := []) linked.root away

theorem At.reach_link (linked : Linked lp A path) (located : At lp A path slot q) (x : Pointer ℕ) :
    (lp.link x slot).reach q = x := by
  cases slot with
  | nodes =>
    obtain rfl : q = [] := located
    exact walk_nil _
  | arr a c =>
    have same := located
    obtain ⟨inner, rfl⟩ := located
    have short : ¬ path a ++ [c] <+: path a := fun pre => by
      have := pre.length_le
      simp at this
    have reached := (linked.reach_link same x short).trans inner.reached
    rw [Lrupat.reach] at reached ⊢
    rw [walk_append, reached, walk, walk_nil, next_link]
    simp

end Linking

section Decay

variable {a last : ℕ} {suffix : Key} {bs : List ℕ}

theorem Chained.walk_eq {lpatnodes : ℕ → Lpatnode α} (chain : Chained fold lpatnodes a suffix bs last)
    {next : ℕ → UInt8 → Pointer ℕ} (same : ∀ b ∈ a :: bs, next b = (lpatnodes b).arr) :
    walk next (some a) (suffix.map fold) = some last := by
  induction chain with
  | last here => rfl
  | @cons a b c suffix bs last here rest ih =>
    have edge : next a (fold c) = some b := by simp [same a (by simp), here]
    rw [List.map_cons, walk, edge]
    exact ih fun d hd => same d (List.mem_cons_of_mem a hd)

theorem Chained.blank {lpatnodes : ℕ → Lpatnode α} (chain : Chained fold lpatnodes a suffix bs last) :
    ∀ b ∈ a :: bs, (lpatnodes b).obj = none ∧ (lpatnodes b).patstr = none := by
  induction chain with
  | last here => simp [here, Lpatnode.zeroed]
  | cons here rest ih =>
    refine List.forall_mem_cons.mpr ⟨?_, ih⟩
    simp [here]

theorem Chained.last_mem {lpatnodes : ℕ → Lpatnode α} (chain : Chained fold lpatnodes a suffix bs last) :
    last ∈ a :: bs ∧ (suffix ≠ [] → last ∈ bs) := by
  induction chain with
  | last here => simp
  | cons here rest ih => exact ⟨List.mem_cons_of_mem _ ih.1, fun _ => ih.1⟩

theorem Linked.chain (linked : Linked lp A path) (chain : Chained fold lp.lpatnodes a suffix bs last)
    (once : (a :: bs ++ A).Nodup) (q : Key) : ∃ path' : ℕ → Key, (∀ b ∈ A, path' b = path b) ∧
      path' a = q ∧ path' last = q ++ suffix.map fold ∧ Linked lp (a :: bs ++ A) path' := by
  induction chain generalizing q with
  | @last a here =>
    have new : a ∉ A := (List.nodup_cons.mp once).1
    refine ⟨Function.update path a q, fun b hb => ?_, Function.update_self .., ?_,
      linked.cons new fun c b hb => ?_⟩
    · exact update_of_mem hb new _ _
    · simp
    · rw [Lrupat.next, here] at hb
      cases hb
  | @cons a b c suffix bs last here rest ih =>
    obtain ⟨new, once'⟩ := List.nodup_cons.mp once
    obtain ⟨path', old, start, stop, linked'⟩ := ih once' (q ++ [fold c])
    have away : ∀ d ∈ b :: bs ++ A, Function.update path' a q d = path' d := fun d hd =>
      update_of_mem hd new _ _
    refine ⟨Function.update path' a q, fun d hd => ?_, Function.update_self .., ?_,
      linked'.cons new fun d e he => ?_⟩
    · rw [away d (List.mem_append_right _ hd), old d hd]
    · rw [away last (List.mem_append_left _ rest.last_mem.1), stop]
      simp
    · rw [Lrupat.next, here] at he
      by_cases same : d = fold c
      · subst same
        simp only [Function.update_self, Option.mem_def, Option.some.injEq] at he
        subst he
        exact ⟨by simp, start⟩
      · simp [same] at he

theorem At.keep (located : At lp A path slot q) {A' : List ℕ} {path' : ℕ → Key}
    (old : ∀ b ∈ A, b ∈ A' ∧ path' b = path b) (same : ∀ r, lp'.reach r = lp.reach r)
    (open' : ∀ b ∈ A, Shallow (lp.lpatnodes b).patstr → Shallow (lp'.lpatnodes b).patstr) :
    At lp' A' path' slot q := by
  cases slot with
  | nodes => exact located
  | arr a c =>
    obtain ⟨inner, rfl⟩ := located
    obtain ⟨mem, way⟩ := old a inner.mem
    refine ⟨⟨mem, ?_, open' a inner.mem inner.shallow⟩, by rw [way]⟩
    rw [way, same, inner.reached]

theorem change_lpatnodes (lp : Lrupat w α) (a : ℕ) (f : Lpatnode α → Lpatnode α) (b : ℕ) :
    (lp.change a f).lpatnodes b = if b = a then f (lp.lpatnodes a) else lp.lpatnodes b :=
  Function.update_apply ..

theorem emptied_next (lp : Lrupat w α) (tail last : ℕ) :
    (lp.emptied tail last).next = lp.next := by
  rw [Lrupat.emptied, next_change, next_change]
  · exact fun _ => rfl
  · exact fun _ => rfl

theorem emptied_patstr (lp : Lrupat w α) (tail last b : ℕ) :
    ((lp.emptied tail last).lpatnodes b).patstr =
      if b = tail then none else if b = last then some [] else (lp.lpatnodes b).patstr := by
  simp only [Lrupat.emptied, change_lpatnodes]
  split_ifs <;> rfl

theorem emptied_obj (lp : Lrupat w α) (tail last b : ℕ) :
    ((lp.emptied tail last).lpatnodes b).obj = if b = tail then none
      else if b = last then (lp.lpatnodes tail).obj else (lp.lpatnodes b).obj := by
  simp only [Lrupat.emptied, change_lpatnodes]
  split_ifs <;> rfl

/-- The nodes with a key are those there were, but for the tail, whose key now
ends at the end of the chain. -/
theorem Chained.holder {lp₁ : Lrupat w α} {tail b : ℕ} {p : Key}
    (chain : Chained fold lp₁.lpatnodes a suffix bs last) (alike : Alike A lp lp₁)
    (hb : b ∈ a :: bs ++ A) (held : ((lp₁.emptied tail last).lpatnodes b).patstr = some p) :
    b = last ∧ p = [] ∨ b ∈ A ∧ b ≠ tail ∧ (lp.lpatnodes b).patstr = some p := by
  rw [emptied_patstr] at held
  split_ifs at held with isTail isLast
  · exact .inl ⟨isLast, (Option.some.inj held).symm⟩
  · rcases List.mem_append.mp hb with inChain | mem
    · rw [(chain.blank b inChain).2] at held
      cases held
    · rw [alike.lpatnodes b mem] at held
      exact .inr ⟨mem, isTail, held⟩

theorem Linked.decay {lp₁ : Lrupat w α} {tail : ℕ} {c : UInt8} (linked : Linked lp A path)
    (holders : Holders lp A path) (located : At lp A path slot q)
    (here : lp.follow slot = some tail) (held : (lp.lpatnodes tail).patstr = some (c :: suffix))
    (alike : Alike A lp lp₁) (chain : Chained fold lp₁.lpatnodes a (c :: suffix) bs last)
    (once : (a :: bs ++ A).Nodup) : ∃ path' : ℕ → Key, (∀ b ∈ A, path' b = path b) ∧
      path' last = q ++ (c :: suffix).map fold ∧
      Linked ((lp₁.emptied tail last).link (some a) slot) (a :: bs ++ A) path' ∧
      Holders ((lp₁.emptied tail last).link (some a) slot) (a :: bs ++ A) path' ∧
      Inner ((lp₁.emptied tail last).link (some a) slot) (a :: bs ++ A) path' a ∧ path' a = q := by
  obtain ⟨path', old, start, stop, linked₁⟩ := (linked.alike alike).chain chain once q
  have linked₂ : Linked (lp₁.emptied tail last) (a :: bs ++ A) path' :=
    ⟨linked₁.root, by rw [emptied_next]; exact linked₁.child⟩
  have reach : ∀ r, (lp₁.emptied tail last).reach r = lp.reach r := fun r => by
    rw [← linked.reach_alike alike, Lrupat.reach, emptied_next]
    rfl
  obtain ⟨tailMem, way⟩ := located.label linked here
  obtain ⟨new, once'⟩ := List.nodup_cons.mp once
  have lastMem : last ∈ bs := chain.last_mem.2 (List.cons_ne_nil _ _)
  have apart : ∀ b ∈ a :: bs, b ∉ A := fun b hb mem => by
    rcases List.mem_cons.mp hb with rfl | hb
    · exact new (List.mem_append_right _ mem)
    · exact List.disjoint_of_nodup_append once' hb mem
  have located₂ : At (lp₁.emptied tail last) (a :: bs ++ A) path' slot q := by
    refine located.keep (fun b hb => ⟨List.mem_append_right _ hb, old b hb⟩) reach ?_
    intro b hb shallow
    rw [emptied_patstr, alike.lpatnodes b hb]
    split_ifs
    · exact .inl rfl
    · exact .inr rfl
    · exact shallow
  have linked₃ := linked₂.link located₂ (by simp : a ∈ a :: bs ++ A) start
  refine ⟨path', old, stop, linked₃, ?_, ⟨by simp, ?_, ?_⟩, start⟩
  · refine ⟨fun b hb d p held' x => ?_, fun b hb held' => ?_⟩
    · rw [link_patstr] at held'
      obtain ⟨-, none⟩ | ⟨mem, -, before⟩ := chain.holder alike hb held'
      · cases none
      · rw [next_link_of_ne, emptied_next, Lrupat.next, alike.lpatnodes b mem]
        · exact holders.leaf b mem d p before x
        · rintro e f rfl rfl
          have shallow := located.1.shallow
          rw [before] at shallow
          simp [Shallow] at shallow
    · obtain ⟨p, held'⟩ := Option.ne_none_iff_exists'.mp held'
      rw [link_patstr] at held'
      obtain ⟨rfl, -⟩ | ⟨mem, other, before⟩ := chain.holder alike hb held'
      · have front := located₂.reach_link linked₂ (some a)
        rw [Lrupat.reach] at front
        rw [stop, Lrupat.reach, walk_append, front]
        refine chain.walk_eq fun d hd => ?_
        rw [next_link_of_ne, emptied_next, Lrupat.next]
        rintro e f rfl rfl
        exact apart d hd located.1.mem
      · have reached := holders.reached b mem (by simp [before])
        rw [linked₂.reach_link located₂, reach, old b mem, reached]
        rw [old b mem, ← way]
        rintro ⟨u, below⟩
        rw [← below] at reached
        exact other (holders.reach_leaf tailMem held (List.cons_ne_nil _ _) reached).2.symm
  · rw [start]
    exact located₂.reach_link linked₂ _
  · have blank := (chain.blank a (List.mem_cons_self ..)).2
    have notTail : a ≠ tail := (ne_of_mem_of_not_mem tailMem (apart a (by simp))).symm
    have notLast : a ≠ last := fun same => new (List.mem_append_left _ (same ▸ lastMem))
    rw [link_patstr, emptied_patstr, if_neg notTail, if_neg notLast, blank]
    exact .inl rfl

end Decay

theorem Linked.tail {lp₁ : Lrupat w α} {a : ℕ} {key : Key} {obj : Pointer α}
    (linked : Linked lp A path) (holders : Holders lp A path) (located : At lp A path slot q)
    (empty : lp.follow slot = none) (alike : Alike A lp lp₁) (new : a ∉ A)
    (here : lp₁.lpatnodes a = ⟨fun _ => none, obj, some key⟩) :
    Linked (lp₁.link (some a) slot) (a :: A) (Function.update path a q) ∧
      Holders (lp₁.link (some a) slot) (a :: A) (Function.update path a q) := by
  have old : ∀ b ∈ A, Function.update path a q b = path b := fun b hb =>
    update_of_mem hb new _ _
  have linked₁ : Linked lp₁ (a :: A) (Function.update path a q) :=
    (linked.alike alike).cons new fun c b hb => by
      rw [Lrupat.next, here] at hb
      cases hb
  have located₁ : At lp₁ (a :: A) (Function.update path a q) slot q := by
    refine located.keep (fun b hb => ⟨List.mem_cons_of_mem a hb, old b hb⟩)
      (linked.reach_alike alike) fun b hb => ?_
    rw [alike.lpatnodes b hb]
    exact id
  refine ⟨linked₁.link located₁ (List.mem_cons_self ..) (Function.update_self ..),
    fun b hb c p held x => ?_, fun b hb held => ?_⟩
  · rw [link_patstr] at held
    rw [next_link_of_ne]
    · rcases List.mem_cons.mp hb with rfl | hb
      · rw [Lrupat.next, here]
      · exact (holders.alike linked alike).leaf b hb c p held x
    · rintro e f rfl rfl
      have inner := located.1
      have shallow := inner.shallow
      rw [alike.lpatnodes b inner.mem] at held
      rw [held] at shallow
      simp [Shallow] at shallow
  · rw [link_patstr] at held
    rcases List.mem_cons.mp hb with rfl | hb
    · rw [Function.update_self]
      exact located₁.reach_link linked₁ _
    · obtain ⟨p, before⟩ := Option.ne_none_iff_exists'.mp held
      rw [alike.lpatnodes b hb] at before
      rw [old b hb, linked₁.reach_link located₁ _ (located.none_below holders empty hb before)]
      exact (holders.alike linked alike).reached b hb held

end Libdank.PatriciaTrie.Pointers
