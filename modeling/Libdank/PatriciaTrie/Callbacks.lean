import Libdank.PatriciaTrie.Paths
import Mathlib.Data.List.ReduceOption

/-! Which objects the callback is called on. An object that has been added lies
in one node of the allocator's stock until it is passed on, through decays,
overwritings and adds that fail, and the destruction passes on the rest. -/
namespace Libdank.PatriciaTrie.Pointers
open Requests Buffers SlabAllocator Walks

variable {w : ℕ} {α : Type} {place : ℕ → ℕ+} {fold : UInt8 → UInt8}

def Lrupat.objects (lp : Lrupat w α) (A : List ℕ) : List α :=
  A.filterMap fun a => (lp.lpatnodes a).obj

/-- The nodes hold, for each key, the object last stored under it; the others
have been passed on. -/
structure Filed (fold : UInt8 → UInt8) (lp : Lrupat w α) (A : List ℕ) (path : ℕ → Key)
    (stored : List (Key × Pointer α)) : Prop where
  blank : ∀ a ∈ A, (lp.lpatnodes a).patstr = none → (lp.lpatnodes a).obj = none
  folded : ∀ a ∈ A, ∀ p, (lp.lpatnodes a).patstr = some p → p.map fold = p
  entry : ∀ a ∈ A, ∀ p, (lp.lpatnodes a).patstr = some p →
    latest stored (path a ++ p) = some (lp.lpatnodes a).obj
  found : ∀ key, latest stored key ≠ none →
    ∃ a ∈ A, ∃ p, (lp.lpatnodes a).patstr = some p ∧ path a ++ p = key
  ledger : lp.nwatchcb = true → (lp.objects A ++ lp.watched.reduceOption).Perm (stored.map Prod.snd).reduceOption

variable {lp lp' lp₁ : Lrupat w α} {A B : List ℕ} {path path' : ℕ → Key} {slot : Slot} {q : Key}
  {stored : List (Key × Pointer α)}

theorem objects_congr (same : ∀ b ∈ B, (lp'.lpatnodes b).obj = (lp.lpatnodes b).obj) :
    lp'.objects B = lp.objects B := List.filterMap_congr same

theorem objects_cons (a : ℕ) (B : List ℕ) :
    lp.objects (a :: B) = (lp.lpatnodes a).obj.toList ++ lp.objects B := by
  cases here : (lp.lpatnodes a).obj <;> simp [Lrupat.objects, here]

theorem objects_pick (lp : Lrupat w α) {a : ℕ} (ha : a ∈ B) :
    (lp.objects B).Perm ((lp.lpatnodes a).obj.toList ++ lp.objects (B.erase a)) := by
  rw [← objects_cons]
  exact (List.perm_cons_erase ha).filterMap _

theorem Filed.perm (filed : Filed fold lp A path stored) (same : B.Perm A) :
    Filed fold lp B path stored where
  blank a ha := filed.blank a (same.mem_iff.mp ha)
  folded a ha := filed.folded a (same.mem_iff.mp ha)
  entry a ha := filed.entry a (same.mem_iff.mp ha)
  found key here := by
    obtain ⟨a, ha, rest⟩ := filed.found key here
    exact ⟨a, same.mem_iff.mpr ha, rest⟩
  ledger callback := ((same.filterMap _).append_right _).trans (filed.ledger callback)

theorem Filed.put (filed : Filed fold lp A path stored) {a : ℕ} {k p : Key} {obj : Pointer α}
    (rest : ∀ b ∈ B, b ∈ A ∧ path' b = path b ∧ (lp'.lpatnodes b).obj = (lp.lpatnodes b).obj ∧
      (lp'.lpatnodes b).patstr = (lp.lpatnodes b).patstr)
    (cover : ∀ b ∈ A, b ∈ B ∨ ∀ r, (lp.lpatnodes b).patstr = some r → path b ++ r = k)
    (only : ∀ b ∈ B, ∀ r, (lp.lpatnodes b).patstr = some r → path b ++ r ≠ k)
    (held : (lp'.lpatnodes a).patstr = some p) (way : path' a ++ p = k) (still : p.map fold = p)
    (here : (lp'.lpatnodes a).obj = obj)
    (ledger : lp'.nwatchcb = true → (lp'.objects (a :: B) ++ lp'.watched.reduceOption).Perm
      ((stored ++ [(k, obj)]).map Prod.snd).reduceOption) :
    Filed fold lp' (a :: B) path' (stored ++ [(k, obj)]) where
  blank := by
    refine List.forall_mem_cons.mpr ⟨fun none => ?_, fun b hb none => ?_⟩
    · rw [held] at none
      cases none
    · obtain ⟨mem, -, same, patstr⟩ := rest b hb
      rw [same]
      exact filed.blank b mem (patstr ▸ none)
  folded := by
    refine List.forall_mem_cons.mpr ⟨fun r held' => ?_, fun b hb r held' => ?_⟩
    · rw [held] at held'
      exact Option.some.inj held' ▸ still
    · obtain ⟨mem, -, -, patstr⟩ := rest b hb
      exact filed.folded b mem r (patstr ▸ held')
  entry := by
    refine List.forall_mem_cons.mpr ⟨fun r held' => ?_, fun b hb r held' => ?_⟩
    · rw [held] at held'
      cases held'
      rw [latest_append, if_pos way, here]
    · obtain ⟨mem, way', same, patstr⟩ := rest b hb
      rw [patstr] at held'
      rw [way', latest_append, if_neg (only b hb r held'), same]
      exact filed.entry b mem r held'
  found key stored' := by
    by_cases new : key = k
    · exact ⟨a, List.mem_cons_self .., p, held, way.trans new.symm⟩
    · rw [latest_append, if_neg new] at stored'
      obtain ⟨b, mem, r, held', rfl⟩ := filed.found key stored'
      rcases cover b mem with hb | own
      · obtain ⟨-, way', -, patstr⟩ := rest b hb
        exact ⟨b, List.mem_cons_of_mem a hb, r, patstr.trans held', by rw [way']⟩
      · exact absurd (own r held') new
  ledger := ledger

theorem Filed.alike (filed : Filed fold lp A path stored) (alike : Alike A lp lp') :
    Filed fold lp' A path stored where
  blank a ha := by
    rw [alike.lpatnodes a ha]
    exact filed.blank a ha
  folded a ha := by
    rw [alike.lpatnodes a ha]
    exact filed.folded a ha
  entry a ha := by
    rw [alike.lpatnodes a ha]
    exact filed.entry a ha
  found key here := by
    obtain ⟨a, ha, p, held, way⟩ := filed.found key here
    exact ⟨a, ha, p, by rw [alike.lpatnodes a ha, held], way⟩
  ledger callback := by
    have same : lp'.objects A = lp.objects A :=
      objects_congr fun b hb => by rw [alike.lpatnodes b hb]
    rw [same, alike.watched]
    exact filed.ledger (alike.nwatchcb ▸ callback)

theorem ledger_append {O O' W S : List α} (old obj : Pointer α)
    (ledger : (O ++ W).Perm S) (picked : O.Perm (old.toList ++ O')) :
    (obj.toList ++ O' ++ (W ++ old.toList)).Perm (S ++ obj.toList) := by
  refine .trans ?_ (ledger.append_right _)
  refine .trans ?_ ((picked.append_right W).append_right _).symm
  rw [← Multiset.coe_eq_coe]
  simp only [← Multiset.coe_add]
  abel

theorem settle_lpatnodes (lp : Lrupat w α) (a : ℕ) (obj : Pointer α) (b : ℕ) :
    (lp.settle a obj).lpatnodes b =
      if b = a then { lp.lpatnodes a with patstr := some [], obj } else lp.lpatnodes b :=
  change_lpatnodes lp a (fun node => { node with patstr := some [], obj }) b

theorem Filed.at_inner (filed : Filed fold lp A path stored) (holders : Holders lp A path) {a : ℕ}
    (inner : Inner lp A path a) : latest stored (path a) =
      if (lp.lpatnodes a).patstr = some [] then some (lp.lpatnodes a).obj else none := by
  split_ifs with empty
  · have known := filed.entry a inner.mem [] empty
    rwa [List.append_nil] at known
  · by_contra known
    obtain ⟨b, hb, p, held, same⟩ := filed.found _ known
    obtain ⟨rfl, rfl⟩ := inner.only holders hb held same
    exact empty held

theorem Filed.settle_watched (filed : Filed fold lp A path stored) (holders : Holders lp A path)
    {a : ℕ} (inner : Inner lp A path a) (callback : lp.nwatchcb = true) (obj : Pointer α) :
    (lp.settle a obj).watched = lp.watched ++ (latest stored (path a)).toList ∧
      (lp.settle a obj).watched.reduceOption =
        lp.watched.reduceOption ++ (lp.lpatnodes a).obj.toList := by
  have known := filed.at_inner holders inner
  unfold Lrupat.settle
  rcases inner.shallow with none | empty
  · simp [none, known, filed.blank a inner.mem none]
  · simp [empty, callback, known, List.reduceOption_append, List.reduceOption_singleton]

theorem Filed.settle (filed : Filed fold lp A path stored) (holders : Holders lp A path)
    (once : A.Nodup) {a : ℕ} (inner : Inner lp A path a) (obj : Pointer α) :
    Filed fold (lp.settle a obj) A path (stored ++ [(path a, obj)]) := by
  refine Filed.perm (filed.put (B := A.erase a) (p := []) (a := a) (fun b hb => ?_) (fun b hb => ?_)
    (fun b hb r held same => ?_) ?_ (List.append_nil _) rfl ?_ fun callback => ?_) (List.perm_cons_erase inner.mem)
  · obtain ⟨ne, mem⟩ := once.mem_erase_iff.mp hb
    simp [settle_lpatnodes, ne, mem]
  · by_cases same : b = a
    · subst same
      refine .inr fun r held => ?_
      rcases inner.shallow with none | empty
      · rw [none] at held
        cases held
      · rw [empty] at held
        cases held
        exact List.append_nil _
    · exact .inl (once.mem_erase_iff.mpr ⟨same, hb⟩)
  · obtain ⟨ne, mem⟩ := once.mem_erase_iff.mp hb
    exact ne (inner.only holders mem held same).1
  · simp [settle_lpatnodes]
  · simp [settle_lpatnodes]
  · have others : (lp.settle a obj).objects (A.erase a) = lp.objects (A.erase a) :=
      objects_congr fun b hb => by simp [settle_lpatnodes, (once.mem_erase_iff.mp hb).1]
    have here : ((lp.settle a obj).lpatnodes a).obj = obj := by simp [settle_lpatnodes]
    rw [objects_cons, others, here, (filed.settle_watched holders inner callback obj).2]
    rw [List.map_append, List.reduceOption_append]
    exact (ledger_append _ _ (filed.ledger callback) (objects_pick lp inner.mem)).trans
      (.of_eq (congrArg _ (List.reduceOption_singleton obj).symm))

theorem Filed.none_below (filed : Filed fold lp A path stored) (holders : Holders lp A path)
    {slot : Slot} {q : Key} (located : At lp A path slot q) (empty : lp.follow slot = none)
    (s : Key) : latest stored (q ++ s) = none := by
  by_contra known
  obtain ⟨b, hb, p, held, same⟩ := filed.found _ known
  obtain ⟨u, way, -⟩ := located.below holders hb held same
  exact located.none_below holders empty hb held ⟨u, way.symm⟩

theorem Filed.tail (filed : Filed fold lp A path stored) (holders : Holders lp A path)
    (located : At lp A path slot q) (empty : lp.follow slot = none) {a : ℕ} {key : Key}
    {obj : Pointer α} (alike : Alike A lp lp₁) (new : a ∉ A) (still : key.map fold = key)
    (here : lp₁.lpatnodes a = ⟨fun _ => none, obj, some key⟩) :
    Filed fold (lp₁.link (some a) slot) (a :: A) (Function.update path a q)
        (stored ++ [(q ++ key, obj)]) ∧ latest stored (q ++ key) = none := by
  have unknown := filed.none_below holders located empty key
  have only : ∀ b ∈ A, ∀ r, (lp.lpatnodes b).patstr = some r → path b ++ r ≠ q ++ key := by
    intro b hb r held same
    rw [← same, filed.entry b hb r held] at unknown
    cases unknown
  have old : ∀ b ∈ A, Function.update path a q b = path b := fun b hb =>
    update_of_mem hb new _ _
  refine ⟨filed.put (p := key) (fun b hb => ?_) (fun b hb => .inl hb) only ?_ ?_ still ?_
    fun callback => ?_, unknown⟩
  · rw [link_obj, link_patstr, alike.lpatnodes b hb]
    exact ⟨hb, old b hb, rfl, rfl⟩
  · rw [link_patstr, here]
  · rw [Function.update_self]
  · rw [link_obj, here]
  · have others : (lp₁.link (some a) slot).objects A = lp.objects A :=
      objects_congr fun b hb => by rw [link_obj, alike.lpatnodes b hb]
    rw [objects_cons, others, link_obj, here, (link_upkeep _ _ _).2.2, alike.watched,
      List.map_append, List.reduceOption_append]
    rw [(link_upkeep _ _ _).2.1, alike.nwatchcb] at callback
    have moved := ledger_append none obj (filed.ledger callback) (.refl _)
    rw [Option.toList_none, List.append_nil] at moved
    exact moved.trans (.of_eq (congrArg _ (List.reduceOption_singleton obj).symm))

theorem objects_decay {tail a last : ℕ} {suffix : Key} {bs : List ℕ} (ha : tail ∈ A)
    (alike : Alike A lp lp₁) (chain : Chained fold lp₁.lpatnodes a suffix bs last)
    (once : (a :: bs ++ A).Nodup) (slot : Slot) :
    (((lp₁.emptied tail last).link (some a) slot).objects (a :: bs ++ A)).Perm (lp.objects A) := by
  have lastMem := chain.last_mem.1
  obtain ⟨onceChain, onceA, apart⟩ := List.nodup_append.mp once
  have ne : ∀ b ∈ A, b ≠ last := fun b hb same => apart last lastMem b hb same.symm
  have obj : ∀ b, (((lp₁.emptied tail last).link (some a) slot).lpatnodes b).obj = _ := fun b =>
    (link_obj ..).trans (emptied_obj ..)
  have atLast := obj last
  rw [if_neg (ne tail ha).symm, if_pos rfl, alike.lpatnodes tail ha] at atLast
  have others : ((lp₁.emptied tail last).link (some a) slot).objects ((a :: bs).erase last) = [] := by
    refine List.filterMap_eq_nil_iff.mpr fun b hb => ?_
    obtain ⟨other, mem⟩ := onceChain.mem_erase_iff.mp hb
    rw [obj, if_neg other, (chain.blank b mem).1, ite_self]
  have atTail := obj tail
  rw [if_pos rfl] at atTail
  have kept : ((lp₁.emptied tail last).link (some a) slot).objects (A.erase tail) =
      lp.objects (A.erase tail) := objects_congr fun b hb => by
    obtain ⟨other, mem⟩ := onceA.mem_erase_iff.mp hb
    rw [obj, if_neg other, if_neg (ne b mem), alike.lpatnodes b mem]
  have inChain := objects_pick ((lp₁.emptied tail last).link (some a) slot) lastMem
  have inA := objects_pick ((lp₁.emptied tail last).link (some a) slot) ha
  rw [atLast, others, List.append_nil] at inChain
  rw [atTail, kept, Option.toList_none, List.nil_append] at inA
  rw [Lrupat.objects, List.filterMap_append]
  exact (inChain.append inA).trans (objects_pick lp ha).symm

/-- A decayed tail leaves its object at the end of the chain. -/
theorem Filed.decay (filed : Filed fold lp A path stored) (slot : Slot) {tail a last : ℕ}
    {c : UInt8} {suffix : Key} {bs : List ℕ} (ha : tail ∈ A)
    (held : (lp.lpatnodes tail).patstr = some (c :: suffix)) (alike : Alike A lp lp₁)
    (chain : Chained fold lp₁.lpatnodes a (c :: suffix) bs last) (once : (a :: bs ++ A).Nodup)
    (old : ∀ b ∈ A, path' b = path b) (stop : path' last = path tail ++ (c :: suffix).map fold) :
    Filed fold ((lp₁.emptied tail last).link (some a) slot) (a :: bs ++ A) path' stored := by
  have lastMem := chain.last_mem.1
  obtain ⟨onceChain, onceA, apart⟩ := List.nodup_append.mp once
  have ne : ∀ b ∈ A, b ≠ last := fun b hb same => apart last lastMem b hb same.symm
  have still := filed.folded tail ha _ held
  refine ⟨fun b hb none => ?_, fun b hb p held' => ?_, fun b hb p held' => ?_, fun key here => ?_,
    fun callback => ?_⟩
  · rw [link_patstr, emptied_patstr] at none
    rw [link_obj, emptied_obj]
    split_ifs at none ⊢ with isTail isLast
    · rfl
    · rcases List.mem_append.mp hb with inChain | mem
      · exact (chain.blank b inChain).1
      · rw [alike.lpatnodes b mem] at none ⊢
        exact filed.blank b mem none
  · rw [link_patstr] at held'
    obtain ⟨-, rfl⟩ | ⟨mem, -, before⟩ := chain.holder alike hb held'
    · rfl
    · exact filed.folded b mem p before
  · rw [link_patstr] at held'
    rw [link_obj, emptied_obj]
    obtain ⟨rfl, rfl⟩ | ⟨mem, other, before⟩ := chain.holder alike hb held'
    · rw [if_neg (ne tail ha).symm, if_pos rfl, alike.lpatnodes tail ha, stop, still, List.append_nil]
      exact filed.entry tail ha _ held
    · rw [if_neg other, if_neg (ne b mem), alike.lpatnodes b mem, old b mem]
      exact filed.entry b mem p before
  · obtain ⟨b, hb, p, held', way⟩ := filed.found key here
    by_cases same : b = tail
    · subst same
      rw [held] at held'
      cases held'
      refine ⟨last, List.mem_append_left _ lastMem, [], ?_, ?_⟩
      · rw [link_patstr, emptied_patstr, if_neg (ne b hb).symm, if_pos rfl]
      · rw [stop, still, List.append_nil, way]
    · refine ⟨b, List.mem_append_right _ hb, p, ?_, by rw [old b hb, way]⟩
      rw [link_patstr, emptied_patstr, if_neg same, if_neg (ne b hb), alike.lpatnodes b hb, held']
  · rw [(link_upkeep _ _ _).2.1] at callback
    rw [(link_upkeep _ _ _).2.2]
    refine (List.Perm.append_right _ ?_).trans
      (alike.watched ▸ filed.ledger (alike.nwatchcb ▸ callback))
    exact objects_decay ha alike chain once slot

structure Kept (place : ℕ → ℕ+) (fold : UInt8 → UInt8) (lp : Lrupat w α) (A : List ℕ)
    (path : ℕ → Key) (stored : List (Key × Pointer α)) : Prop where
  stocked : Stock place lp A
  linked : Linked lp A path
  holders : Holders lp A path
  filed : Filed fold lp A path stored

theorem Kept.alike (kept : Kept place fold lp A path stored) (stocked : Stock place lp' A)
    (alike : Alike A lp lp') : Kept place fold lp' A path stored where
  stocked := stocked
  linked := kept.linked.alike alike
  holders := kept.holders.alike kept.linked alike
  filed := kept.filed.alike alike

theorem Kept.settle (kept : Kept place fold lp A path stored) {a : ℕ} (inner : Inner lp A path a)
    (obj : Pointer α) : Kept place fold (lp.settle a obj) A path (stored ++ [(path a, obj)]) := by
  have next : (lp.settle a obj).next = lp.next :=
    next_change (f := fun node => { node with patstr := some [], obj }) (fun _ => rfl) lp a
  have reach : ∀ r, (lp.settle a obj).reach r = lp.reach r := fun r => by
    rw [Lrupat.reach, next]
    rfl
  refine ⟨kept.stocked.write inner.mem _, ⟨kept.linked.root, next ▸ kept.linked.child⟩,
    ⟨fun b hb c p held x => ?_, fun b hb held => ?_⟩,
    kept.filed.settle kept.holders kept.stocked.nodup inner obj⟩
  · rw [settle_lpatnodes] at held
    split_ifs at held
    · cases held
    · rw [next]
      exact kept.holders.leaf b hb c p held x
  · rw [reach]
    rw [settle_lpatnodes] at held
    split_ifs at held with here
    · exact here ▸ inner.reached
    · exact kept.holders.reached b hb held

def Adds (place : ℕ → ℕ+) (fold : UInt8 → UInt8) (stored : List (Key × Pointer α)) (key : Key)
    (obj : Pointer α) (lp : Lrupat w α) (ok : Bool) (lp' : Lrupat w α) : Prop :=
  ∃ A path, Kept place fold lp' A path (stored ++ if ok then [(key, obj)] else []) ∧
    lp'.nwatchcb = lp.nwatchcb ∧ (lp.nwatchcb = true →
      lp'.watched = lp.watched ++ if ok then (latest stored key).toList else [])

theorem adds_refused {key : Key} {obj : Pointer α} (kept : Kept place fold lp' A path stored)
    (still : lp'.nwatchcb = lp.nwatchcb ∧ lp'.watched = lp.watched) :
    Adds place fold stored key obj lp false lp' :=
  ⟨A, path, (List.append_nil stored).symm ▸ kept, still.1,
    fun _ => still.2.trans (List.append_nil _).symm⟩

theorem Alike.link_none (alike : Alike A lp lp₁) (located : At lp A path slot q)
    (empty : lp.follow slot = none) : Alike A lp (lp₁.link none slot) := by
  cases slot with
  | nodes => exact ⟨empty.symm, alike.nwatchcb, alike.watched, alike.lpatnodes⟩
  | arr a c =>
    refine ⟨alike.nodes, alike.nwatchcb, alike.watched, fun b hb => ?_⟩
    rw [Lrupat.link, change_lpatnodes]
    split_ifs with here
    · subst here
      have still : Function.update (lp.lpatnodes b).arr c none = (lp.lpatnodes b).arr :=
        Function.update_eq_self_iff.mpr empty.symm
      rw [alike.lpatnodes b hb, still]
    · exact alike.lpatnodes b hb

section Adds
variable [Leftover ℕ]

theorem makeRoom_guarded (slot : Slot) (node : ℕ) :
    Guarded Lrupat.Clear (makeRoom place fold slot node) fun (lp : Lrupat w α) ok lp' =>
      ∀ A path stored q, Kept place fold lp A path stored → At lp A path slot q →
        lp.follow slot = some node →
          (lp'.nwatchcb = lp.nwatchcb ∧ lp'.watched = lp.watched) ∧ ∃ A' path',
          Kept place fold lp' A' path' stored ∧
            (ok = true → ∃ a, lp'.follow slot = some a ∧ Inner lp' A' path' a ∧ path' a = q) := by
  refine guarded_get fun lp => ?_
  split
  · rename_i c suffix held
    refine (decayLrupatTail_guarded slot node).imp fun lp₁ ok lp' decayed same A path stored q kept
      located here => ?_
    subst same
    rcases decayed A kept.stocked with ⟨rfl, stocked, alike⟩ |
      ⟨rfl, lp₂, head, c', suffix', bs, last, held', chain, stocked, alike, rfl⟩
    · exact ⟨⟨alike.nwatchcb, alike.watched⟩, A, path, kept.alike stocked alike, by simp⟩
    · obtain ⟨mem, way⟩ := located.label kept.linked here
      have once := stocked.nodup
      obtain ⟨path', old, stop, linked, holders, inner, start⟩ :=
        kept.linked.decay kept.holders located here held' alike chain once
      have filed := kept.filed.decay slot mem held' alike chain once old (way ▸ stop)
      obtain ⟨-, nwatchcb, watched⟩ := link_upkeep (some head) slot (lp₂.emptied node last)
      have inChain : last ∈ head :: bs ++ A := List.mem_append_left _ chain.last_mem.1
      have emptied : Stock place (lp₂.emptied node last) (head :: bs ++ A) :=
        (stocked.change inChain _).change (List.mem_append_right _ mem) _
      refine ⟨⟨nwatchcb.trans alike.nwatchcb, watched.trans alike.watched⟩, head :: bs ++ A, path',
        ⟨emptied.link (fun b d at_ => ?_) _, linked, holders, filed⟩,
        fun _ => ⟨head, follow_link .., inner, start⟩⟩
      subst at_
      exact List.mem_append_right _ located.1.mem
  · rename_i short
    refine guarded_pure fun lp' same A path stored q kept located here => ?_
    subst same
    obtain ⟨mem, way⟩ := located.label kept.linked here
    refine ⟨⟨rfl, rfl⟩, A, path, kept, fun _ => ⟨node, here, ⟨mem, ?_, ?_⟩, way⟩⟩
    · rw [way, located.reach, here]
    · match held : (lp'.lpatnodes node).patstr with
      | none => exact .inl rfl
      | some [] => exact .inr rfl
      | some (c :: p) => exact absurd held (short c p)

theorem addTail_guarded (idem : ∀ c, fold (fold c) = fold c) (obj : Pointer α) (key : Key)
    (slot : Slot) : Guarded Lrupat.Clear (addTail place fold obj key slot)
      fun (lp : Lrupat w α) ok lp' => ∀ A path stored q, Kept place fold lp A path stored →
        At lp A path slot q → lp.follow slot = none →
          Adds place fold stored (q ++ key.map fold) obj lp ok lp' := by
  refine guarded_bind (lpatchainNew_guarded key obj) fun lp lpn => ?_
  refine guarded_bind (guarded_modify (clear_link _ _)) fun lp₁ _ => ?_
  refine guarded_pure fun lp' linked new A path stored q kept located empty => ?_
  subst linked
  obtain ⟨stocked, alike, here⟩ := new A kept.stocked
  obtain ⟨-, nwatchcb, watched⟩ := link_upkeep lpn slot lp₁
  have outer : ∀ a c, slot = .arr a c → a ∈ A := by
    rintro a c rfl
    exact located.1.mem
  cases lpn with
  | none =>
    have still := alike.link_none located empty
    exact adds_refused (kept.alike (stocked.link outer _) still) ⟨still.nwatchcb, still.watched⟩
  | some a =>
    have once := (List.nodup_cons.mp stocked.nodup).1
    obtain ⟨linked, holders⟩ :=
      kept.linked.tail kept.holders located empty alike once (here a rfl)
    obtain ⟨filed, unknown⟩ :=
      kept.filed.tail kept.holders located empty alike once (by simp [idem]) (here a rfl)
    have stocked' := Stock.link stocked (fun b c at_ => List.mem_cons_of_mem a (outer b c at_)) (some a)
    refine ⟨a :: A, _, ⟨stocked', linked, holders, filed⟩, nwatchcb.trans alike.nwatchcb, fun _ => ?_⟩
    rw [watched, alike.watched, unknown]
    simp

def AddsAt (place : ℕ → ℕ+) (fold : UInt8 → UInt8) (key : Key) (obj : Pointer α) (slot : Slot)
    (lp : Lrupat w α) (ok : Bool) (lp' : Lrupat w α) : Prop :=
  ∀ A path stored q, Kept place fold lp A path stored → At lp A path slot q →
    Adds place fold stored (q ++ key.map fold) obj lp ok lp'

def AddsInner (place : ℕ → ℕ+) (fold : UInt8 → UInt8) (key : Key) (obj : Pointer α) (slot : Slot)
    (lp : Lrupat w α) (ok : Bool) (lp' : Lrupat w α) : Prop :=
  ∀ A path stored a, Kept place fold lp A path stored → lp.follow slot = some a →
    Inner lp A path a → Adds place fold stored (path a ++ key.map fold) obj lp ok lp'

theorem addTail_addsAt (idem : ∀ c, fold (fold c) = fold c) (obj : Pointer α) (key : Key)
    (empty : lp.follow slot = none) : Guarded Lrupat.Clear (addTail place fold obj key slot)
      fun t ok lp' => t = lp → AddsAt place fold key obj slot lp ok lp' := by
  refine (addTail_guarded idem obj key slot).imp fun t ok lp' added same A path stored q kept
    located => ?_
  subst same
  exact added A path stored q kept located empty

theorem makeRoom_addsAt {m : Upkept w α Bool} {node : ℕ} (here : lp.follow slot = some node)
    (key : Key) (obj : Pointer α)
    (rest : Guarded Lrupat.Clear m (AddsInner place fold key obj slot)) :
    Guarded Lrupat.Clear (do if ← makeRoom place fold slot node then m else pure false)
      fun t ok lp' => t = lp → AddsAt place fold key obj slot lp ok lp' := by
  refine guarded_bind (makeRoom_guarded slot node) fun t ok => ?_
  cases ok with
  | false =>
    refine guarded_pure fun lp' room same A path stored q kept located => ?_
    subst same
    obtain ⟨still, A', path', kept', -⟩ := room A path stored q kept located here
    exact adds_refused kept' still
  | true =>
    refine rest.imp fun lp₁ ok lp' adds room same A path stored q kept located => ?_
    subst same
    obtain ⟨⟨nwatchcb, watched⟩, A', path', kept', inside⟩ := room A path stored q kept located here
    obtain ⟨a, here', inner, rfl⟩ := inside rfl
    obtain ⟨A'', path'', kept'', same, passed⟩ := adds A' path' stored a kept' here' inner
    rw [nwatchcb] at same passed
    rw [watched] at passed
    exact ⟨A'', path'', kept'', same, passed⟩

theorem addLrupatHelper_guarded (idem : ∀ c, fold (fold c) = fold c) (obj : Pointer α) (key : Key)
    (slot : Slot) : Guarded Lrupat.Clear (addLrupatHelper place fold obj key slot)
      (AddsAt (w := w) place fold key obj slot) := by
  induction key generalizing slot with
  | nil =>
    rw [addLrupatHelper]
    refine guarded_get fun lp => ?_
    cases here : lp.follow slot with
    | none => exact addTail_addsAt idem obj [] here
    | some node =>
      refine guarded_bind (guarded_request _) fun t ok => ?_
      cases ok with
      | false =>
        refine guarded_pure fun lp' idle same A path stored q kept located => ?_
        subst idle same
        exact adds_refused kept ⟨rfl, rfl⟩
      | true =>
        refine Guarded.imp (makeRoom_addsAt here [] obj ?_) fun t ok lp' adds idle same =>
          adds (idle.trans same)
        refine guarded_bind (guarded_modify fun lp here => ?_) fun lp₁ _ => ?_
        · cases found : lp.follow slot <;> rw [found] at here <;> exact here
        refine guarded_pure fun lp' settled A path stored a kept found inner => ?_
        rw [found] at settled
        subst settled
        rw [List.map_nil, List.append_nil]
        exact ⟨A, path, kept.settle inner obj, rfl, fun callback =>
          (kept.filed.settle_watched kept.holders inner callback obj).1⟩
  | cons c rest ih =>
    rw [addLrupatHelper]
    refine guarded_get fun lp => ?_
    cases here : lp.follow slot with
    | none => exact addTail_addsAt idem obj (c :: rest) here
    | some node =>
      refine makeRoom_addsAt here (c :: rest) obj (guarded_get fun lp₁ => ?_)
      cases here' : lp₁.follow slot with
      | none =>
        refine guarded_pure fun lp' same A path stored a kept found inner => ?_
        rw [here'] at found
        cases found
      | some a =>
        refine (ih (.arr a (fold c))).imp fun t ok lp' below same A path stored a' kept found
          inner => ?_
        rw [here'] at found
        cases found
        subst same
        have added := below A path stored (path a ++ [fold c]) kept ⟨inner, rfl⟩
        rwa [List.append_assoc, List.singleton_append] at added

theorem addLrupat_guarded (key : Key) (obj : Pointer α) : Guarded Lrupat.Clear
    (addLrupat place key obj) fun (lp : Lrupat w α) ok lp' => ∀ A path stored,
      Kept place id lp A path stored → Adds place id stored key obj lp ok lp' := by
  have idem : ∀ c : UInt8, id (id c) = id c := fun _ => rfl
  refine (addLrupatHelper_guarded idem obj key .nodes).imp
    fun lp ok lp' added A path stored kept => ?_
  have adds := added A path stored [] kept rfl
  rwa [List.map_id, List.nil_append] at adds

end Adds

def succeeded (adds : List (Key × Pointer α)) (outcomes : List (Bool × List (Pointer α))) :
    List (Key × Pointer α) :=
  (adds.zip outcomes).filterMap fun x => if x.2.1 then some x.1 else none

theorem succeeded_cons (entry : Key × Pointer α) (ok : Bool) (passed : List (Pointer α))
    (adds : List (Key × Pointer α)) (outcomes : List (Bool × List (Pointer α))) :
    succeeded (entry :: adds) ((ok, passed) :: outcomes) =
      (if ok then [entry] else []) ++ succeeded adds outcomes := by
  cases ok <;> simp [succeeded]

theorem succeeded_objects (adds : List (Key × Pointer α)) (outcomes : List (Bool × List (Pointer α))) :
    (succeeded adds outcomes).map Prod.snd =
      ((adds.zip outcomes).filter fun x => x.2.1).map fun x => x.1.2 := by
  rw [succeeded]
  induction adds.zip outcomes with
  | nil => rfl
  | cons x zs ih => cases ok : x.2.1 <;> simp [ok, ih]

/-- An add passes on the object it overwrites and nothing else. -/
def PassesOverwritten (stored adds : List (Key × Pointer α))
    (outcomes : List (Bool × List (Pointer α))) : Prop :=
  ∀ (i : ℕ) (key : Key) (obj : Pointer α) (ok : Bool) (passed : List (Pointer α)),
    adds[i]? = some (key, obj) → outcomes[i]? = some (ok, passed) →
      passed = if ok then (latest (stored ++ succeeded (adds.take i) outcomes) key).toList else []

theorem addAll_guarded [Leftover ℕ] (adds : List (Key × Pointer α)) :
    Guarded Lrupat.Clear (addAll place adds) fun (lp : Lrupat w α) outcomes lp' => ∀ A path stored,
      Kept place id lp A path stored →
        (∃ A' path', Kept place id lp' A' path' (stored ++ succeeded adds outcomes)) ∧
          lp'.nwatchcb = lp.nwatchcb ∧ outcomes.length = adds.length ∧ (lp.nwatchcb = true →
            lp'.watched = lp.watched ++ outcomes.flatMap Prod.snd ∧
              PassesOverwritten stored adds outcomes) := by
  induction adds with
  | nil =>
    refine guarded_pure fun lp A path stored kept => ?_
    exact ⟨⟨A, path, by simpa [succeeded] using kept⟩, rfl, rfl, by simp [PassesOverwritten]⟩
  | cons entry rest ih =>
    obtain ⟨key, obj⟩ := entry
    refine guarded_get fun lp => ?_
    refine guarded_bind (addLrupat_guarded key obj) fun lp₁ ok => ?_
    refine guarded_get fun lp₂ => ?_
    refine guarded_bind ih fun lp₃ outcomes => ?_
    refine guarded_pure fun lp' later same added same' A path stored kept => ?_
    subst same same'
    obtain ⟨A₁, path₁, kept₁, still, passed⟩ := added A path stored kept
    obtain ⟨kept', still', length, passes⟩ := later A₁ path₁ _ kept₁
    refine ⟨?_, still'.trans still, congrArg (· + 1) length, fun callback => ?_⟩
    · rwa [succeeded_cons, ← List.append_assoc]
    · obtain ⟨watched, passes⟩ := passes (still.trans callback)
      rw [passed callback, List.drop_left]
      refine ⟨?_, fun i key' obj' ok' passed' => ?_⟩
      · rw [watched, passed callback, List.flatMap_cons, List.append_assoc]
      · cases i with
        | zero =>
          rintro ⟨⟩ ⟨⟩
          simp [succeeded]
        | succ i =>
          intro here outcome
          rw [List.take_succ_cons, succeeded_cons, ← List.append_assoc]
          exact passes i key' obj' ok' passed' here outcome

theorem freed_watched (objs : List ℕ) (lp : Lrupat w α) (callback : lp.nwatchcb = true) :
    (objs.foldl freeLpatnode lp).watched =
        lp.watched ++ objs.map (fun v => (lp.lpatnodes v).obj) ∧
      (objs.foldl freeLpatnode lp).sl = lp.sl := by
  induction objs generalizing lp with
  | nil => simp
  | cons v objs ih =>
    have same : ∀ b, ((freeLpatnode lp v).lpatnodes b).obj = (lp.lpatnodes b).obj := fun b => by
      have node : (freeLpatnode lp v).lpatnodes b = _ :=
        change_lpatnodes lp v (fun node => { node with patstr := none }) b
      rw [node]
      split_ifs with here
      · rw [here]
      · rfl
    obtain ⟨watched, sl⟩ := ih (freeLpatnode lp v) callback
    rw [List.foldl_cons, watched, List.map_congr_left fun b _ => same b]
    refine ⟨?_, sl⟩
    simp [freeLpatnode, callback]

theorem destroyed_perm {A : List ℕ} {path : ℕ → Key} {stored : List (Key × Pointer α)}
    {lp : Lrupat w α} (kept : Kept place fold lp A path stored) (callback : lp.nwatchcb = true) (h : Heap) :
    (∃ rest, (destroyLrupat lp h).1.1 = lp.watched ++ rest) ∧
      (destroyLrupat lp h).1.1.reduceOption.Perm (stored.map Prod.snd).reduceOption := by
  have watched : (destroyLrupat lp h).1.1 =
      lp.watched ++ lp.sl.visited.map fun v => (lp.lpatnodes v).obj := by
    rw [← (freed_watched _ lp callback).1, ← foreachVoidCore_eq]
    rfl
  refine ⟨⟨_, watched⟩, ?_⟩
  rw [watched, List.reduceOption_append]
  have walk : ((lp.sl.visited.map fun v => (lp.lpatnodes v).obj).reduceOption).Perm
      (lp.objects A) := by
    rw [List.reduceOption, List.filterMap_map]
    exact kept.stocked.stocked.visited_perm.1.filterMap _
  exact (List.perm_append_comm.trans (walk.append_right _)).trans (kept.filed.ledger callback)

theorem createLrupat_start {word : 32 ≤ w ∧ w ≤ 64} {pgsiz : Int32} {bytes : Bytes} {h : Heap}
    {lpatnodes : ℕ → Lpatnode α} {nwatchcb : Bool} {lp : Lrupat w α}
    (created : (createLrupat word pgsiz bytes lpatnodes nwatchcb h).1 = some lp) :
    ∃ l : Layout w, lp = ⟨none, .start l bytes, nwatchcb, lpatnodes, [], []⟩ := by
  unfold createLrupat at created
  rw [bind_apply] at created
  cases ok : (allocate 24 h).1 with
  | false =>
    rw [ok] at created
    cases created
  | true =>
    rw [ok, if_pos rfl, bind_apply] at created
    cases made : (createSlalloc word pgsiz bytes 2064 (allocate 24 h).2).1 with
    | none =>
      rw [made] at created
      cases created
    | some sl =>
      rw [made] at created
      obtain ⟨l, rfl⟩ := createSlalloc_start made
      cases created
      exact ⟨l, rfl⟩

theorem start_kept {l : Layout w} (apart : l.Apart place) (bytes : Bytes)
    (lpatnodes : ℕ → Lpatnode α) (nwatchcb : Bool) :
    Kept place fold (⟨none, .start l bytes, nwatchcb, lpatnodes, [], []⟩ : Lrupat w α) []
      (fun _ => []) [] where
  stocked := ⟨stocked_start apart bytes, fun _ ⟨_, lt, _⟩ => absurd lt (Nat.not_lt_zero _)⟩
  linked := ⟨by simp, by simp [Labelled]⟩
  holders := ⟨by simp, by simp⟩
  filed := ⟨by simp, by simp, by simp, by simp [latest], by simp [Lrupat.objects]⟩

theorem count_kept {β γ : Type} [BEq γ] [LawfulBEq γ] {zs : List β} {f : β → γ} {p : β → Bool}
    (distinct : (zs.map f).Nodup) {z : β} (hz : z ∈ zs) :
    ((zs.filter p).map f).count (f z) = if p z then 1 else 0 := by
  have once : ((zs.filter p).map f).Nodup := distinct.sublist (List.filter_sublist.map f)
  by_cases kept : p z = true
  · rw [if_pos kept]
    exact List.count_eq_one_of_mem once (List.mem_map_of_mem (List.mem_filter.mpr ⟨hz, kept⟩))
  · rw [if_neg kept]
    refine List.count_eq_zero.mpr fun mem => ?_
    obtain ⟨y, hy, same⟩ := List.mem_map.mp mem
    obtain ⟨mem, other⟩ := List.mem_filter.mp hy
    rw [List.inj_on_of_nodup_map distinct mem hz same] at other
    exact kept other

theorem count_reduceOption [DecidableEq α] (xs : List (Pointer α)) (x : α) :
    xs.count (some x) = xs.reduceOption.count x := List.count_filterMap.symm

section Runs
variable [Leftover ℕ] {word : 32 ≤ w ∧ w ≤ 64} {pgsiz : Int32} {bytes : Bytes}
  {lpatnodes : ℕ → Lpatnode α} {h₀ : Heap}

/-- What holds after any run of adds that was not refused the pages of a block. -/
theorem addAll_kept {nwatchcb : Bool} {lp : Lrupat w α}
    (created : (createLrupat word pgsiz bytes lpatnodes nwatchcb h₀).1 = some lp) (place : ℕ → ℕ+)
    (apart : ∀ b c, b ≠ c → place b + lp.sl.blockBytes ≤ place c ∨
      place c + lp.sl.blockBytes ≤ place b)
    (adds : List (Key × Pointer α)) (h : Heap) (granted : (addAll place adds lp h).1.2.Clear) :
    let run := addAll place adds lp h
    (∃ A path, Kept place id run.1.2 A path (succeeded adds run.1.1)) ∧
      run.1.2.nwatchcb = nwatchcb ∧ run.1.1.length = adds.length ∧ (nwatchcb = true →
        run.1.2.watched = run.1.1.flatMap Prod.snd ∧ PassesOverwritten [] adds run.1.1) := by
  obtain ⟨l, rfl⟩ := createLrupat_start created
  have disjoint : l.Apart place := by
    intro b c ne
    have away := apart b c ne
    rw [Layout.region, Layout.region, Set.Ico_disjoint_Ico]
    change place b + l.blockBytes ≤ place c ∨ place c + l.blockBytes ≤ place b at away
    omega
  obtain ⟨-, added⟩ := addAll_guarded adds _ h granted
  obtain ⟨kept, rest⟩ := added [] _ [] (start_kept disjoint bytes lpatnodes nwatchcb)
  exact ⟨kept, rest⟩

/-- Whatever requests fail, but those for the pages of a new block: what an add
passes on is the object stored under its key before, and by the end every object
whose add succeeded has been passed on once and no other at all. -/
theorem adds_passed_once [DecidableEq α] {lp : Lrupat w α}
    (created : (createLrupat word pgsiz bytes lpatnodes true h₀).1 = some lp)
    (place : ℕ → ℕ+) (apart : ∀ b c, b ≠ c → place b + lp.sl.blockBytes ≤ place c ∨
      place c + lp.sl.blockBytes ≤ place b)
    (adds : List (Key × Pointer α)) (live : ∀ entry ∈ adds, entry.2 ≠ none)
    (distinct : (adds.map Prod.snd).Nodup) (h : Heap)
    (granted : (addAll place adds lp h).1.2.Clear) :
    let run := addAll place adds lp h
    let watched := (destroyLrupat run.1.2 run.2).1.1
    run.1.1.length = adds.length ∧ (∃ rest, watched = run.1.1.flatMap Prod.snd ++ rest) ∧
      ∀ (i : ℕ) (key : Key) (obj : Pointer α) (ok : Bool) (passed : List (Pointer α)),
        adds[i]? = some (key, obj) → run.1.1[i]? = some (ok, passed) →
          passed = (if ok then (latest (succeeded (adds.take i) run.1.1) key).toList else []) ∧
            watched.count obj = if ok then 1 else 0 := by
  intro run all
  obtain ⟨⟨A, path, kept⟩, callback, length, watched⟩ :=
    addAll_kept created place apart adds h granted
  obtain ⟨watched, passes⟩ := watched rfl
  obtain ⟨⟨rest, last⟩, perm⟩ := destroyed_perm kept callback run.2
  refine ⟨length, ⟨rest, last.trans (watched ▸ rfl)⟩, fun i key obj ok passed here outcome => ?_⟩
  refine ⟨passes i key obj ok passed here outcome, ?_⟩
  have mem : ((key, obj), (ok, passed)) ∈ adds.zip run.1.1 :=
    List.mem_of_getElem? (List.getElem?_zip_eq_some.mpr ⟨here, outcome⟩)
  have names : ((adds.zip run.1.1).map fun x => x.1.2).Nodup := by
    have first : (adds.zip run.1.1).map Prod.fst = adds := List.map_fst_zip (by rw [length])
    rw [← first, List.map_map] at distinct
    exact distinct
  obtain ⟨x, rfl⟩ := Option.ne_none_iff_exists'.mp (live _ (List.mem_of_getElem? here))
  rw [count_reduceOption, perm.count_eq, ← count_reduceOption, succeeded_objects]
  exact count_kept names mem

end Runs

def nodeLayout (l : Layout w) (fits : 2064 ≤ l.pgsize) : Layout w :=
  { l with objsize := 2064, nonempty := by decide, fits }

/-- A trie just created, in memory where every node seems to lead to 131072. -/
def pageTrie : Lrupat 64 ℕ :=
  ⟨none, .start (nodeLayout twoToAPage (by decide)) fun _ => 0, true,
    fun _ => ⟨fun _ => some 131072, some 7, some []⟩, [], []⟩

theorem pageTrie_created : (createLrupat pageTrie.sl.layout.word 4096 (fun _ => 0)
    pageTrie.lpatnodes true ⟨[], false⟩).1 = some pageTrie := rfl

open scoped Unset

/-- The second add fails when its tail has been decayed already, and the last
overwrites the third. -/
theorem adds_passed_once_overwritten :
    let run := addAll (fun b => 1048576 * b.succPNat)
      [([97, 98], some 1), ([97], some 2), ([97], some 3), ([97], some 4)]
      pageTrie ⟨[true, true, true, true, true, true, false], false⟩
    let watched := (destroyLrupat run.1.2 run.2).1.1
    run.1.1 = [(true, []), (false, []), (true, []), (true, [some 3])] ∧
      watched.count (some 1) = 1 ∧ watched.count (some 2) = 0 ∧ watched.count (some 3) = 1 := by
  have size : pageTrie.sl.blockBytes = 262144 := by decide +kernel
  obtain ⟨-, -, each⟩ := adds_passed_once pageTrie_created (fun b => 1048576 * b.succPNat)
    (fun b c ne => by
      rw [size]
      simp only [PNat.mul_coe, Nat.succPNat_coe, PNat.val_ofNat]
      omega)
    [([97, 98], some 1), ([97], some 2), ([97], some 3), ([97], some 4)] (by decide) (by decide)
    ⟨[true, true, true, true, true, true, false], false⟩ (by decide +kernel)
  have outcomes : (addAll (fun b => 1048576 * b.succPNat)
      [([97, 98], some 1), ([97], some 2), ([97], some 3), ([97], some 4)]
      pageTrie ⟨[true, true, true, true, true, true, false], false⟩).1.1 =
    [(true, []), (false, []), (true, []), (true, [some 3])] := by decide +kernel
  rw [outcomes] at each
  exact ⟨outcomes, (each 0 [97, 98] (some 1) true [] rfl rfl).2, (each 1 [97] (some 2) false [] rfl rfl).2,
    (each 2 [97] (some 3) true [] rfl rfl).2⟩

/-- The first add is refused the pages of a block. The second is then given a node
in a block that was never counted, which the destruction does not come to. -/
theorem refused_pages_lose_object :
    let run := addAll (fun b => 1048576 * b.succPNat) [([97], some 1), ([98], some 2)] pageTrie
      ⟨[true, true, true, false], false⟩
    (createLrupat pageTrie.sl.layout.word 4096 (fun _ => 0) pageTrie.lpatnodes true ⟨[], false⟩).1 =
        some pageTrie ∧
      run.1.1 = [(false, []), (true, [])] ∧
      (destroyLrupat run.1.2 run.2).1.1.count (some 2) = 0 :=
  ⟨rfl, by decide +kernel, by decide +kernel⟩

end Libdank.PatriciaTrie.Pointers
