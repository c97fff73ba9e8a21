import Libdank.Foundation.Guarded
import Libdank.PatriciaTrie.Pointers

/-! The chain a tail is decayed into: how it grows, and that giving it back
leaves no trace. -/
namespace Libdank.PatriciaTrie.Pointers
open Requests Buffers SlabAllocator

variable {w : ℕ} {α : Type} {place : ℕ → ℕ+} {fold : UInt8 → UInt8}

theorem update_of_mem {β : Type} {A : List ℕ} {a b : ℕ} (hb : b ∈ A) (new : a ∉ A) (f : ℕ → β)
    (x : β) : Function.update f a x b = f b :=
  Function.update_of_ne (ne_of_mem_of_not_mem hb new) _ _

/-- Nothing but the allocator and nodes outside `A` may have changed. -/
structure Alike (A : List ℕ) (lp lp' : Lrupat w α) : Prop where
  nodes : lp'.nodes = lp.nodes
  nwatchcb : lp'.nwatchcb = lp.nwatchcb
  watched : lp'.watched = lp.watched
  lpatnodes : ∀ a ∈ A, lp'.lpatnodes a = lp.lpatnodes a

theorem Alike.refl (A : List ℕ) (lp : Lrupat w α) : Alike A lp lp :=
  ⟨rfl, rfl, rfl, fun _ _ => rfl⟩

theorem Alike.trans {A : List ℕ} {lp lp' lp'' : Lrupat w α} (first : Alike A lp lp')
    (second : Alike A lp' lp'') : Alike A lp lp'' where
  nodes := second.nodes.trans first.nodes
  nwatchcb := second.nwatchcb.trans first.nwatchcb
  watched := second.watched.trans first.watched
  lpatnodes a ha := (second.lpatnodes a ha).trans (first.lpatnodes a ha)

theorem Alike.of_cons {A : List ℕ} {a : ℕ} {lp lp' : Lrupat w α} (alike : Alike (a :: A) lp lp') :
    Alike A lp lp' :=
  { alike with lpatnodes := fun b hb => alike.lpatnodes b (List.mem_cons_of_mem a hb) }

theorem alike_change {A : List ℕ} (lp : Lrupat w α) {a : ℕ} (new : a ∉ A)
    (f : Lpatnode α → Lpatnode α) : Alike A lp (lp.change a f) where
  nodes := rfl
  nwatchcb := rfl
  watched := rfl
  lpatnodes _ hb := update_of_mem hb new _ _

theorem alike_link {A : List ℕ} (lp : Lrupat w α) {a : ℕ} (new : a ∉ A) (next : Pointer ℕ)
    (c : UInt8) : Alike A lp (lp.link next (.arr a c)) :=
  alike_change lp new fun node => { node with arr := Function.update node.arr c next }

/-- The nodes handed out are those in `A`, and nothing is in the others. -/
abbrev Stock (place : ℕ → ℕ+) (lp : Lrupat w α) (A : List ℕ) : Prop :=
  CleanStock .zeroed place lp.sl A lp.lpatnodes

theorem Stock.change {A : List ℕ} {lp : Lrupat w α} (stocked : Stock place lp A) {a : ℕ} (ha : a ∈ A)
    (f : Lpatnode α → Lpatnode α) : Stock place (lp.change a f) A := stocked.write ha _

theorem Stock.link {A : List ℕ} {lp : Lrupat w α} (stocked : Stock place lp A) {slot : Slot}
    (ha : ∀ a c, slot = .arr a c → a ∈ A) (next : Pointer ℕ) : Stock place (lp.link next slot) A := by
  cases slot with
  | nodes => exact stocked
  | arr a c => exact stocked.change (ha a c rfl) _

theorem slallocLpatnodeFree_run {a : ℕ} {A : List ℕ} {lp : Lrupat w α}
    (stocked : Stock place lp (a :: A)) (h : Heap) :
    ∃ lp' h', slallocLpatnodeFree a lp h = (((), lp'), h') ∧ Stock place lp' A ∧
      Alike A lp lp' := by
  have less := stocked.free (List.mem_cons_self ..) h
  rw [List.erase_cons_head] at less
  have new : a ∉ A := (List.nodup_cons.mp stocked.nodup).1
  exact ⟨_, _, rfl, less, rfl, rfl, rfl, fun b hb =>
    update_of_mem hb new _ _⟩

theorem slallocLpatnodeFree_guarded (place : ℕ → ℕ+) (a : ℕ) : Guarded Lrupat.Clear
    (slallocLpatnodeFree a) fun (lp : Lrupat w α) _ lp' => ∀ A, Stock place lp (a :: A) →
      Stock place lp' A ∧ Alike A lp lp' := by
  refine fun lp h here => ⟨here, fun A stocked => ?_⟩
  obtain ⟨lp', h', run, result⟩ := slallocLpatnodeFree_run stocked h
  rw [run]
  exact result

theorem slallocLpatnodeFree_asked (a : ℕ) (lp : Lrupat w α) (h : Heap) :
    (slallocLpatnodeFree a lp h).1.2.asked = lp.asked := rfl

/-- From `a` a chain leads along `suffix` to `last`, through the nodes `bs`. -/
inductive Chained (fold : UInt8 → UInt8) (lpatnodes : ℕ → Lpatnode α) :
    ℕ → Key → List ℕ → ℕ → Prop
  | last {a : ℕ} (here : lpatnodes a = .zeroed) : Chained fold lpatnodes a [] [] a
  | cons {a b : ℕ} {c : UInt8} {suffix : Key} {bs : List ℕ} {last : ℕ}
      (here : lpatnodes a = ⟨Function.update (fun _ => none) (fold c) (some b), none, none⟩)
      (rest : Chained fold lpatnodes b suffix bs last) :
      Chained fold lpatnodes a (c :: suffix) (b :: bs) last

theorem clear_link (next : Pointer ℕ) (slot : Slot) (lp : Lrupat w α)
    (here : (lp.link next slot).Clear) : lp.Clear := by
  cases slot <;> exact here

section Children

variable {free : Pointer ℕ → Upkept w α Unit} {l : ℕ} {lp lp' : Lrupat w α} {h h' : Heap}

theorem eachChild_append (zs zs' : List ℕ) (lp : Lrupat w α) (h : Heap) :
    eachChild free l (zs ++ zs') lp h =
      eachChild free l zs' (eachChild free l zs lp h).1.2 (eachChild free l zs lp h).2 := by
  induction zs generalizing lp h with
  | nil => rfl
  | cons z zs ih => exact ih _ _

theorem eachChild_none (nil : free none = pure ()) {zs : List ℕ}
    (blank : ∀ z ∈ zs, (lp.lpatnodes l).arr (UInt8.ofNat z) = none) :
    eachChild free l zs lp h = (((), lp), h) := by
  induction zs with
  | nil => rfl
  | cons z zs ih =>
    have first : free ((lp.lpatnodes l).arr (UInt8.ofNat z)) lp h = (((), lp), h) := by
      rw [blank z (by simp), nil]
      rfl
    change eachChild free l zs (free _ lp h).1.2 (free _ lp h).2 = _
    rw [first]
    exact ih fun y hy => blank y (by simp [hy])

theorem eachChild_one (nil : free none = pure ()) {c : UInt8} {b : ℕ}
    (arr : (lp.lpatnodes l).arr = Function.update (fun _ => none) c (some b))
    (run : free (some b) lp h = (((), lp'), h')) (kept : lp'.lpatnodes l = lp.lpatnodes l) :
    eachChild free l (List.range 256) lp h = (((), lp'), h') := by
  have bound := c.toNat_lt
  have split : List.range 256 = List.range c.toNat ++
      c.toNat :: (List.range (255 - c.toNat)).map (c.toNat + 1 + ·) := by
    rw [show (256 : ℕ) = c.toNat + (1 + (255 - c.toNat)) by omega, List.range_add, List.range_add]
    simp [Function.comp_def, Nat.add_assoc]
  have blank : ∀ z < 256, z ≠ c.toNat →
      (Function.update (fun _ => none) c (some b) : UInt8 → Pointer ℕ) (UInt8.ofNat z) = none := by
    intro z small ne
    refine Function.update_of_ne (fun same => ne ?_) _ _
    rw [← same, UInt8.toNat_ofNat_of_lt' small]
  have before : eachChild free l (List.range c.toNat) lp h = (((), lp), h) := by
    refine eachChild_none nil fun z hz => ?_
    rw [List.mem_range] at hz
    rw [arr]
    exact blank z (by omega) hz.ne
  rw [split, eachChild_append, before]
  change eachChild free l _ (free ((lp.lpatnodes l).arr _) lp h).1.2 (free _ lp h).2 = _
  rw [arr, UInt8.ofNat_toNat, Function.update_self, run]
  refine eachChild_none nil fun z hz => ?_
  obtain ⟨y, hy, rfl⟩ := List.mem_map.mp hz
  rw [List.mem_range] at hy
  rw [kept, arr]
  exact blank _ (by omega) (by omega)

theorem eachChild_asked (free_asked : ∀ l lp h, (free l lp h).1.2.asked = lp.asked) (zs : List ℕ)
    (lp : Lrupat w α) (h : Heap) : (eachChild free l zs lp h).1.2.asked = lp.asked := by
  induction zs generalizing lp h with
  | nil => rfl
  | cons z zs ih => exact (ih _ _).trans (free_asked _ _ _)

end Children

theorem freeLrupatChain_none (fuel : ℕ) :
    (freeLrupatChain fuel none : Upkept w α Unit) = pure () := by
  cases fuel <;> rfl

theorem freeLrupatChain_some (fuel l : ℕ) (lp : Lrupat w α) (h : Heap) :
    freeLrupatChain (fuel + 1) (some l) lp h =
      slallocLpatnodeFree l (eachChild (freeLrupatChain fuel) l (List.range 256) lp h).1.2
        (eachChild (freeLrupatChain fuel) l (List.range 256) lp h).2 := by
  rw [freeLrupatChain, run_bind]

theorem freeLrupatChain_asked (fuel : ℕ) (l : Pointer ℕ) (lp : Lrupat w α) (h : Heap) :
    (freeLrupatChain fuel l lp h).1.2.asked = lp.asked := by
  induction fuel generalizing l lp h with
  | zero => cases l <;> rfl
  | succ fuel ih =>
    cases l with
    | none => rfl
    | some l =>
      rw [freeLrupatChain_some, slallocLpatnodeFree_asked]
      exact eachChild_asked ih _ _ _

theorem freeLrupatChain_run {fuel a last : ℕ} {suffix : Key} {bs A : List ℕ} {lp : Lrupat w α}
    (chain : Chained fold lp.lpatnodes a suffix bs last) (enough : bs.length < fuel)
    (stocked : Stock place lp (a :: bs ++ A)) (h : Heap) :
    ∃ lp' h', freeLrupatChain fuel (some a) lp h = (((), lp'), h') ∧
      Stock place lp' A ∧ Alike A lp lp' := by
  induction fuel generalizing a suffix bs A with
  | zero => omega
  | succ fuel ih =>
    cases chain with
    | last here =>
      have loop : eachChild (freeLrupatChain fuel) last (List.range 256) lp h = (((), lp), h) :=
        eachChild_none (freeLrupatChain_none fuel) fun z _ => by rw [here]; rfl
      obtain ⟨lp', h', run, stocked', alike⟩ := slallocLpatnodeFree_run stocked h
      refine ⟨lp', h', ?_, stocked', alike⟩
      rw [freeLrupatChain_some, loop, run]
    | @cons _ b c suffix bs _ here rest =>
      have order : (b :: bs ++ a :: A).Perm (a :: (b :: bs) ++ A) := List.perm_middle
      obtain ⟨lp₁, h₁, run₁, stocked₁, alike₁⟩ := ih rest (by simpa using enough) (stocked.perm order)
      have loop : eachChild (freeLrupatChain fuel) a (List.range 256) lp h = (((), lp₁), h₁) :=
        eachChild_one (freeLrupatChain_none fuel) (by rw [here]) run₁
          (alike₁.lpatnodes a (List.mem_cons_self ..))
      obtain ⟨lp', h', run, stocked', alike⟩ := slallocLpatnodeFree_run stocked₁ h₁
      refine ⟨lp', h', ?_, stocked', alike₁.of_cons.trans alike⟩
      rw [freeLrupatChain_some, loop, run]

/-- What `expand` makes of a new node: a chain, perhaps cut short by a refusal. -/
def Expanded (place : ℕ → ℕ+) (fold : UInt8 → UInt8) (a : ℕ) (suffix : Key) (lp : Lrupat w α)
    (r : Pointer ℕ) (lp' : Lrupat w α) : Prop :=
  ∀ A, Stock place lp (a :: A) → lp.lpatnodes a = .zeroed →
    ∃ s bs last, Chained fold lp'.lpatnodes a s bs last ∧ bs.length ≤ suffix.length ∧
      Stock place lp' (a :: bs ++ A) ∧ Alike A lp lp' ∧ ∀ e ∈ r, s = suffix ∧ last = e

theorem freeLrupatChain_guarded (place : ℕ → ℕ+) (fold : UInt8 → UInt8) (fuel a : ℕ) :
    Guarded Lrupat.Clear (freeLrupatChain fuel (some a)) fun (lp : Lrupat w α) _ lp' =>
      ∀ suffix bs last A,
      Chained fold lp.lpatnodes a suffix bs last → bs.length < fuel →
        Stock place lp (a :: bs ++ A) → Stock place lp' A ∧ Alike A lp lp' := by
  intro lp h here
  have asked := freeLrupatChain_asked fuel (some a) lp h
  refine ⟨fun call mem => here call (asked.symm ▸ mem), fun suffix bs last A chain short stocked => ?_⟩
  obtain ⟨lp', h', run, result⟩ := freeLrupatChain_run chain short stocked h
  rw [run]
  exact result

theorem Expanded.undone {lp lp₁ lp₂ lp₃ : Lrupat w α} {A : List ℕ} {chainhead : ℕ} {suffix : Key}
    {r : Pointer ℕ} (new : Stock place lp₁ (chainhead :: A) ∧ Alike A lp lp₁ ∧
      ∀ a ∈ some chainhead, lp₁.lpatnodes a = .zeroed)
    (grown : Expanded place fold chainhead suffix lp₁ r lp₂)
    (freed : ∀ s bs last A, Chained fold lp₂.lpatnodes chainhead s bs last →
      bs.length < suffix.length + 1 → Stock place lp₂ (chainhead :: bs ++ A) →
        Stock place lp₃ A ∧ Alike A lp₂ lp₃) : Stock place lp₃ A ∧ Alike A lp lp₃ := by
  obtain ⟨stocked₁, alike₁, zero⟩ := new
  obtain ⟨s, bs, last, chain, short, stocked₂, alike₂, -⟩ := grown A stocked₁ (zero _ rfl)
  obtain ⟨stocked₃, alike₃⟩ := freed s bs last A chain (Nat.lt_succ_of_le short) stocked₂
  exact ⟨stocked₃, (alike₁.trans alike₂).trans alike₃⟩

section Growing
variable [Leftover ℕ]

theorem slallocLpatnodeNew_guarded : Guarded Lrupat.Clear (slallocLpatnodeNew place)
    fun (lp : Lrupat w α) r lp' => ∀ A, Stock place lp A →
      Stock place lp' (r.toList ++ A) ∧ Alike A lp lp' ∧ ∀ a ∈ r, lp'.lpatnodes a = .zeroed := by
  intro lp h here
  obtain ⟨granted, clear⟩ := List.forall_mem_cons.mp here
  refine ⟨clear, fun A stocked => ?_⟩
  obtain ⟨more, same, zero⟩ := stocked.new granted rfl rfl
  exact ⟨more, ⟨rfl, rfl, rfl, same⟩, zero⟩

theorem expand_guarded (a : ℕ) (suffix : Key) : Guarded Lrupat.Clear
    (expand place fold a suffix : Upkept w α _) (Expanded place fold a suffix) := by
  induction suffix generalizing a with
  | nil =>
    refine guarded_pure fun lp A stocked zero =>
      ⟨[], [], a, .last zero, le_rfl, stocked, .refl _ _, ?_⟩
    rintro e ⟨⟩
    exact ⟨rfl, rfl⟩
  | cons c suffix ih =>
    refine guarded_bind slallocLpatnodeNew_guarded fun lp next => ?_
    refine guarded_bind (guarded_modify (clear_link _ _)) fun lp₁ _ => ?_
    cases next with
    | none =>
      refine guarded_pure fun lp₂ linked new A stocked zero => ?_
      subst linked
      obtain ⟨stocked₁, alike₁, -⟩ := new (a :: A) stocked
      have fresh : a ∉ A := (List.nodup_cons.mp stocked.nodup).1
      have still : (lp₁.link none (.arr a (fold c))).lpatnodes a = .zeroed := by
        simp [Lrupat.link, Lrupat.change, alike₁.lpatnodes a (List.mem_cons_self ..), zero,
          Lpatnode.zeroed]
      exact ⟨[], [], a, .last still, Nat.zero_le _, stocked₁.change (List.mem_cons_self ..) _,
        alike₁.of_cons.trans (alike_link lp₁ fresh _ _), by simp⟩
    | some b =>
      refine (ih b).imp fun lp₂ r lp' rest linked new A stocked zero => ?_
      subst linked
      obtain ⟨stocked₁, alike₁, zero₁⟩ := new (a :: A) stocked
      have fresh : a ∉ A := (List.nodup_cons.mp stocked.nodup).1
      have ne : b ≠ a := fun same => (List.nodup_cons.mp stocked₁.nodup).1 (by simp [same])
      have blank : (lp₁.link (some b) (.arr a (fold c))).lpatnodes b = .zeroed := by
        simp [Lrupat.link, Lrupat.change, ne, zero₁ b rfl]
      have linked : (lp₁.link (some b) (.arr a (fold c))).lpatnodes a =
          ⟨Function.update (fun _ => none) (fold c) (some b), none, none⟩ := by
        simp [Lrupat.link, Lrupat.change, alike₁.lpatnodes a (List.mem_cons_self ..), zero,
          Lpatnode.zeroed]
      obtain ⟨s, bs, last, chain, short, stocked', alike', whole⟩ := rest (a :: A)
        (stocked₁.change (by simp) _) blank
      refine ⟨c :: s, b :: bs, last, .cons ?_ chain, by simpa using short, ?_, ?_, ?_⟩
      · rw [alike'.lpatnodes a (List.mem_cons_self ..), linked]
      · exact stocked'.perm List.perm_middle.symm
      · exact (alike₁.of_cons.trans (alike_link lp₁ fresh _ _)).trans alike'.of_cons
      · intro e he
        obtain ⟨rfl, rfl⟩ := whole e he
        exact ⟨rfl, rfl⟩

def Lrupat.emptied (lp : Lrupat w α) (tail last : ℕ) : Lrupat w α :=
  (lp.change last fun node =>
    { node with patstr := some [], obj := (lp.lpatnodes tail).obj }).change tail fun node =>
      { node with patstr := none, obj := none }

/-- What is left of a tail that was to be decayed: what was there before if that
failed, and otherwise a chain in its place. -/
theorem decayLrupatTail_guarded (lps : Slot) (tail : ℕ) :
    Guarded Lrupat.Clear (decayLrupatTail place fold lps tail) fun (lp : Lrupat w α) r lp' =>
      ∀ A, Stock place lp A →
        (r = false ∧ Stock place lp' A ∧ Alike A lp lp') ∨
        (r = true ∧ ∃ lp₁ chainhead c suffix bs last, (lp.lpatnodes tail).patstr = some (c :: suffix) ∧
          Chained fold lp₁.lpatnodes chainhead (c :: suffix) bs last ∧
          Stock place lp₁ (chainhead :: bs ++ A) ∧ Alike A lp lp₁ ∧
          lp' = (lp₁.emptied tail last).link (some chainhead) lps) := by
  refine guarded_get fun lp => ?_
  split
  · rename_i c suffix held
    refine guarded_bind slallocLpatnodeNew_guarded fun lp₁ chainhead => ?_
    cases chainhead with
    | none =>
      refine guarded_pure fun lp₂ new same A stocked => ?_
      subst same
      exact .inl ⟨rfl, (new A stocked).1, (new A stocked).2.1⟩
    | some chainhead =>
      refine guarded_bind (expand_guarded chainhead (c :: suffix)) fun lp₂ last => ?_
      cases last with
      | none =>
        refine guarded_bind (freeLrupatChain_guarded place fold _ _) fun lp₃ _ => ?_
        refine guarded_pure fun lp' freed grown new same A stocked => .inl ⟨rfl, ?_⟩
        subst same
        exact grown.undone (new A stocked) freed
      | some last =>
        refine guarded_bind (guarded_request _) fun lp₃ ok => ?_
        cases ok with
        | false =>
          refine guarded_bind (freeLrupatChain_guarded place fold _ _) fun lp₄ _ => ?_
          refine guarded_pure fun lp' freed idle grown new same A stocked => .inl ⟨rfl, ?_⟩
          subst same idle
          exact grown.undone (new A stocked) freed
        | true =>
          refine guarded_bind (guarded_modify fun _ here => here) fun lp₄ _ => ?_
          refine guarded_bind (guarded_modify fun _ here => here) fun lp₅ _ => ?_
          refine guarded_bind (guarded_modify (clear_link _ _)) fun lp₆ _ => ?_
          refine guarded_pure fun lp' linked emptied filled idle grown new same A stocked =>
            .inr ⟨rfl, ?_⟩
          subst same idle filled emptied linked
          obtain ⟨stocked₁, alike₁, zero⟩ := new A stocked
          obtain ⟨s, bs, last, chain, -, stocked₂, alike₂, whole⟩ := grown A stocked₁ (zero _ rfl)
          obtain ⟨rfl, rfl⟩ := whole _ rfl
          exact ⟨_, chainhead, c, suffix, bs, _, held, chain, stocked₂, alike₁.trans alike₂, rfl⟩
  · exact guarded_pure fun lp' same A stocked => by
      subst same
      exact .inl ⟨rfl, stocked, .refl _ _⟩

theorem lpatchainNew_guarded (key : Key) (obj : Pointer α) :
    Guarded Lrupat.Clear (lpatchainNew place fold key obj) fun (lp : Lrupat w α) r lp' =>
      ∀ A, Stock place lp A → Stock place lp' (r.toList ++ A) ∧ Alike A lp lp' ∧
        ∀ a ∈ r, lp'.lpatnodes a = ⟨fun _ => none, obj, some (key.map fold)⟩ := by
  refine guarded_bind slallocLpatnodeNew_guarded fun lp lpn => ?_
  cases lpn with
  | none => exact guarded_pure fun lp' new A stocked =>
      ⟨(new A stocked).1, (new A stocked).2.1, by simp⟩
  | some lpn =>
    refine guarded_bind (guarded_request _) fun lp₁ ok => ?_
    cases ok with
    | false =>
      refine guarded_bind (slallocLpatnodeFree_guarded place lpn) fun lp₂ _ => ?_
      refine guarded_pure fun lp' freed idle new A stocked => ?_
      subst idle
      obtain ⟨stocked₁, alike₁, -⟩ := new A stocked
      obtain ⟨stocked', alike'⟩ := freed A stocked₁
      exact ⟨stocked', alike₁.trans alike', by simp⟩
    | true =>
      refine guarded_bind (guarded_modify fun _ here => here) fun lp₂ _ => ?_
      refine guarded_pure fun lp' filled idle new A stocked => ?_
      subst idle filled
      obtain ⟨stocked₁, alike₁, zero⟩ := new A stocked
      have fresh : lpn ∉ A := (List.nodup_cons.mp stocked₁.nodup).1
      refine ⟨stocked₁.change (List.mem_cons_self ..) _, alike₁.trans (alike_change _ fresh _), ?_⟩
      rintro a ⟨⟩
      simp [Lrupat.change, zero _ rfl, Lpatnode.zeroed]

end Growing

end Libdank.PatriciaTrie.Pointers
