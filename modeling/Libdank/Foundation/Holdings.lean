import Libdank.Foundation.Requests

/-! Programs that take hold of things and let go of them. Each thing has a number of its own
that is not given out again, and letting go of it is recorded, however often it happens. -/
namespace Libdank.Holdings
open Requests

@[ext] structure Item (κ : Type) where
  kind : κ
  number : ℕ
deriving DecidableEq, Repr

/-- What has been handed out so far, and what has been let go of, the latest first. -/
structure Ledger (κ : Type) where
  given : List (Item κ)
  released : List (Item κ)
deriving DecidableEq, Repr

variable {κ : Type}

def Ledger.empty : Ledger κ := ⟨[], []⟩

abbrev Holder (κ : Type) := StateM (Ledger κ)

def take (k : κ) : Holder κ (Item κ) := fun l =>
  (⟨k, l.given.length⟩, { l with given := ⟨k, l.given.length⟩ :: l.given })

def release (i : Item κ) : Holder κ Unit := modify fun l => { l with released := i :: l.released }

def releaseAll : List (Item κ) → Holder κ Unit
  | [] => pure ()
  | i :: rest => do
    release i
    releaseAll rest

/-- Each thing handed out has been let go of once, but for those in `live`, which have not
been let go of at all. -/
structure Held (live : Multiset (Item κ)) (l : Ledger κ) : Prop where
  numbered : ∀ i ∈ l.given, i.number < l.given.length
  distinct : l.given.Nodup
  settled : (l.given : Multiset (Item κ)) = live + l.released

variable {live : Multiset (Item κ)} {l : Ledger κ}

theorem held_empty : Held (0 : Multiset (Item κ)) .empty :=
  ⟨fun _ none_ => absurd none_ List.not_mem_nil, List.nodup_nil, rfl⟩

theorem Held.count_released (h : Held live l) [DecidableEq κ] {i : Item κ} (given : i ∈ l.given) :
    l.released.count i = if i ∈ live then 0 else 1 := by
  have once : live.count i + l.released.count i = 1 := by
    rw [← Multiset.coe_count i l.released, ← Multiset.count_add, ← h.settled, Multiset.coe_count]
    exact List.count_eq_one_of_mem h.distinct given
  split_ifs with mem
  · have := Multiset.count_pos.mpr mem
    omega
  · rw [Multiset.count_eq_zero_of_notMem mem] at once
    omega

theorem Held.all_released (h : Held live l) [DecidableEq κ] :
    (∀ i ∈ l.given, l.released.count i = 1) ↔ live = 0 := by
  constructor
  · refine fun all => Multiset.eq_zero_of_forall_notMem fun i mem => ?_
    have given : i ∈ l.given := by
      rw [← Multiset.mem_coe, h.settled]
      exact Multiset.mem_add.mpr (.inl mem)
    have once := all i given
    rw [h.count_released given, if_pos mem] at once
    exact absurd once (by decide)
  · rintro rfl i given
    rw [h.count_released given, if_neg (Multiset.notMem_zero i)]

theorem Held.nodup (h : Held live l) : live.Nodup := by
  have all : (live + (l.released : Multiset (Item κ))).Nodup := h.settled ▸ h.distinct
  exact (Multiset.nodup_add.mp all).1

theorem held_take (k : κ) :
    Ensures (Held live) (take k) fun i l => i.kind = k ∧ Held ({i} + live) l := by
  intro l h
  refine ⟨rfl, fun i mem => ?_, ?_, ?_⟩
  · change i.number < l.given.length + 1
    rcases List.mem_cons.mp mem with rfl | mem
    · exact Nat.lt_succ_self _
    · exact Nat.lt_succ_of_lt (h.numbered i mem)
  · refine List.nodup_cons.mpr ⟨fun mem => ?_, h.distinct⟩
    exact absurd (h.numbered _ mem) (Nat.lt_irrefl _)
  · change (↑(_ :: l.given) : Multiset (Item κ)) = _ + _ + ↑l.released
    rw [← Multiset.cons_coe, h.settled, ← Multiset.singleton_add, add_assoc]
    rfl

theorem held_release {i : Item κ} {rest : Multiset (Item κ)} (among : live = {i} + rest) :
    Ensures (Held live) (release i) fun _ => Held rest := by
  intro l h
  refine ⟨h.numbered, h.distinct, ?_⟩
  change (l.given : Multiset (Item κ)) = rest + ↑(i :: l.released)
  rw [h.settled, among, ← Multiset.cons_coe, ← Multiset.singleton_add]
  abel

theorem held_releaseAll (items : List (Item κ)) {rest : Multiset (Item κ)}
    (among : live = ↑items + rest) : Ensures (Held live) (releaseAll items) fun _ => Held rest := by
  induction items generalizing live with
  | nil =>
    rw [Multiset.coe_nil, zero_add] at among
    exact ensures_pure fun _ h => among ▸ h
  | cons i items ih =>
    rw [← Multiset.cons_coe, ← Multiset.singleton_add, add_assoc] at among
    exact ensures_bind (held_release among) fun _ => ih rfl

section InHand

/-- Started with `own` in hand, besides whatever else is held, `m` ends with a result and with
things in hand that are related by `post`; what else is held stays as it is. -/
def InHand {β : Type} (own : Multiset (Item κ)) (m : Holder κ β)
    (post : β → Multiset (Item κ) → Prop) : Prop :=
  ∀ live, Ensures (Held (own + live)) m fun b l => ∃ left, post b left ∧ Held (left + live) l

variable {β γ : Type} {own : Multiset (Item κ)} {post : β → Multiset (Item κ) → Prop}

theorem inHand_pure {b : β} (now : post b own) : InHand own (pure b) post :=
  fun _ => ensures_pure fun _ h => ⟨own, now, h⟩

theorem inHand_bind {m : Holder κ γ} {f : γ → Holder κ β} {mid : γ → Multiset (Item κ) → Prop}
    (first : InHand own m mid) (rest : ∀ c left, mid c left → InHand left (f c) post) :
    InHand own (m >>= f) post := by
  intro live l h
  obtain ⟨left, now, held⟩ := first live l h
  exact rest _ left now live _ held

/-- A program that needs less leaves the rest in hand. -/
theorem inHand_frame {m : Holder κ γ} {f : γ → Holder κ β} {mine extra : Multiset (Item κ)}
    {mid : γ → Multiset (Item κ) → Prop} (first : InHand mine m mid) (parts : own = mine + extra)
    (rest : ∀ c left, mid c left → InHand (left + extra) (f c) post) :
    InHand own (m >>= f) post := by
  intro live l h
  rw [parts, add_assoc] at h
  obtain ⟨left, now, held⟩ := first (extra + live) l h
  rw [← add_assoc] at held
  exact rest _ left now live _ held

theorem inHand_ite {c : Prop} [Decidable c] {m n : Holder κ β} (yes : c → InHand own m post)
    (no : ¬ c → InHand own n post) : InHand own (if c then m else n) post :=
  fun live => ensures_ite (fun h => yes h live) (fun h => no h live)

theorem inHand_take {k : κ} {f : Item κ → Holder κ β}
    (rest : ∀ i, i.kind = k → InHand ({i} + own) (f i) post) : InHand own (take k >>= f) post := by
  intro live l h
  obtain ⟨kind, held⟩ := held_take k l h
  rw [← add_assoc] at held
  exact rest _ kind live _ held

theorem inHand_release {i : Item κ} {mine : Multiset (Item κ)} {m : Holder κ β}
    (among : own = {i} + mine) (rest : InHand mine m post) :
    InHand own (release i >>= fun _ => m) post := by
  intro live l h
  rw [among, add_assoc] at h
  exact rest live _ (held_release rfl l h)

theorem inHand_releaseAll {items : List (Item κ)} {mine : Multiset (Item κ)} {m : Holder κ β}
    (among : own = ↑items + mine) (rest : InHand mine m post) :
    InHand own (releaseAll items >>= fun _ => m) post := by
  intro live l h
  rw [among, add_assoc] at h
  exact rest live _ (held_releaseAll items rfl l h)

theorem InHand.imp {m : Holder κ β} {post' : β → Multiset (Item κ) → Prop} (h : InHand own m post)
    (weaker : ∀ b left, post b left → post' b left) : InHand own m post' := by
  intro live l held
  obtain ⟨left, now, after⟩ := h live l held
  exact ⟨left, weaker _ _ now, after⟩

/-- What a program adds to what is held. -/
theorem InHand.adds {m : Holder κ β} (h : InHand 0 m post) (held : Held live l) :
    ∃ left, post (m l).1 left ∧ Held (left + live) (m l).2 :=
  h live l ((zero_add live).symm ▸ held)

/-- `m` makes a thing of `items` just when `good` says so, and keeps nothing in hand otherwise. -/
def Makes {α : Type} (m : Holder κ (Option α)) (items : α → Multiset (Item κ)) (good : Bool) : Prop :=
  InHand 0 m fun r left => r.isSome = good ∧ left = r.elim 0 items

theorem inHand_makes {α : Type} {m : Holder κ (Option α)} {items : α → Multiset (Item κ)}
    {good : Bool} {f : Option α → Holder κ β} (made : Makes m items good)
    (no : good = false → InHand own (f none) post)
    (yes : ∀ a, good = true → InHand (items a + own) (f (some a)) post) : InHand own (m >>= f) post := by
  refine inHand_frame made (zero_add own).symm fun r left ⟨some_, is⟩ => ?_
  subst is
  cases r with
  | none =>
    rw [Option.elim_none, zero_add]
    exact no some_.symm
  | some a => exact yes a some_.symm

theorem makes_none {α : Type} {items : α → Multiset (Item κ)} {good : Bool} (not_ : good = false) :
    InHand 0 (pure none : Holder κ (Option α)) fun r left => r.isSome = good ∧ left = r.elim 0 items :=
  inHand_pure ⟨not_.symm, rfl⟩

theorem makes_some {α : Type} {items : α → Multiset (Item κ)} {good : Bool} {a : α} (yes : good = true)
    (all : own = items a) :
    InHand own (pure (some a)) fun r left => r.isSome = good ∧ left = r.elim 0 items :=
  inHand_pure ⟨yes.symm, all⟩

end InHand

end Libdank.Holdings
