import Libdank.Foundation.Requests
import Mathlib.Logic.Function.Basic

/-! Updates made to a scratch copy. A call copies one named object, changes the
copy in place once for each item of another object, and puts it in the place of
the first at the end; the second object is read anew on every pass, and may be
the first itself. Such a call does all it is for or nothing, whatever requests
fail, just when none of its stores misses its block: what a stray store does to
the objects of the program is not known. -/
namespace Libdank.ScratchCopy
open Requests

inductive Place where
  | named (i : ℕ)
  | scratch
deriving DecidableEq, Repr

abbrev Store (σ : Type) := Place → σ

structure Update (σ ι : Type) where
  items : σ → List ι
  clone : σ → Request (Bool × σ)
  op : σ → ι → Request (Bool × σ)
  free : σ → σ

variable {σ ι : Type} (u : Update σ ι) (damage : Store σ → Store σ)

/-- What a step leaves of the objects: `damage` is done once a store has missed its block. -/
def struck (wild : Bool) (store : Store σ) : Store σ := if wild then damage store else store

/-- The loop from item `z` of `arg`, left early when an item cannot be put in.
More items than there were at first come from damage alone, and are not looked at. -/
def Update.loop (arg : ℕ) : ℕ → ℕ → Store σ → Request (Bool × Store σ)
  | 0, _, store => pure (false, store)
  | passes + 1, z, store =>
    match (u.items (store (.named arg)))[z]? with
    | none => pure (true, store)
    | some i => do
      let (ok, dup) ← u.op (store .scratch) i
      let store := struck damage (← get).wild (Function.update store .scratch dup)
      if ok then Update.loop arg passes (z + 1) store
      else pure (false, Function.update store .scratch (u.free (store .scratch)))

def Update.run (cur arg : ℕ) (store : Store σ) : Request (Bool × Store σ) := do
  let (ok, dup) ← u.clone (store (.named cur))
  let store := Function.update store .scratch dup
  if ok then
    let (ok, store) ← u.loop damage arg ((u.items (store (.named arg))).length + 1) 0 store
    pure (ok, if ok then Function.update store (.named cur) (store .scratch) else store)
  else pure (false, store)

/-- Whatever damage a stray store does, a call that fails leaves every named object
as it was; one that succeeds changes the object updated alone, and as it does when
every request is served. -/
def Update.AllOrNothing (cur arg : ℕ) (store : Store σ) : Prop :=
  ∀ (damage : Store σ → Store σ) (h : Heap), Tame h →
    ((u.run damage cur arg store h).1.1 = false →
      ∀ n, (u.run damage cur arg store h).1.2 (.named n) = store (.named n)) ∧
    ((u.run damage cur arg store h).1.1 = true →
      (∀ n, n ≠ cur → (u.run damage cur arg store h).1.2 (.named n) = store (.named n)) ∧
      ∀ h', Served h' → Tame h' → (u.run damage cur arg store h').1 = (u.run damage cur arg store h).1)

def Update.value (cur arg : σ) : Request (Bool × σ) := do
  let (ok, dup) ← u.clone cur
  if ok then
    let (ok, dup) ← untilFailure u.op dup (u.items arg)
    pure (ok, if ok then dup else cur)
  else pure (false, cur)

variable {u damage}

@[simp] theorem update_named (store : Store σ) (s : σ) (n : ℕ) :
    Function.update store .scratch s (.named n) = store (.named n) :=
  Function.update_of_ne (by simp) _ _

theorem struck_id (wild : Bool) (store : Store σ) : struck id wild store = store := ite_self store

theorem loop_step {arg z : ℕ} {store : Store σ} {i : ι}
    (here : (u.items (store (.named arg)))[z]? = some i) (passes : ℕ) (h : Heap) {dup : Store σ}
    (after : struck damage (u.op (store .scratch) i h).2.wild
      (Function.update store .scratch (u.op (store .scratch) i h).1.2) = dup) :
    u.loop damage arg (passes + 1) z store h =
      (if (u.op (store .scratch) i h).1.1 = true then u.loop damage arg passes (z + 1) dup
      else pure (false, Function.update dup .scratch (u.free (dup .scratch))))
        (u.op (store .scratch) i h).2 := by
  rw [Update.loop, here, ← after]
  rfl

/-- Damage that spares what the loop reads and works on. -/
def Spares (damage : Store σ → Store σ) (arg : ℕ) : Prop :=
  ∀ store, damage store .scratch = store .scratch ∧
    damage store (.named arg) = store (.named arg)

theorem spares_id (arg : ℕ) : Spares (id : Store σ → Store σ) arg := fun _ => ⟨rfl, rfl⟩

theorem Spares.struck {arg : ℕ} (spares : Spares damage arg) (wild : Bool) (store : Store σ) :
    struck damage wild store .scratch = store .scratch ∧
      struck damage wild store (.named arg) = store (.named arg) := by
  rw [ScratchCopy.struck]
  split_ifs
  · exact spares store
  · exact ⟨rfl, rfl⟩

theorem loop_eq {arg : ℕ} (spares : Spares damage arg) (passes z : ℕ) (store : Store σ) (h : Heap)
    (enough : (u.items (store (.named arg))).length < passes + z)
    (inside : z ≤ (u.items (store (.named arg))).length) {items : List ι}
    (left : (u.items (store (.named arg))).drop z = items) :
    (u.loop damage arg passes z store h).1.1 = (untilFailure u.op (store .scratch) items h).1.1 ∧
      (u.loop damage arg passes z store h).2 = (untilFailure u.op (store .scratch) items h).2 ∧
      ((u.loop damage arg passes z store h).1.1 = true →
        (u.loop damage arg passes z store h).1.2 .scratch =
          (untilFailure u.op (store .scratch) items h).1.2) := by
  induction passes generalizing z store h items with
  | zero => omega
  | succ passes ih =>
    cases here : (u.items (store (.named arg)))[z]? with
    | none =>
      obtain rfl : items = [] := by
        rw [← left, List.drop_eq_nil_iff]
        exact List.getElem?_eq_none_iff.mp here
      rw [Update.loop, here]
      exact ⟨rfl, rfl, fun _ => rfl⟩
    | some i =>
      obtain ⟨lt, found⟩ := List.getElem?_eq_some_iff.mp here
      rw [List.drop_eq_getElem_cons lt, found] at left
      subst left
      obtain ⟨dup, after⟩ : ∃ dup, struck damage (u.op (store .scratch) i h).2.wild
        (Function.update store .scratch (u.op (store .scratch) i h).1.2) = dup := ⟨_, rfl⟩
      obtain ⟨copy, read⟩ := spares.struck (u.op (store .scratch) i h).2.wild
        (Function.update store .scratch (u.op (store .scratch) i h).1.2)
      rw [after, Function.update_self] at copy
      rw [after, update_named] at read
      rw [loop_step here passes h after, untilFailure_cons]
      by_cases ok : (u.op (store .scratch) i h).1.1 = true
      · rw [if_pos ok, if_pos ok, ← copy]
        exact ih (z + 1) dup _ (by rw [read]; omega) (by rw [read]; exact lt) (by rw [read])
      · rw [if_neg ok, if_neg ok]
        exact ⟨rfl, rfl, fun absurd_ => Bool.noConfusion absurd_⟩

theorem loop_named (arg passes z : ℕ) (store : Store σ) (h : Heap) (n : ℕ) :
    (u.loop id arg passes z store h).1.2 (.named n) = store (.named n) := by
  induction passes generalizing z store h with
  | zero => rfl
  | succ passes ih =>
    cases here : (u.items (store (.named arg)))[z]? with
    | none =>
      rw [Update.loop, here]
      rfl
    | some i =>
      rw [loop_step here passes h (struck_id _ _)]
      split_ifs
      · rw [ih, update_named]
      · simp only [pure_apply, update_named]

section Calm
variable (remembers : ∀ s i, Remembers (u.op s i))
include remembers

theorem loop_remembers (arg passes z : ℕ) (store : Store σ) :
    Remembers (u.loop damage arg passes z store) := by
  induction passes generalizing z store with
  | zero => exact remembers_pure _
  | succ passes ih =>
    rw [Update.loop]
    cases (u.items (store (.named arg)))[z]? with
    | none => exact remembers_pure _
    | some i =>
      refine remembers_bind (remembers _ _) fun q => remembers_bind (fun _ wild => wild) fun h => ?_
      exact remembers_ite (ih _ _) (remembers_pure _)

theorem loop_calm (arg passes z : ℕ) (store : Store σ) (h : Heap)
    (calm : Tame (u.loop id arg passes z store h).2) :
    u.loop damage arg passes z store h = u.loop id arg passes z store h := by
  induction passes generalizing z store h with
  | zero => rfl
  | succ passes ih =>
    cases here : (u.items (store (.named arg)))[z]? with
    | none => rw [Update.loop, Update.loop, here]
    | some i =>
      have tame : Tame (u.op (store .scratch) i h).2 := by
        refine Bool.eq_false_of_not_eq_true fun wild => ?_
        rw [loop_step here passes h (struck_id _ _)] at calm
        split_ifs at calm
        · exact Bool.noConfusion ((loop_remembers remembers _ _ _ _ _ wild).symm.trans calm)
        · exact Bool.noConfusion (wild.symm.trans calm)
      have after : struck damage (u.op (store .scratch) i h).2.wild
          (Function.update store .scratch (u.op (store .scratch) i h).1.2) =
            Function.update store .scratch (u.op (store .scratch) i h).1.2 := by
        rw [tame]
        rfl
      rw [loop_step here passes h (struck_id _ _)] at calm ⊢
      rw [loop_step here passes h after]
      split_ifs at calm ⊢
      · exact ih _ _ _ calm
      · rfl

end Calm

theorem loop_overwrites {n arg : ℕ} {s : σ} (passes z : ℕ) (store : Store σ) (h : Heap)
    (done : h.wild = true → store (.named n) = s)
    (wild : (u.loop (Function.update · (.named n) s) arg passes z store h).2.wild = true) :
    (u.loop (Function.update · (.named n) s) arg passes z store h).1.2 (.named n) = s := by
  induction passes generalizing z store h with
  | zero => exact done wild
  | succ passes ih =>
    cases here : (u.items (store (.named arg)))[z]? with
    | none =>
      rw [Update.loop, here] at wild ⊢
      exact done wild
    | some i =>
      obtain ⟨dup, after⟩ : ∃ dup, struck (Function.update · (.named n) s)
        (u.op (store .scratch) i h).2.wild
        (Function.update store .scratch (u.op (store .scratch) i h).1.2) = dup := ⟨_, rfl⟩
      have done' : (u.op (store .scratch) i h).2.wild = true → dup (.named n) = s := by
        intro hit
        rw [← after, hit]
        exact Function.update_self ..
      rw [loop_step here passes h after] at wild ⊢
      split_ifs at wild ⊢
      · exact ih _ _ _ done' wild
      · exact (update_named dup (u.free (dup .scratch)) n).trans (done' wild)

theorem run_spares {cur arg : ℕ} (spares : Spares damage arg) (store : Store σ) (h : Heap) :
    (u.run damage cur arg store h).2 = (u.value (store (.named cur)) (store (.named arg)) h).2 := by
  rw [Update.run, Update.value, bind_apply, bind_apply]
  obtain ⟨⟨ok, dup⟩, h₁⟩ := u.clone (store (.named cur)) h
  cases ok with
  | false => rfl
  | true =>
    have follows := @loop_eq _ _ u _ arg spares ((u.items (store (.named arg))).length + 1) 0
      (Function.update store .scratch dup) h₁ (by simp) (by simp) _ rfl
    rw [Function.update_self] at follows
    exact follows.2.1

theorem run_calm (remembers : ∀ s i, Remembers (u.op s i)) {cur arg : ℕ} {store : Store σ}
    {h : Heap} (calm : Tame (u.value (store (.named cur)) (store (.named arg)) h).2) :
    u.run damage cur arg store h = u.run id cur arg store h := by
  rw [← run_spares (spares_id arg)] at calm
  revert calm
  rw [Update.run, Update.run, bind_apply, bind_apply]
  obtain ⟨⟨ok, dup⟩, h₁⟩ := u.clone (store (.named cur)) h
  cases ok with
  | false => exact fun _ => rfl
  | true =>
    intro calm
    simp only [if_true, bind_apply] at calm ⊢
    rw [loop_calm remembers _ _ _ _ _ calm]

theorem run_overwrites {cur arg n : ℕ} {s : σ} (other : n ≠ cur) (store : Store σ) {h : Heap}
    (inside : Tame (u.clone (store (.named cur)) h).2)
    (wild : (u.run (Function.update · (.named n) s) cur arg store h).2.wild = true) :
    (u.run (Function.update · (.named n) s) cur arg store h).1.2 (.named n) = s := by
  revert inside wild
  rw [Update.run, bind_apply]
  obtain ⟨⟨ok, dup⟩, h₁⟩ := u.clone (store (.named cur)) h
  cases ok with
  | false => exact fun inside wild => Bool.noConfusion (inside.symm.trans wild)
  | true =>
    intro inside wild
    simp only [if_true, bind_apply, pure_apply] at wild ⊢
    have last := loop_overwrites _ _ _ h₁ (fun stray => Bool.noConfusion (inside.symm.trans stray)) wild
    split_ifs
    · rw [Function.update_of_ne (by simpa using other), last]
    · exact last

/-- Where no store misses its block, what the call leaves in the store is what the
update on values gives. -/
theorem run_eq (remembers : ∀ s i, Remembers (u.op s i)) (cur arg : ℕ) (store : Store σ) (h : Heap)
    (calm : Tame (u.value (store (.named cur)) (store (.named arg)) h).2) :
    (u.run damage cur arg store h).1.1 = (u.value (store (.named cur)) (store (.named arg)) h).1.1 ∧
      (u.run damage cur arg store h).2 = (u.value (store (.named cur)) (store (.named arg)) h).2 ∧
      ∀ n, (u.run damage cur arg store h).1.2 (.named n) =
        if n = cur then (u.value (store (.named cur)) (store (.named arg)) h).1.2
        else store (.named n) := by
  have kept (n : ℕ) : store (.named n) = if n = cur then store (.named cur) else store (.named n) := by
    split_ifs with same
    · rw [same]
    · rfl
  rw [run_calm remembers calm, Update.run, Update.value, bind_apply, bind_apply]
  obtain ⟨⟨ok, dup⟩, h₁⟩ := u.clone (store (.named cur)) h
  cases ok with
  | false =>
    simp only [Bool.false_eq_true, if_false, pure_apply, update_named]
    exact ⟨trivial, trivial, kept⟩
  | true =>
    simp only [if_true, bind_apply, pure_apply, update_named]
    have follows := @loop_eq _ _ u id arg (spares_id arg) ((u.items (store (.named arg))).length + 1) 0
      (Function.update store .scratch dup) h₁ (by simp) (by simp)
    have named := @loop_named _ _ u arg ((u.items (store (.named arg))).length + 1) 0
      (Function.update store .scratch dup) h₁
    simp only [update_named, Function.update_self, List.drop_zero] at follows named
    obtain ⟨code, heap, set⟩ := follows rfl
    rw [← code, ← heap]
    refine ⟨rfl, rfl, fun n => ?_⟩
    split_ifs with ok same same
    · rw [same, Function.update_self, set ok]
    · rw [Function.update_of_ne (by simpa using same), named]
    · rw [named, same]
    · exact named n

theorem value_failed {cur arg : σ} {h : Heap} (failed : (u.value cur arg h).1.1 = false) :
    (u.value cur arg h).1.2 = cur := by
  revert failed
  rw [Update.value, bind_apply]
  obtain ⟨⟨ok, dup⟩, h₁⟩ := u.clone cur h
  cases ok with
  | false => exact fun _ => rfl
  | true =>
    simp only [if_true, bind_apply, pure_apply]
    intro failed
    rw [failed]
    rfl

theorem steady_loop (steady : ∀ s i, Steady (fun q => q.1 = true) (u.op s i)) (arg passes z : ℕ)
    (store : Store σ) : Steady (fun q => q.1 = true) (u.loop id arg passes z store) := by
  induction passes generalizing z store with
  | zero => exact steady_pure _
  | succ passes ih =>
    rw [Update.loop]
    cases (u.items (store (.named arg)))[z]? with
    | none => exact steady_pure _
    | some i =>
      simp only [struck_id]
      exact steady_then (steady _ _) (fun _ => ih _ _) fun dup => ⟨_, rfl⟩

theorem steady_run (copies : ∀ s, Steady (fun q => q.1 = true) (u.clone s))
    (steady : ∀ s i, Steady (fun q => q.1 = true) (u.op s i)) (cur arg : ℕ) (store : Store σ) :
    Steady (fun q => q.1 = true) (u.run id cur arg store) := by
  refine steady_then (copies _) (fun dup => ?_) fun dup => ⟨_, rfl⟩
  exact steady_then (steady_loop steady _ _ _ _) (fun _ => steady_pure _) fun store => ⟨_, rfl⟩

/-- If failed requests cannot change what a successful copy or step gives, the
whole call does all or nothing where its stores stay inside, and there alone. -/
theorem allOrNothing_iff [Nontrivial σ] (copies : ∀ s, Steady (fun q => q.1 = true) (u.clone s))
    (inside : ∀ s, Ensures Tame (u.clone s) (fun _ => Tame))
    (steady : ∀ s i, Steady (fun q => q.1 = true) (u.op s i))
    (remembers : ∀ s i, Remembers (u.op s i)) (cur arg : ℕ) (store : Store σ) :
    u.AllOrNothing cur arg store ↔
      ∀ h, Tame h → Tame (u.value (store (.named cur)) (store (.named arg)) h).2 := by
  constructor
  · intro all h tame
    refine Bool.eq_false_of_not_eq_true fun wild => ?_
    obtain ⟨s, ne⟩ := exists_ne (store (.named (cur + arg + 1)))
    have spares : Spares (Function.update · (.named (cur + arg + 1)) s) arg := fun store =>
      ⟨Function.update_of_ne (by simp) _ _, Function.update_of_ne (by simp; omega) _ _⟩
    have last := @run_overwrites _ _ u cur arg _ s (by omega) store h (inside _ h tame)
      ((congrArg Heap.wild (run_spares spares store h)).trans wild)
    obtain ⟨fails, does⟩ := all (Function.update · (.named (cur + arg + 1)) s) h tame
    refine ne (last.symm.trans ?_)
    cases ok : (u.run (Function.update · (.named (cur + arg + 1)) s) cur arg store h).1.1 with
    | false => exact fails ok _
    | true => exact (does ok).1 _ (by omega)
  · intro calm damage h tame
    obtain ⟨code, -, sets⟩ := @run_eq _ _ u damage remembers cur arg store h (calm h tame)
    refine ⟨fun failed n => ?_, fun ok => ⟨fun n other => ?_, fun h' served tame' => ?_⟩⟩
    · rw [sets, value_failed (code.symm.trans failed)]
      split_ifs with same
      · rw [same]
      · rfl
    · rw [sets, if_neg other]
    · rw [run_calm remembers (calm h tame)] at ok ⊢
      rw [run_calm remembers (calm h' tame')]
      exact (steady_run copies steady cur arg store h h' served).2 ok

end Libdank.ScratchCopy
