import Mathlib.Data.List.Basic
import Mathlib.Tactic

/-! Systems that take one action after another. An action that cannot be taken in
a state leads nowhere; a statement over all lists of actions ranges over every
interleaving of the parties that take them. -/
namespace Libdank.Transitions

variable {σ α : Type} (step : σ → α → Option σ)

def run (s : σ) : List α → Option σ
  | [] => some s
  | a :: rest => (step s a).bind fun s => run s rest

/-- Each action of the list meets `cond` in the state it is taken in. -/
def Along (cond : σ → α → Prop) (s : σ) : List α → Prop
  | [] => True
  | a :: rest => cond s a ∧ (step s a).elim True fun s' => Along cond s' rest

instance decidableAlong (cond : σ → α → Prop) [∀ s a, Decidable (cond s a)] (s : σ) :
    (actions : List α) → Decidable (Along step cond s actions)
  | [] => inferInstanceAs (Decidable True)
  | a :: rest =>
    have : Decidable ((step s a).elim True fun s' => Along step cond s' rest) :=
      match step s a with
      | none => inferInstanceAs (Decidable True)
      | some s' => decidableAlong cond s' rest
    inferInstanceAs (Decidable (cond s a ∧ (step s a).elim True fun s' => Along step cond s' rest))

variable {step}

/-- What every action that meets `cond` preserves holds wherever a run of such
actions leads. -/
theorem run_along {cond : σ → α → Prop} {inv : σ → Prop}
    (each : ∀ s a s', cond s a → inv s → step s a = some s' → inv s') {s s' : σ}
    {actions : List α} (start : inv s) (along : Along step cond s actions)
    (reached : run step s actions = some s') : inv s' := by
  induction actions generalizing s with
  | nil =>
    obtain rfl := Option.some.inj reached
    exact start
  | cons a rest ih =>
    cases next : step s a with
    | none => simp [run, next] at reached
    | some t =>
      obtain ⟨now, later⟩ := along
      rw [next, Option.elim_some] at later
      simp only [run, next, Option.bind_some] at reached
      exact ih (each s a t now start next) later reached

/-- Two conditions that agree wherever `inv` holds, which every action that meets
them preserves, are met along the same runs. -/
theorem along_congr {cond cond' : σ → α → Prop} {inv : σ → Prop}
    (each : ∀ s a, inv s → (cond s a ↔ cond' s a))
    (keep : ∀ s a s', inv s → cond' s a → step s a = some s' → inv s') {s : σ} (start : inv s)
    (actions : List α) : Along step cond s actions ↔ Along step cond' s actions := by
  induction actions generalizing s with
  | nil => exact Iff.rfl
  | cons a rest ih =>
    rw [Along, Along, each s a start]
    refine and_congr_right fun now => ?_
    cases next : step s a with
    | none => exact Iff.rfl
    | some s' => exact ih (keep s a s' start now next)

theorem along_iff_forall {p : α → Prop} {s s' : σ} {actions : List α} (ran : run step s actions = some s') :
    Along step (fun _ a => p a) s actions ↔ ∀ a ∈ actions, p a := by
  induction actions generalizing s with
  | nil => exact iff_of_true trivial nofun
  | cons a rest ih =>
    obtain ⟨t, next, ran⟩ := Option.bind_eq_some_iff.mp ran
    rw [Along, next, Option.elim_some, ih ran, List.forall_mem_cons]

theorem along_trivial (s : σ) (actions : List α) : Along step (fun _ _ => True) s actions := by
  induction actions generalizing s with
  | nil => trivial
  | cons a rest ih =>
    refine ⟨trivial, ?_⟩
    cases step s a with
    | none => trivial
    | some s' => exact ih s'

theorem run_invariant {inv : σ → Prop} (each : ∀ s a s', inv s → step s a = some s' → inv s')
    {s s' : σ} {actions : List α} (start : inv s) (reached : run step s actions = some s') : inv s' :=
  run_along (fun s a s' _ => each s a s') start (along_trivial s actions) reached

/-- Where one action keeps `good` just when it meets `cond`, a run ends in `good` just when each
of its actions meets `cond`. -/
theorem run_good_iff {inv good : σ → Prop} {cond : σ → α → Prop}
    (each : ∀ s a s', inv s → step s a = some s' → inv s' ∧ (good s' ↔ good s ∧ cond s a)) {s s' : σ}
    {actions : List α} (start : inv s) (reached : run step s actions = some s') :
    good s' ↔ good s ∧ Along step cond s actions := by
  induction actions generalizing s with
  | nil =>
    obtain rfl := Option.some.inj reached
    exact (and_iff_left trivial).symm
  | cons a rest ih =>
    obtain ⟨t, next, reached⟩ := Option.bind_eq_some_iff.mp reached
    obtain ⟨kept, now⟩ := each s a t start next
    rw [ih kept reached, now, Along, next, Option.elim_some, and_assoc]

/-- Where one action of a state that is `good` keeps it so just when it meets `cond`, a run is in `good`
all the way just when each of its actions meets `cond`. -/
theorem always_good_iff {inv good : σ → Prop} {cond : σ → α → Prop}
    (each : ∀ s a s', inv s → good s → step s a = some s' → inv s' ∧ (good s' ↔ cond s a)) {s s' : σ}
    {actions : List α} (start : inv s) (now : good s) (reached : run step s actions = some s') :
    (∀ n t, run step s (actions.take n) = some t → good t) ↔ Along step cond s actions := by
  induction actions generalizing s with
  | nil =>
    refine iff_of_true (fun n t there => ?_) trivial
    rw [List.take_nil] at there
    obtain rfl := Option.some.inj there
    exact now
  | cons a rest ih =>
    obtain ⟨m, next, reached⟩ := Option.bind_eq_some_iff.mp reached
    obtain ⟨kept, here⟩ := each s a m start now next
    rw [Along, next, Option.elim_some]
    constructor
    · intro always
      have good' : good m := always 1 m (by simp [run, next])
      refine ⟨here.mp good', (ih kept good' reached).mp fun n t there => always (n + 1) t ?_⟩
      rw [List.take_succ_cons, run, next]
      exact there
    · rintro ⟨meets, later⟩ n t there
      cases n with
      | zero =>
        obtain rfl := Option.some.inj there
        exact now
      | succ n =>
        rw [List.take_succ_cons, run, next] at there
        exact (ih kept (here.mpr meets) reached).mpr later n t there

section Holders

/-! Which party holds what, as a list of pairs with a party in at most one. -/

variable {κ β : Type} [DecidableEq κ]

theorem perm_of_lookup {k : κ} {v : β} {l : List (κ × β)} (parties : (l.map Prod.fst).Nodup)
    (held : l.lookup k = some v) : l.Perm ((k, v) :: l.filter fun p => p.1 ≠ k) := by
  induction l with
  | nil => simp at held
  | cons p l ih =>
    obtain ⟨k', v'⟩ := p
    rw [List.map_cons, List.nodup_cons] at parties
    by_cases here : k = k'
    · subst here
      obtain rfl : v' = v := by simpa using held
      have others : l.filter (fun p => p.1 ≠ k) = l := by
        refine List.filter_eq_self.mpr fun p hp => decide_eq_true fun same => parties.1 ?_
        exact List.mem_map.mpr ⟨p, hp, same⟩
      rw [List.filter_cons_of_neg (by simp), others]
    · have there : l.lookup k = some v := by
        rwa [List.lookup_cons, beq_eq_false_iff_ne.mpr here] at held
      rw [List.filter_cons_of_pos (by simpa using Ne.symm here)]
      exact ((ih parties.2 there).cons (k', v')).trans (List.Perm.swap _ _ _)

theorem not_mem_of_lookup {k : κ} {l : List (κ × β)} (free : ¬ (l.lookup k).isSome) :
    k ∉ l.map Prod.fst := by
  intro mem
  obtain ⟨p, hp, rfl⟩ := List.mem_map.mp mem
  refine free ?_
  rw [Option.isSome_iff_ne_none, ne_eq, List.lookup_eq_none_iff]
  intro none_
  simpa using none_ p hp

variable {k : κ} {v : β} {l : List (κ × β)}

def put (k : κ) (v : β) (l : List (κ × β)) : List (κ × β) := (k, v) :: l.filter fun p => p.1 ≠ k

theorem lookup_put : (put k v l).lookup k = some v := List.lookup_cons_self

theorem parties_others (parties : (l.map Prod.fst).Nodup) :
    ((l.filter fun p => p.1 ≠ k).map Prod.fst).Nodup :=
  parties.sublist (List.filter_sublist.map _)

theorem parties_put (parties : (l.map Prod.fst).Nodup) : ((put k v l).map Prod.fst).Nodup := by
  refine List.nodup_cons.mpr ⟨fun mem => ?_, parties_others parties⟩
  obtain ⟨p, hp, same⟩ := List.mem_map.mp mem
  have apart : p.1 ≠ k := by simpa using List.of_mem_filter hp
  exact apart same

variable {ι : Type} (items : β → List ι)

def shares (l : List (κ × β)) : Multiset ι := ↑(l.flatMap fun p => items p.2)

theorem shares_put : shares items (put k v l) = ↑(items v) + shares items (l.filter fun p => p.1 ≠ k) := by
  rw [put, shares, List.flatMap_cons, ← Multiset.coe_add]
  rfl

theorem shares_split (parties : (l.map Prod.fst).Nodup) (k : κ) :
    shares items l = ↑((l.lookup k).elim [] items) + shares items (l.filter fun p => p.1 ≠ k) := by
  cases held : l.lookup k with
  | none =>
    have others : l.filter (fun p => p.1 ≠ k) = l := by
      refine List.filter_eq_self.mpr fun p hp => decide_eq_true fun same => ?_
      have free : ¬ (l.lookup k).isSome := by simp [held]
      exact not_mem_of_lookup free (List.mem_map.mpr ⟨p, hp, same⟩)
    rw [others]
    exact (zero_add _).symm
  | some v =>
    rw [shares, Multiset.coe_eq_coe.mpr ((perm_of_lookup parties held).flatMap_right _), List.flatMap_cons,
      ← Multiset.coe_add]
    rfl

end Holders

end Libdank.Transitions
