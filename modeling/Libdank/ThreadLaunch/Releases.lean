import Libdank.ThreadLaunch.Operations

/-! Who releases the wrapper. At any time one of the two threads has still to do
it, or it has been done. -/
namespace Libdank.ThreadLaunch
open Transitions

def Finished (s : Launch) : Prop := s.creator = .done ∧ (s.spawned = .unborn ∨ s.spawned = .ended)

/-- The wrapper is not used once it has been released, and in the end it has been
released once. -/
structure Safe (s : Launch) : Prop where
  tame : s.wild = false
  once : s.releases ≤ 1
  finished : Finished s → s.releases = 1

def Creator.owes (detached : Bool) : Creator → ℕ
  | .confirming => if detached then 0 else 1
  | .done => 0
  | .creating | .joining _ | .removing _ | .unlinked _ | .freeing => 1

def Spawned.owes (detached : Bool) : Spawned → ℕ
  | .unborn | .ended => 0
  | _ => if detached then 1 else 0

/-- Where the two threads can be at the same time, and what they have told each
other by then. -/
def Agree (detached able : Bool) (s : Launch) : Prop :=
  match s.creator, s.spawned with
  | .creating, .unborn => s.state = .created
  | .freeing, .unborn | .done, .unborn => True
  | .confirming, .starting | .confirming, .settingUp => s.state = .created
  | .confirming, .reporting ok => s.state = .created ∧ ok = able ∧ s.registered = able
  | .confirming, .running => able = true ∧ s.state = .ready ∧ s.registered = able
  | .confirming, .awaiting => s.state = (if able then .ready else .failed) ∧ s.registered = able
  | .joining failed, .running =>
    detached = false ∧ failed = !able ∧ s.registered = able ∧ s.state = .confirmedLaunched
  | .joining failed, .awaiting =>
    detached = false ∧ failed = !able ∧ s.registered = able ∧ s.state = .confirmedLaunched
  | .joining failed, .departing | .joining failed, .ended =>
    detached = false ∧ failed = !able ∧ s.registered = able
  | .removing failed, .ended => detached = false ∧ failed = !able ∧ s.registered = able
  | .unlinked failed, .ended => failed = false
  | .freeing, .ended => able = false
  | .done, .ended => True
  | .done, .running | .done, .awaiting =>
    detached = true ∧ s.registered = true ∧ s.state = .confirmedLaunched
  | .done, .departing | .done, .removing => detached = true ∧ s.registered = true
  | .done, .unlinked => detached = true
  | _, _ => False

structure Sound (detached able : Bool) (s : Launch) : Prop where
  tame : s.wild = false
  ledger : s.releases + s.creator.owes detached + s.spawned.owes detached = 1
  agree : Agree detached able s

variable {detached able : Bool}

theorem sound_start : Sound detached able start := ⟨rfl, rfl, rfl⟩

theorem touch_kept (c : Creator) (p : Spawned) (st : TracedThreadState) (reg : Bool) :
    Launch.touch ⟨c, p, st, reg, 0, false⟩ = ⟨c, p, st, reg, 0, false⟩ := rfl

theorem creator_kept {s : Launch} (h : Sound detached able s) (busy : s.creator ≠ .done) :
    s.releases = 0 := by
  obtain ⟨c, p, st, reg, rel, wild⟩ := s
  obtain ⟨-, ledger, agree⟩ := h
  cases c with
  | done => exact absurd rfl busy
  | confirming =>
    cases p <;> simp only [Agree] at agree <;> cases detached <;>
      exact Nat.succ.inj ledger
  | creating | joining | removing | unlinked | freeing =>
    simp only [Creator.owes] at ledger ⊢
    omega

theorem spawned_kept {s : Launch} (h : Sound detached able s)
    (busy : s.spawned ≠ .unborn ∧ s.spawned ≠ .ended) : s.releases = 0 := by
  by_cases working : s.creator = .done
  · obtain ⟨c, p, st, reg, rel, wild⟩ := s
    obtain ⟨-, ledger, agree⟩ := h
    simp only at working
    subst working
    cases p <;> simp only [Agree, ne_eq, not_true_eq_false, and_false, false_and] at agree busy <;>
      simp only [agree, Creator.owes, Spawned.owes, if_true] at ledger ⊢ <;> omega
  · exact creator_kept h working

theorem agree_told {p : Spawned} {st : TracedThreadState} {reg : Bool} {rel : ℕ} {wild : Bool}
    (agree : Agree detached able ⟨.confirming, p, st, reg, rel, wild⟩) (told : st ≠ .created) :
    st = (if able then .ready else .failed) ∧ reg = able ∧ (p = .running ∨ p = .awaiting) := by
  cases p with
  | running =>
    obtain ⟨rfl, rfl, rfl⟩ := agree
    exact ⟨rfl, rfl, .inl rfl⟩
  | awaiting => exact ⟨agree.1, agree.2, .inr rfl⟩
  | starting | settingUp => exact absurd agree told
  | reporting ok => exact absurd agree.1 told
  | unborn | departing | removing | unlinked | freeing | ended => exact False.elim agree

theorem creator_sound (launched : detached = true → able = true) {made : Bool} {s t : Launch}
    (h : Sound detached able s) (next : creatorStep detached made s = some t) :
    Sound detached able t := by
  have kept := creator_kept h
  obtain ⟨c, p, st, reg, rel, wild⟩ := s
  obtain ⟨tame, ledger, agree⟩ := h
  simp only at tame kept
  subst tame
  cases c with
  | creating =>
    obtain rfl := kept (by simp)
    cases p <;> simp only [Agree] at agree
    cases made with
    | true =>
      obtain rfl := Option.some.inj next
      refine ⟨rfl, ?_, agree⟩
      cases detached <;> rfl
    | false =>
      obtain rfl := Option.some.inj next
      exact ⟨rfl, rfl, trivial⟩
  | confirming =>
    obtain rfl := kept (by simp)
    simp only [creatorStep, touch_kept] at next
    split at next
    · obtain rfl := Option.some.inj next
      exact ⟨rfl, ledger, agree⟩
    · rename_i told
      obtain ⟨rfl, rfl, waits⟩ := agree_told agree told
      cases detached with
      | true =>
        -- The creating thread keeps out of it, as the launch did not fail.
        obtain rfl := launched rfl
        obtain rfl := Option.some.inj next
        rcases waits with rfl | rfl <;> exact ⟨rfl, rfl, rfl, rfl, rfl⟩
      | false =>
        obtain rfl := Option.some.inj next
        rcases waits with rfl | rfl <;> cases reg <;> exact ⟨rfl, rfl, rfl, rfl, rfl, rfl⟩
  | joining failed =>
    simp only [creatorStep] at next
    split at next
    · rename_i ended
      subst ended
      obtain rfl := Option.some.inj next
      exact ⟨rfl, ledger, agree⟩
    · simp at next
  | removing failed =>
    obtain rfl := kept (by simp)
    cases p <;> simp only [Agree] at agree
    obtain ⟨-, rfl, rfl⟩ := agree
    cases reg with
    | true =>
      obtain rfl := Option.some.inj next
      exact ⟨rfl, rfl, rfl⟩
    | false =>
      obtain rfl := Option.some.inj next
      exact ⟨rfl, rfl, rfl⟩
  | unlinked failed =>
    obtain rfl := kept (by simp)
    cases p <;> simp only [Agree] at agree
    subst agree
    obtain rfl := Option.some.inj next
    exact ⟨rfl, rfl, trivial⟩
  | freeing =>
    obtain rfl := kept (by simp)
    obtain rfl := Option.some.inj next
    cases p <;> simp only [Agree] at agree <;> exact ⟨rfl, rfl, trivial⟩
  | done => cases next

theorem spawned_sound {s t : Launch} (h : Sound detached able s)
    (next : spawnedStep detached able s = some t) : Sound detached able t := by
  have kept := spawned_kept h
  obtain ⟨c, p, st, reg, rel, wild⟩ := s
  obtain ⟨tame, ledger, agree⟩ := h
  simp only at tame kept
  subst tame
  cases p with
  | unborn | ended => cases next
  | starting =>
    obtain rfl := kept (by simp)
    obtain rfl := Option.some.inj next
    cases c <;> simp only [Agree] at agree
    exact ⟨rfl, ledger, agree⟩
  | settingUp =>
    obtain rfl := kept (by simp)
    obtain rfl := Option.some.inj next
    cases c <;> simp only [Agree] at agree
    exact ⟨rfl, ledger, agree, rfl, rfl⟩
  | reporting ok =>
    obtain rfl := kept (by simp)
    cases c <;> simp only [Agree] at agree
    obtain ⟨-, rfl, rfl⟩ := agree
    cases reg with
    | true =>
      obtain rfl := Option.some.inj next
      exact ⟨rfl, ledger, rfl, rfl, rfl⟩
    | false =>
      obtain rfl := Option.some.inj next
      exact ⟨rfl, ledger, rfl, rfl⟩
  | running =>
    obtain rfl := kept (by simp)
    obtain rfl := Option.some.inj next
    cases c <;> simp only [Agree] at agree
    · obtain ⟨rfl, rfl, rfl⟩ := agree
      exact ⟨rfl, ledger, rfl, rfl⟩
    · exact ⟨rfl, ledger, agree⟩
    · exact ⟨rfl, ledger, agree⟩
  | awaiting =>
    obtain rfl := kept (by simp)
    simp only [spawnedStep, touch_kept] at next
    split at next
    · rename_i confirmed
      subst confirmed
      obtain rfl := Option.some.inj next
      cases c <;> simp only [Agree] at agree
      · cases able <;> cases agree.1
      · exact ⟨rfl, ledger, agree.1, agree.2.1, agree.2.2.1⟩
      · exact ⟨rfl, ledger, agree.1, agree.2.1⟩
    · obtain rfl := Option.some.inj next
      exact ⟨rfl, ledger, agree⟩
  | departing =>
    obtain rfl := kept (by simp)
    obtain rfl := Option.some.inj next
    cases c <;> simp only [Agree] at agree
    · obtain ⟨rfl, rfl, rfl⟩ := agree
      exact ⟨rfl, rfl, rfl, rfl, rfl⟩
    · obtain ⟨rfl, rfl⟩ := agree
      exact ⟨rfl, rfl, rfl, rfl⟩
  | removing =>
    obtain rfl := kept (by simp)
    cases c <;> simp only [Agree] at agree
    obtain ⟨rfl, rfl⟩ := agree
    obtain rfl := Option.some.inj next
    exact ⟨rfl, rfl, rfl⟩
  | unlinked =>
    obtain rfl := kept (by simp)
    obtain rfl := Option.some.inj next
    cases c <;> simp only [Agree] at agree
    exact ⟨rfl, rfl, trivial⟩
  | freeing => cases c <;> exact False.elim agree

theorem Sound.safe {s : Launch} (h : Sound detached able s) : Safe s := by
  have ledger := h.ledger
  refine ⟨h.tame, by omega, fun finished => ?_⟩
  obtain ⟨creator, spawned⟩ := finished
  rcases spawned with spawned | spawned <;>
    simpa only [creator, spawned, Creator.owes, Spawned.owes, Nat.add_zero] using ledger

theorem Sound.join_releases {s t : Launch} {a : Action} (h : Sound false true s)
    (next : step false true s a = some t) (releases : t.releases ≠ s.releases) :
    s.spawned = .unborn ∨ s.creator = .unlinked false := by
  obtain ⟨c, p, st, reg, rel, wild⟩ := s
  obtain ⟨-, -, agree⟩ := h
  cases a with
  | creator made =>
    cases c with
    | unlinked failed =>
      cases p <;> simp only [Agree] at agree
      exact .inr (congrArg Creator.unlinked agree)
    | freeing =>
      cases p <;> simp only [Agree] at agree
      · exact .inl rfl
      · cases agree
    | done => cases next
    | creating | confirming | joining | removing =>
      simp only [step, creatorStep, Launch.touch] at next
      split_ifs at next <;> cases next <;> exact absurd rfl releases
  | spawned =>
    cases p with
    | unlinked | freeing => cases c <;> simp [Agree] at agree
    | unborn => exact .inl rfl
    | ended => cases next
    | starting | settingUp | running =>
      cases next
      exact absurd rfl releases
    | reporting | awaiting | departing | removing =>
      simp only [step, spawnedStep, Launch.touch] at next
      split_ifs at next <;> cases next <;> exact absurd rfl releases

theorem sound_step (launched : detached = true → able = true) (s : Launch) (a : Action) (t : Launch)
    (h : Sound detached able s) (next : step detached able s a = some t) : Sound detached able t := by
  cases a with
  | creator made => exact creator_sound launched h next
  | spawned => exact spawned_sound h next

theorem sound_run (launched : detached = true → able = true) {actions : List Action} {s : Launch}
    (reached : run (step detached able) start actions = some s) : Sound detached able s :=
  run_invariant (sound_step launched) sound_start reached

def Creator.ahead : Creator → ℕ
  | .creating => 6
  | .confirming => 5
  | .joining _ => 4
  | .removing _ => 3
  | .unlinked _ => 2
  | .freeing => 1
  | .done => 0

def Spawned.ahead : Spawned → ℕ
  | .unborn => 9
  | .starting => 8
  | .settingUp => 7
  | .reporting _ => 6
  | .running => 5
  | .awaiting => 4
  | .departing => 3
  | .removing => 2
  | .unlinked | .freeing => 1
  | .ended => 0

def Launch.ahead (s : Launch) : ℕ := s.creator.ahead + s.spawned.ahead

/-- One of the threads can go on. -/
theorem sound_goes_on {s : Launch} (h : Sound detached able s) (unfinished : ¬ Finished s) :
    ∃ a t, step detached able s a = some t ∧ t.ahead < s.ahead := by
  obtain ⟨c, p, st, reg, rel, wild⟩ := s
  obtain ⟨-, -, agree⟩ := h
  cases c with
  | creating =>
    cases p <;> simp only [Agree] at agree
    exact ⟨.creator true, _, rfl, Nat.le_of_ble_eq_true rfl⟩
  | confirming =>
    by_cases told : st = .created
    · subst told
      cases p <;> simp only [Agree] at agree
      · exact ⟨.spawned, _, rfl, Nat.le_of_ble_eq_true rfl⟩
      · exact ⟨.spawned, _, rfl, Nat.le_of_ble_eq_true rfl⟩
      · rename_i ok
        cases ok <;> exact ⟨.spawned, _, rfl, Nat.le_of_ble_eq_true rfl⟩
      · exact absurd agree.2.1 (by decide)
      · cases able <;> exact absurd agree.1 (by decide)
    · obtain ⟨rfl, rfl, waits⟩ := agree_told agree told
      cases detached <;> cases reg <;> rcases waits with rfl | rfl <;>
        exact ⟨.creator true, _, rfl, Nat.le_of_ble_eq_true rfl⟩
  | joining failed =>
    cases p <;> simp only [Agree] at agree
    · exact ⟨.spawned, _, rfl, Nat.le_of_ble_eq_true rfl⟩
    · obtain ⟨-, -, -, rfl⟩ := agree
      exact ⟨.spawned, _, rfl, Nat.le_of_ble_eq_true rfl⟩
    · obtain ⟨rfl, -⟩ := agree
      exact ⟨.spawned, _, rfl, Nat.le_of_ble_eq_true rfl⟩
    · exact ⟨.creator true, _, rfl, Nat.le_of_ble_eq_true rfl⟩
  | removing failed =>
    cases p <;> simp only [Agree] at agree
    cases reg <;> cases failed <;> exact ⟨.creator true, _, rfl, Nat.le_of_ble_eq_true rfl⟩
  | unlinked failed =>
    cases p <;> simp only [Agree] at agree
    cases failed <;> exact ⟨.creator true, _, rfl, Nat.le_of_ble_eq_true rfl⟩
  | freeing =>
    cases p <;> simp only [Agree] at agree <;>
      exact ⟨.creator true, _, rfl, Nat.le_of_ble_eq_true rfl⟩
  | done =>
    cases p <;> simp only [Agree] at agree
    · exact absurd ⟨rfl, .inl rfl⟩ unfinished
    · exact ⟨.spawned, _, rfl, Nat.le_of_ble_eq_true rfl⟩
    · obtain ⟨-, -, rfl⟩ := agree
      exact ⟨.spawned, _, rfl, Nat.le_of_ble_eq_true rfl⟩
    · obtain ⟨rfl, -⟩ := agree
      exact ⟨.spawned, _, rfl, Nat.le_of_ble_eq_true rfl⟩
    · obtain ⟨-, rfl⟩ := agree
      exact ⟨.spawned, _, rfl, Nat.le_of_ble_eq_true rfl⟩
    · exact ⟨.spawned, _, rfl, Nat.le_of_ble_eq_true rfl⟩
    · exact absurd ⟨rfl, .inr rfl⟩ unfinished

theorem sound_finishes (launched : detached = true → able = true) (n : ℕ) (s : Launch)
    (h : Sound detached able s) (bound : s.ahead ≤ n) :
    ∃ actions t, run (step detached able) s actions = some t ∧ Finished t := by
  induction n generalizing s with
  | zero =>
    by_cases finished : Finished s
    · exact ⟨[], s, rfl, finished⟩
    · obtain ⟨a, t, -, less⟩ := sound_goes_on h finished
      omega
  | succ n ih =>
    by_cases finished : Finished s
    · exact ⟨[], s, rfl, finished⟩
    · obtain ⟨a, t, next, less⟩ := sound_goes_on h finished
      obtain ⟨actions, u, reached, ended⟩ := ih t (sound_step launched s a t h next) (by omega)
      exact ⟨a :: actions, u, by rw [run, next, Option.bind_some, reached], ended⟩

def failedDetachedRun : List Action :=
  [.creator true, .spawned, .spawned, .spawned, .creator true, .spawned, .spawned, .spawned, .spawned,
    .creator true]

theorem failed_detached_releases_twice :
    ∃ s, run (step true false) start failedDetachedRun = some s ∧ Finished s ∧ s.releases = 2 ∧
      s.wild = true :=
  ⟨⟨.done, .ended, .confirmedLaunched, false, 2, true⟩, rfl, ⟨rfl, .inr rfl⟩, rfl, rfl⟩

/-- Every interleaving is safe and can be brought to its end, and only a join releases
the wrapper of a joinable thread that was launched, just when the thread is not a
detached one whose `setup_sigstack` fails. -/
theorem released_once_iff (detached able : Bool) :
    (∀ actions s, run (step detached able) start actions = some s →
      Safe s ∧ (∃ more t, run (step detached able) s more = some t ∧ Finished t) ∧
      (detached = false → able = true → ∀ a t, step detached able s a = some t →
        t.releases ≠ s.releases → s.spawned = .unborn ∨ s.creator = .unlinked false)) ↔
    ¬ (detached = true ∧ able = false) := by
  constructor
  · rintro safe ⟨rfl, rfl⟩
    have once := (safe failedDetachedRun _ rfl).1.once
    exact absurd once (by decide)
  · intro launches actions s reached
    have launched : detached = true → able = true := fun apart =>
      Bool.not_eq_false _ ▸ fun fails => launches ⟨apart, fails⟩
    have h := sound_run launched reached
    refine ⟨h.safe, sound_finishes launched s.ahead s h le_rfl, fun joinable fine a t next => ?_⟩
    subst joinable fine
    exact h.join_releases next

end Libdank.ThreadLaunch
