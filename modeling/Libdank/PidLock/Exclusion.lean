import Libdank.PidLock.Operations

/-! Who holds the lock. A process that has created the lock file and not given it
up owns it, and as long as nobody purges the file of a live process the file at
the path is that of every owner. -/
namespace Libdank.PidLock
open Parse Lexers Requests Transitions

/-- From the exclusive create on until the lock is given up. -/
def Phase.Owns : Phase → Prop
  | .created _ => True
  | .unwritten => True
  | .holding => True
  | _ => False

def Lives (s : System) (i : ℕ) (phases : Phase → Prop) : Prop :=
  ∃ p, s.procs[i]? = some p ∧ p.alive = true ∧ phases p.phase

/-- At most one live process has had `open_exclusive_pidlock` return 0 and has
not purged its lock file since. -/
def Exclusive (s : System) : Prop :=
  ∀ i j, Lives s i (· = .holding) → Lives s j (· = .holding) → i = j

/-- The lock file is that of every live owner. -/
def Owned (s : System) : Prop :=
  ∀ i, Lives s i Phase.Owns → ∃ file, s.lock = some file ∧ file.creator = some i

/-- A lock purged as stale is not that of a live process. -/
def Deserted (s : System) : Action → Prop
  | .call _ (.purge true) => ∀ i ∈ s.lock.bind (·.creator), ¬ Lives s i fun _ => True
  | _ => True

instance (s : System) (i : ℕ) (phases : Phase → Prop) [DecidablePred phases] :
    Decidable (Lives s i phases) :=
  decidable_of_iff ((s.procs[i]?).any fun p => p.alive && decide (phases p.phase)) <| by
    cases here : s.procs[i]? <;> simp [Lives, here]

instance (s : System) : (a : Action) → Decidable (Deserted s a)
  | .spawn _ _ => inferInstanceAs (Decidable True)
  | .call _ c =>
    match c with
    | .purge true =>
      inferInstanceAs (Decidable (∀ i ∈ s.lock.bind (·.creator), ¬ Lives s i fun _ => True))
    | .purge false | .create _ | .readPid _ _ | .check _ | .recreate _ | .writePid _ _ | .abandon | .release | .die =>
      inferInstanceAs (Decidable True)

theorem Owned.exclusive {s : System} (h : Owned s) : Exclusive s := by
  intro i j hi hj
  have owns {k : ℕ} (hk : Lives s k (· = .holding)) : Lives s k Phase.Owns := by
    obtain ⟨p, here, alive, holding⟩ := hk
    exact ⟨p, here, alive, by rw [holding]; trivial⟩
  obtain ⟨file, lock, creator⟩ := h i (owns hi)
  obtain ⟨file', lock', creator'⟩ := h j (owns hj)
  obtain rfl : file = file' := Option.some.inj (lock.symm.trans lock')
  exact Option.some.inj (creator.symm.trans creator')

theorem owned_start (left : Option Text) : Owned (start left) := by
  intro i h
  obtain ⟨p, here, -⟩ := h
  simp [start] at here

theorem lives_set {s t : System} {i j : ℕ} {p : Process} {phases : Phase → Prop}
    (procs : t.procs = s.procs.set i p) (h : Lives t j phases) :
    (j = i ∧ p.alive = true ∧ phases p.phase) ∨ (j ≠ i ∧ Lives s j phases) := by
  obtain ⟨q, here, alive, ok⟩ := h
  rw [procs] at here
  by_cases same : j = i
  · subst same
    obtain ⟨inside, rfl⟩ : j < s.procs.length ∧ p = q := by simpa [List.getElem?_set] using here
    exact .inl ⟨rfl, alive, ok⟩
  · rw [List.getElem?_set_ne (Ne.symm same)] at here
    exact .inr ⟨same, q, here, alive, ok⟩

inductive Moves (s : System) (i : ℕ) (p : Process) : Call → System → Prop
  /-- It finds no lock file and makes one. -/
  | makes {c : Call} {t : System} (inode : ℕ) (phase : Phase) (free : s.lock = none)
      (lock : t.lock = some ⟨inode, [], some i⟩)
      (procs : t.procs = s.procs.set i { p with phase := phase }) : Moves s i p c t
  /-- It goes on, and owns the file only if it did before. -/
  | goes {c : Call} {t : System} (phase : Phase)
      (lock : t.lock.map (·.creator) = s.lock.map (·.creator)) (owns : phase.Owns → p.phase.Owns)
      (procs : t.procs = s.procs.set i { p with phase := phase }) : Moves s i p c t
  /-- It gives up the lock it owns. -/
  | leaves {c : Call} {t : System} (owned : p.phase.Owns)
      (procs : t.procs = s.procs.set i { p with phase := .out }) : Moves s i p c t
  | purges {t : System} (procs : t.procs = s.procs.set i { p with phase := .purged }) :
      Moves s i p (.purge true) t
  | dies {t : System} (lock : t.lock = s.lock)
      (procs : t.procs = s.procs.set i { p with alive := false }) : Moves s i p .die t

theorem map_creator_writeFile (lock : Option LockFile) (inode : ℕ) (text : Text) :
    (writeFile lock inode text).map (·.creator) = lock.map (·.creator) := by
  cases lock with
  | none => rfl
  | some file =>
    simp only [writeFile, Option.map_some, Option.some.injEq]
    split <;> rfl

theorem openExclusive_makes {s t : System} {i : ℕ} (h : openExclusive s i = some t) :
    s.lock = none ∧ t = { s with lock := some ⟨s.inodes, [], some i⟩, inodes := s.inodes + 1 } := by
  unfold openExclusive at h
  split at h
  · simp at h
  · exact ⟨‹_›, (Option.some.inj h).symm⟩

theorem act_moves {cmd : Pointer Text} {s t : System} {i : ℕ} {p : Process} {c : Call}
    (h : act cmd s i p p.phase c = some t) : Moves s i p c t := by
  generalize phase : p.phase = ph at h
  unfold act at h
  split at h
  · -- create
    split at h
    · cases made : openExclusive s i with
      | none =>
        rw [made] at h
        obtain rfl := Option.some.inj h
        exact .goes .found rfl (fun h => False.elim h) rfl
      | some u =>
        rw [made] at h
        obtain ⟨free, rfl⟩ := openExclusive_makes made
        obtain rfl := Option.some.inj h
        exact .makes s.inodes _ free rfl rfl
    · obtain rfl := Option.some.inj h
      exact .goes .out rfl (fun h => False.elim h) rfl
  · -- readPid
    obtain rfl := Option.some.inj h
    refine .goes _ rfl (fun h => ?_) rfl
    exact False.elim h
  · -- check
    obtain rfl := Option.some.inj h
    refine .goes _ rfl (fun h => ?_) rfl
    split at h <;> exact False.elim h
  · -- purge
    obtain rfl := Option.some.inj h
    rename_i able
    cases able with
    | true => exact .purges rfl
    | false => exact .goes .purged rfl (fun h => False.elim h) rfl
  · -- recreate
    cases made : openExclusive s i with
    | none =>
      rw [made] at h
      obtain rfl := Option.some.inj h
      exact .goes .out rfl (fun h => False.elim h) rfl
    | some u =>
      rw [made] at h
      simp only at h
      split at h
      · obtain ⟨free, rfl⟩ := openExclusive_makes made
        obtain rfl := Option.some.inj h
        exact .makes s.inodes _ free rfl rfl
      · obtain rfl := Option.some.inj h
        exact .goes .out rfl (fun h => False.elim h) rfl
  · -- writePid
    have owns : p.phase.Owns := by rw [phase]; trivial
    simp only at h
    split at h
    · obtain rfl := Option.some.inj h
      exact .goes .holding (map_creator_writeFile _ _ _) (fun _ => owns) rfl
    · obtain rfl := Option.some.inj h
      exact .goes .unwritten (map_creator_writeFile _ _ _) (fun _ => owns) rfl
  · -- abandon
    obtain rfl := Option.some.inj h
    exact .leaves (by rw [phase]; trivial) rfl
  · -- release
    obtain rfl := Option.some.inj h
    exact .leaves (by rw [phase]; trivial) rfl
  · -- die
    obtain rfl := Option.some.inj h
    exact .dies rfl rfl
  · simp at h

theorem owned_spawn {s : System} (h : Owned s) (pid : ℕ) (argv0 : Text) :
    Owned { s with procs := s.procs ++ [⟨pid, argv0, true, .out⟩] } := by
  intro j lives
  obtain ⟨q, here, alive, owns⟩ := lives
  rw [List.getElem?_append] at here
  split at here
  · exact h j ⟨q, here, alive, owns⟩
  · rw [List.getElem?_singleton] at here
    split at here
    · obtain rfl := Option.some.inj here
      exact False.elim owns
    · simp at here

theorem owned_moves {s t : System} {i : ℕ} {p : Process} {c : Call} (h : Owned s)
    (self : p.phase.Owns → Lives s i Phase.Owns) (deserted : Deserted s (.call i c))
    (moves : Moves s i p c t) : Owned t := by
  cases moves with
  | makes inode phase free lock procs =>
    intro j lives
    rcases lives_set procs lives with ⟨rfl, -⟩ | ⟨-, before⟩
    · exact ⟨_, lock, rfl⟩
    · obtain ⟨file, some_, -⟩ := h j before
      simp [free] at some_
  | goes phase lock owns procs =>
    intro j lives
    have before : Lives s j Phase.Owns := by
      rcases lives_set procs lives with ⟨rfl, -, now⟩ | ⟨-, before⟩
      · exact self (owns now)
      · exact before
    obtain ⟨file, some_, creator⟩ := h j before
    rw [some_, Option.map_some, Option.map_eq_some_iff] at lock
    obtain ⟨file', some_', same⟩ := lock
    exact ⟨file', some_', same.trans creator⟩
  | leaves owned procs =>
    intro j lives
    obtain ⟨file, some_, creator⟩ := h i (self owned)
    rcases lives_set procs lives with ⟨rfl, -, now⟩ | ⟨other, before⟩
    · exact False.elim now
    · obtain ⟨file', some_', creator'⟩ := h j before
      obtain rfl : file = file' := Option.some.inj (some_.symm.trans some_')
      exact absurd (Option.some.inj (creator'.symm.trans creator)) other
  | purges procs =>
    intro j lives
    rcases lives_set procs lives with ⟨rfl, -, now⟩ | ⟨-, before⟩
    · exact False.elim now
    · obtain ⟨file, some_, creator⟩ := h j before
      obtain ⟨q, there, lives, -⟩ := before
      have mem : j ∈ s.lock.bind (·.creator) := by rw [some_]; exact creator
      exact absurd ⟨q, there, lives, trivial⟩ (deserted j mem)
  | dies lock procs =>
    intro j lives
    rcases lives_set procs lives with ⟨-, dead, -⟩ | ⟨-, before⟩
    · simp at dead
    · rw [lock]
      exact h j before

/-- The lock file stays that of every live owner as long as no live process's is
purged. -/
theorem owned_step {cmd : Pointer Text} (s : System) (a : Action) (t : System)
    (deserted : Deserted s a) (h : Owned s) (next : step cmd s a = some t) : Owned t := by
  cases a with
  | spawn pid argv0 =>
    simp only [step] at next
    split at next
    · simp at next
    · obtain rfl := Option.some.inj next
      exact owned_spawn h pid argv0
  | call i c =>
    simp only [step] at next
    cases here : s.procs[i]? with
    | none => simp [here] at next
    | some p =>
      rw [here, Option.bind_some] at next
      split at next
      · rename_i alive
        exact owned_moves h (fun owns => ⟨p, here, alive, owns⟩) deserted (act_moves next)
      · simp at next

/-- In every run that purges no live process's lock file, at most one live
process holds the lock at any time. -/
theorem exclusive_run (cmd : Pointer Text) (left : Option Text) (actions : List Action) (s : System)
    (deserted : Along (step cmd) Deserted (start left) actions)
    (reached : run (step cmd) (start left) actions = some s) : Exclusive s :=
  (run_along owned_step (owned_start left) deserted reached).exclusive

/-- The second process finds the file that the first has made and not yet
written, takes it for stale and purges it. -/
def emptyLockRun : List Action :=
  [.spawn 7 ['d'], .spawn 8 ['d'], .call 0 (.create true), .call 1 (.create true),
    .call 1 (.readPid true 0), .call 1 (.check true), .call 1 (.purge true), .call 1 (.recreate true),
    .call 0 (.writePid 2 true), .call 1 (.writePid 2 true)]

theorem empty_lock_shared :
    ∃ s, run (step (some ['d'])) (start none) emptyLockRun = some s ∧ ¬ Exclusive s := by
  refine ⟨⟨[⟨7, ['d'], true, .holding⟩, ⟨8, ['d'], true, .holding⟩], some ⟨2, ['8', '\n'], some 1⟩, 3⟩,
    by decide +kernel, fun exclusive => ?_⟩
  exact absurd (exclusive 0 1 ⟨_, rfl, rfl, rfl⟩ ⟨_, rfl, rfl, rfl⟩) (by decide)

def staleLockRun : List Action :=
  [.spawn 7 ['d'], .call 0 (.create true), .call 0 (.readPid true 0), .call 0 (.check true),
    .call 0 (.purge true), .call 0 (.recreate true), .call 0 (.writePid 2 true)]

theorem exclusive_run_stale :
    Exclusive ⟨[⟨7, ['d'], true, .holding⟩], some ⟨1, ['7', '\n'], some 0⟩, 2⟩ :=
  exclusive_run (some ['d']) (some ['9', '\n']) staleLockRun _ (by decide +kernel) (by decide +kernel)

end Libdank.PidLock
