import Libdank.PidLock.Exclusion

/-! The commands of `daemonizer.c` on one lock file. Each of them runs to its end before the next
begins; the daemons live on between them. -/
namespace Libdank.PidLock.Daemonizer
open Parse Lexers Requests Transitions

structure Look where
  able : Bool
  readable : Bool
  uv : ℕ
deriving DecidableEq, Repr

def pidlockOurs (s : System) (me : Process) (look : Look) (cmd : Text) : Bool :=
  isPidlockOurs (s.procs ++ [me]) look.readable (some cmd) (if look.able then readPidlockPid look.uv s.lock else -1)

structure Opening where
  creates : Bool
  look : Look
  purges : Bool
  recreates : Bool
  written : ℕ
  closed : Bool
  /-- The unlink of a lock file that has not been given its number. -/
  unlinks : Bool
deriving DecidableEq, Repr

section Open
variable (cmd : Text) (s : System) (me : Process) (a : Opening)

/-- The file that `write_lockfile` has been given is new; without its number it goes, if it can be unlinked. -/
def writeLockfile : Bool × System :=
  let s := { s with
    lock := some ⟨s.inodes, (pidText me.pid).take a.written, some s.procs.length⟩
    inodes := s.inodes + 1 }
  if (pidText me.pid).length ≤ a.written ∧ a.closed then (true, s)
  else (false, { s with lock := if a.unlinks then none else s.lock })

/-- `open_exclusive_pidlock` with nobody else about. `me` comes after the processes of `s`. -/
def openExclusivePidlock : Bool × System :=
  if ¬ a.creates then (false, s)
  else
    match s.lock with
    | none => writeLockfile s me a
    | some _ =>
      if pidlockOurs s me a.look cmd then (false, s)
      else if ¬ a.purges then (false, s)
      else if ¬ a.recreates then (false, { s with lock := none })
      else writeLockfile { s with lock := none } me a

end Open

inductive Daemon where
  | notAsked
  | fails
  | child (pid : ℕ)
deriving DecidableEq, Repr

structure Start where
  self : Text
  cmd : Text
  pid : ℕ
  /-- `access` fails, and not for want of the file. -/
  denied : Bool
  first : Look
  second : Look
  unlinks : Bool
  daemon : Daemon
  opening : Opening
  /-- The option `-T`. -/
  bounded : Bool
  /-- The option `-r`. -/
  respawn : Bool
  /-- `Execvp`, or the first `Fork`. -/
  runs : Bool
deriving DecidableEq, Repr

def Start.me (v : Start) : Process := ⟨v.pid, v.self, true, .out⟩

def Start.daemonized (v : Start) : Option Process :=
  match v.daemon with
  | .notAsked => some v.me
  | .fails => none
  | .child pid => some { v.me with pid := pid }

def join (s : System) (p : Process) : System := { s with procs := s.procs ++ [p] }

def Start.ended (v : Start) (s : System) : System := join s { v.me with alive := false }

/-- From `Daemon` on. What has the lock runs as `cmd`, or stays `self` where it respawns. -/
def launch (s : System) (v : Start) : System :=
  match v.daemonized with
  | none => v.ended s
  | some me =>
    match openExclusivePidlock v.cmd s me v.opening with
    | (false, s) => v.ended s
    | (true, s) =>
      if v.bounded ∨ ¬ v.runs then v.ended s
      else join s { me with argv0 := if v.respawn then v.self else v.cmd, phase := .holding }

def startCommand (s : System) (v : Start) : System :=
  let found := s.lock.isSome || v.denied
  if found && (pidlockOurs s v.me v.first v.cmd || pidlockOurs s v.me v.second v.self) then v.ended s
  else launch (if found && v.unlinks then { s with lock := none } else s) v

structure Query where
  self : Text
  cmd : Text
  pid : ℕ
  first : Look
  second : Look
  unlinks : Bool
deriving DecidableEq, Repr

def Query.me (q : Query) : Process := ⟨q.pid, q.self, true, .out⟩

def Query.finds (q : Query) (s : System) : Option ℤ :=
  if pidlockOurs s q.me q.first q.cmd then some (readPidlockPid q.first.uv s.lock)
  else if pidlockOurs s q.me q.second q.self then some (readPidlockPid q.second.uv s.lock)
  else none

def purgeLockfile (s : System) (unlinks : Bool) : System := if unlinks then { s with lock := none } else s

def statusCommand (s : System) (q : Query) : System :=
  match q.finds s with
  | none => s
  | some _ => purgeLockfile s q.unlinks

def stopCommand (s : System) (q : Query) (kills dies : Bool) : System :=
  match q.finds s with
  | none => s
  | some pid =>
    if ¬ kills then s
    else purgeLockfile
      (if dies then
        { s with procs := s.procs.map fun p => if (p.pid : ℤ) = pid then { p with alive := false } else p }
      else s) q.unlinks

inductive Command where
  | start (v : Start)
  | status (q : Query)
  | stop (q : Query) (kills dies : Bool)
  /-- What holds the lock comes to its end, as a `-r` does, and purges the lock file. -/
  | finish (i : ℕ) (unlinks : Bool)
  | die (i : ℕ)
  /-- A process of something else. -/
  | spawn (pid : ℕ) (argv0 : Text)
deriving DecidableEq, Repr

def fresh (s : System) (pid : ℕ) : Bool :=
  0 < pid && pid < 2 ^ 31 && !s.procs.any fun q => q.alive && q.pid = pid

def step (s : System) : Command → Option System
  | .start v =>
    if fresh s v.pid && v.daemonized.all (fun p => fresh s p.pid) then some (startCommand s v) else none
  | .status q => if fresh s q.pid then some (statusCommand s q) else none
  | .stop q kills dies => if fresh s q.pid then some (stopCommand s q kills dies) else none
  | .finish i unlinks =>
    (s.procs[i]?).bind fun p =>
      if p.alive ∧ p.phase = .holding then
        some (purgeLockfile { s with procs := s.procs.set i { p with alive := false } } unlinks)
      else none
  | .die i =>
    (s.procs[i]?).bind fun p =>
      if p.alive then some { s with procs := s.procs.set i { p with alive := false } } else none
  | .spawn pid argv0 => if fresh s pid then some (join s ⟨pid, argv0, true, .out⟩) else none

/-- Between the commands a process is a daemon that holds the lock or has nothing to do with it, no
two have one number, and a lock file that a live process made has the number of that one. -/
structure Recorded (s : System) : Prop where
  distinct : ∀ (i j : ℕ) (p q : Process), s.procs[i]? = some p → s.procs[j]? = some q → p.alive = true →
    q.alive = true → p.pid = q.pid → i = j
  numbered : ∀ p ∈ s.procs, p.alive = true → 0 < p.pid ∧ p.pid < 2 ^ 31
  idle : ∀ p ∈ s.procs, p.phase.Owns → p.phase = .holding
  written : ∀ file ∈ s.lock, ∀ i ∈ file.creator, ∃ p, s.procs[i]? = some p ∧
    (p.alive = true → p.phase = .holding ∧ file.content = pidText p.pid)

def Look.sees (look : Look) : Bool := look.able && look.readable

/-- Whether the start leaves the lock file of the daemon `h` alone. -/
def Start.spares (v : Start) (h : Process) : Bool :=
  v.first.sees && h.argv0 = v.cmd || v.second.sees && h.argv0 = v.self ||
    !v.unlinks && (v.daemon = .fails || !v.opening.creates ||
      v.opening.look.sees && h.argv0 = v.cmd || !v.opening.purges)

def Query.knows (q : Query) (h : Process) : Bool :=
  q.first.sees && h.argv0 = q.cmd || q.second.sees && h.argv0 = q.self

def Runs (s : System) (h : Process) : Prop := h ∈ s.procs ∧ h.alive = true ∧ h.phase = .holding

/-- The command leaves the lock file to a daemon that runs: a start knows it by one of its names, and
a query does not, or a stop ends it. -/
def Spares (s : System) : Command → Prop
  | .start v => ∀ h, Runs s h → v.spares h
  | .status q => ∀ h, Runs s h → ¬ (q.knows h ∧ q.unlinks)
  | .stop q kills dies => ∀ h, Runs s h → ¬ (q.knows h ∧ kills ∧ ¬ dies ∧ q.unlinks)
  | _ => True

section Recognition
variable {s : System} {me : Process}

theorem readPidlockPid_pidText {pid inode : ℕ} {creator : Option ℕ} (number : 0 < pid ∧ pid < 2 ^ 31) (uv : ℕ) :
    readPidlockPid uv (some ⟨inode, pidText pid, creator⟩) = pid := by
  have short : (pidText pid).length ≤ 63 := by
    have digits : (Nat.toDigits 10 pid).length ≤ 10 :=
      (Nat.length_toDigits_le_iff (by decide) (by decide)).mpr (number.2.trans (by decide))
    rw [pidText, List.length_append]
    exact Nat.add_le_add_right digits 1 |>.trans (by decide)
  have lexed : lexUint 31 uv (pidText pid) = .ok (pid, ['\n']) :=
    lexUint_toDigits (by decide) number.1 number.2 uv _ fun c mem => Option.some.inj mem ▸ rfl
  obtain ⟨c, digits, shape⟩ := List.exists_cons_of_ne_nil (@Nat.toDigits_ne_nil pid 10)
  have digit : isdigit c = true := by
    rw [isdigit_eq]
    refine Nat.isDigit_of_mem_toDigits (b := 10) (n := pid) (by decide) (by decide) ?_
    rw [shape]
    exact List.mem_cons_self
  have start : parseWhitespace (pidText pid) = pidText pid := by
    rw [pidText, shape, List.cons_append]
    exact List.dropWhile_cons_of_neg (by rw [isspace_of_isdigit digit]; exact Bool.false_ne_true)
  have plain : (pidText pid).head? ≠ some '-' := by
    rw [pidText, shape, List.cons_append, List.head?_cons]
    rintro h
    obtain rfl := Option.some.inj h
    exact absurd digit (by decide)
  have whole : (pidText pid).take 63 = pidText pid := List.take_of_length_le short
  simp only [readPidlockPid, whole, lexS32, lexSint, start, plain, if_false, lexed, Except.map]
  exact Int.bmod_eq_of_le (by omega) (by omega)

variable {h : Process}

theorem lock_of_daemon (recorded : Recorded s) (owned : Owned s) (runs : Runs s h) :
    ∃ inode i, s.procs[i]? = some h ∧ s.lock = some ⟨inode, pidText h.pid, some i⟩ := by
  obtain ⟨mem, alive, holding⟩ := runs
  obtain ⟨i, here⟩ := List.mem_iff_getElem?.mp mem
  obtain ⟨⟨inode, content, creator⟩, lock, rfl⟩ := owned i ⟨h, here, alive, by rw [holding]; trivial⟩
  obtain ⟨p, there, writes⟩ := recorded.written _ lock i rfl
  obtain rfl : p = h := Option.some.inj (there.symm.trans here)
  exact ⟨inode, i, here, by rw [lock, ← (writes alive).2]⟩

theorem find_daemon (recorded : Recorded s) (runs : Runs s h) :
    s.procs.find? (fun q => q.alive && (q.pid : ℤ) = h.pid) = some h := by
  obtain ⟨mem, alive, -⟩ := runs
  have found : (s.procs.find? fun q => q.alive && (q.pid : ℤ) = h.pid).isSome :=
    List.find?_isSome.mpr ⟨h, mem, by simp [alive]⟩
  obtain ⟨q, found⟩ := Option.isSome_iff_exists.mp found
  have such := List.find?_some found
  simp only [Bool.and_eq_true, decide_eq_true_eq, Nat.cast_inj] at such
  obtain ⟨i, here⟩ := List.mem_iff_getElem?.mp mem
  obtain ⟨j, there⟩ := List.mem_iff_getElem?.mp (List.mem_of_find?_eq_some found)
  obtain rfl : i = j := recorded.distinct i j h q here there alive such.1 such.2.symm
  rw [found, Option.some.inj (there.symm.trans here)]

theorem pidlockOurs_daemon (recorded : Recorded s) (owned : Owned s) (runs : Runs s h) (look : Look) (name : Text) :
    pidlockOurs s me look name = (look.sees && h.argv0 = name) := by
  obtain ⟨inode, i, -, lock⟩ := lock_of_daemon recorded owned runs
  have number := recorded.numbered h runs.1 runs.2.1
  cases able : look.able with
  | false => simp [pidlockOurs, Look.sees, able, isPidlockOurs]
  | true =>
    have exists_ : pidExists (s.procs ++ [me]) h.pid = true := by
      rw [pidExists, Bool.or_eq_true]
      exact .inr (List.any_eq_true.mpr ⟨h, List.mem_append_left _ runs.1, by simp [runs.2.1]⟩)
    have named : cmdlineArgv0 (s.procs ++ [me]) look.readable h.pid =
        if look.readable then some h.argv0 else none := by
      rw [cmdlineArgv0, List.find?_append, find_daemon recorded runs]
      rfl
    rw [pidlockOurs, able, if_pos rfl, lock, readPidlockPid_pidText number, isPidlockOurs, exists_,
      if_neg (by omega), if_neg Bool.true_eq_false_eq_False]
    simp only [named, Look.sees, able]
    cases look.readable <;> simp

end Recognition

section Started
variable {s : System} {me : Process}

/-- What `open_exclusive_pidlock` can do to a lock file that is there, and to the new one. -/
inductive Opened (s : System) (me : Process) (leaves : Prop) : Bool × System → Prop
  | leaves (left : s.lock.isSome → leaves) : Opened s me leaves (false, s)
  | takes {t : System} (taken : s.lock.isSome → ¬ leaves) (procs : t.procs = s.procs)
      (lock : ∀ file ∈ t.lock, file.creator = some s.procs.length) : Opened s me leaves (false, t)
  | makes {t : System} (inode : ℕ) (taken : s.lock.isSome → ¬ leaves) (procs : t.procs = s.procs)
      (lock : t.lock = some ⟨inode, pidText me.pid, some s.procs.length⟩) : Opened s me leaves (true, t)

theorem writeLockfile_cases {s' : System} {leaves : Prop} (taken : s.lock.isSome → ¬ leaves)
    (procs : s'.procs = s.procs) (a : Opening) : Opened s me leaves (writeLockfile s' me a) := by
  unfold writeLockfile
  by_cases whole : (pidText me.pid).length ≤ a.written ∧ a.closed
  · rw [if_pos whole, List.take_of_length_le whole.1, procs]
    exact .makes _ taken rfl rfl
  · rw [if_neg whole, procs]
    refine .takes taken rfl fun file mem => ?_
    cases unlinks : a.unlinks with
    | true => simp [unlinks] at mem
    | false =>
      rw [unlinks, if_neg Bool.false_ne_true] at mem
      obtain rfl := Option.some.inj mem
      rfl

theorem openExclusivePidlock_cases (cmd : Text) (s : System) (me : Process) (a : Opening) :
    Opened s me (a.creates = false ∨ pidlockOurs s me a.look cmd = true ∨ a.purges = false)
      (openExclusivePidlock cmd s me a) := by
  unfold openExclusivePidlock
  cases creates : a.creates with
  | false => exact .leaves fun _ => .inl rfl
  | true =>
    rw [if_neg (not_not.mpr rfl)]
    cases lock : s.lock with
    | none => exact writeLockfile_cases (by simp [lock]) rfl a
    | some file =>
      simp only
      cases ours : pidlockOurs s me a.look cmd with
      | true => exact .leaves fun _ => .inr (.inl rfl)
      | false =>
        cases purges : a.purges with
        | false => exact .leaves fun _ => .inr (.inr rfl)
        | true =>
          cases recreates : a.recreates with
          | false => exact .takes (by simp) rfl nofun
          | true => exact writeLockfile_cases (by simp) rfl a

theorem isPidlockOurs_phase (procs : List Process) (readable : Bool) (cmd : Pointer Text) (pid : ℤ) (phase : Phase) :
    isPidlockOurs (procs ++ [{ me with phase := phase }]) readable cmd pid =
      isPidlockOurs (procs ++ [me]) readable cmd pid := by
  have exists_ : pidExists (procs ++ [{ me with phase := phase }]) pid = pidExists (procs ++ [me]) pid := by
    simp [pidExists]
  have named : cmdlineArgv0 (procs ++ [{ me with phase := phase }]) readable pid =
      cmdlineArgv0 (procs ++ [me]) readable pid := by
    unfold cmdlineArgv0
    rw [List.find?_append, List.find?_append]
    cases procs.find? fun q => q.alive && (q.pid : ℤ) = pid with
    | some q => rfl
    | none =>
      cases hit : me.alive && (me.pid : ℤ) = pid <;> simp [hit]
  unfold isPidlockOurs
  rw [exists_, named]

def at_ (s : System) (me : Process) (phase : Phase) : System := join s { me with phase := phase }

theorem step_at (cmd : Text) (alive : me.alive = true) (phase : Phase) (c : Call) :
    PidLock.step (some cmd) (at_ s me phase) (.call s.procs.length c) =
      act (some cmd) (at_ s me phase) s.procs.length { me with phase := phase } phase c := by
  rw [PidLock.step, at_, join, List.getElem?_concat_length, Option.bind_some, if_pos alive]

theorem move_at (phase phase' : Phase) :
    (at_ s me phase).move s.procs.length { me with phase := phase } phase' = at_ s me phase' := by
  simp [System.move, at_, join]

theorem writeLockfile_run (cmd : Text) (s : System) (me : Process) (a : Opening) (alive : me.alive = true) :
    ∃ (calls : List Call) (phase : Phase), ((writeLockfile s me a).1 = true ↔ phase = .holding) ∧
      run (PidLock.step (some cmd))
          (at_ { s with lock := some ⟨s.inodes, [], some s.procs.length⟩, inodes := s.inodes + 1 } me
            (.created s.inodes)) (calls.map (.call s.procs.length)) =
        some (at_ (writeLockfile s me a).2 me phase) := by
  let u : System := { s with lock := some ⟨s.inodes, [], some s.procs.length⟩, inodes := s.inodes + 1 }
  have first := step_at (s := u) cmd alive (.created s.inodes) (.writePid a.written a.closed)
  by_cases whole : (pidText me.pid).length ≤ a.written ∧ a.closed
  · refine ⟨[.writePid a.written a.closed], .holding, by simp [writeLockfile, whole], ?_⟩
    rw [List.map_singleton, run, first]
    simp [act, writeLockfile, whole, run, u, at_, join, System.move, writeFile]
  · cases unlinks : a.unlinks with
    | true =>
      refine ⟨[.writePid a.written a.closed, .abandon], .out, by simp [writeLockfile, whole], ?_⟩
      rw [List.map_cons, run, first]
      simp [act, writeLockfile, whole, unlinks, run, u, at_, join, System.move, writeFile, PidLock.step, alive]
    | false =>
      refine ⟨[.writePid a.written a.closed], .unwritten, by simp [writeLockfile, whole], ?_⟩
      rw [List.map_singleton, run, first]
      simp [act, writeLockfile, whole, unlinks, run, u, at_, join, System.move, writeFile]

theorem openExclusive_at (lock : s.lock = none) (phase : Phase) :
    openExclusive (at_ s me phase) s.procs.length =
      some (at_ { s with lock := some ⟨s.inodes, [], some s.procs.length⟩, inodes := s.inodes + 1 } me phase) := by
  simp [openExclusive, at_, join, lock]

theorem recognize_run (cmd : Text) (alive : me.alive = true) (found : s.lock.isSome) (look : Look) (calls : List Call) :
    run (PidLock.step (some cmd)) (at_ s me .out)
        ((.create true :: .readPid look.able look.uv :: .check look.readable :: calls).map (.call s.procs.length)) =
      run (PidLock.step (some cmd)) (at_ s me (if pidlockOurs s me look cmd then .out else .stale))
        (calls.map (.call s.procs.length)) := by
  obtain ⟨file, lock⟩ := Option.isSome_iff_exists.mp found
  let pid := if look.able then readPidlockPid look.uv s.lock else -1
  have exists_ : act (some cmd) (at_ s me .out) s.procs.length { me with phase := .out } .out (.create true) =
      some (at_ s me .found) := by
    simp [act, openExclusive, at_, join, lock, System.move]
  have read : act (some cmd) (at_ s me .found) s.procs.length { me with phase := .found } .found
      (.readPid look.able look.uv) = some (at_ s me (.read pid)) := by
    rw [act, move_at]
    rfl
  have checked : act (some cmd) (at_ s me (.read pid)) s.procs.length { me with phase := .read pid } (.read pid)
      (.check look.readable) = some (at_ s me (if pidlockOurs s me look cmd then .out else .stale)) := by
    rw [act, move_at]
    congr 3
    exact congrArg (· = true) (isPidlockOurs_phase s.procs look.readable (some cmd) pid (.read pid))
  simp only [List.map_cons, run, step_at cmd alive, exists_, read, checked, Option.bind_some]

/-- The whole call is one way through the system calls of the process, with nobody else between them. -/
theorem openExclusivePidlock_run (cmd : Text) (s : System) (me : Process) (a : Opening) (alive : me.alive = true) :
    ∃ (calls : List Call) (phase : Phase), ((openExclusivePidlock cmd s me a).1 = true ↔ phase = .holding) ∧
      run (PidLock.step (some cmd)) (at_ s me .out) (calls.map (.call s.procs.length)) =
        some (at_ (openExclusivePidlock cmd s me a).2 me phase) := by
  rw [openExclusivePidlock]
  cases creates : a.creates with
  | false =>
    refine ⟨[.create false], .out, by simp, ?_⟩
    rw [List.map_singleton, run, step_at cmd alive]
    simp [act, move_at, run]
  | true =>
    rw [if_neg (not_not.mpr rfl)]
    cases lock : s.lock with
    | none =>
      obtain ⟨calls, phase, holds, written⟩ := writeLockfile_run cmd s me a alive
      refine ⟨.create true :: calls, phase, holds, ?_⟩
      rw [List.map_cons, run, step_at cmd alive, act, if_pos rfl, openExclusive_at lock]
      exact (congrArg (run _ · _) (move_at _ _)).trans written
    | some file =>
      simp only
      have looked := recognize_run (s := s) cmd alive (by rw [lock]; rfl) a.look
      cases ours : pidlockOurs s me a.look cmd with
      | true =>
        refine ⟨_, .out, by simp, (looked []).trans ?_⟩
        rw [ours]
        rfl
      | false =>
        have purged : act (some cmd) (at_ s me .stale) s.procs.length { me with phase := .stale } .stale
            (.purge a.purges) = some (at_ { s with lock := if a.purges then none else s.lock } me .purged) := by
          simp [act, at_, join, System.move]
        have upto (calls : List Call) := looked (.purge a.purges :: calls)
        simp only [ours, Bool.false_eq_true, if_false, List.map_cons (a := Call.purge _), run, step_at cmd alive,
          purged, Option.bind_some] at upto
        cases purges : a.purges with
        | false =>
          refine ⟨_, .out, by simp, (upto [.recreate a.recreates]).trans ?_⟩
          rw [List.map_singleton, run, purges, step_at (s := { s with lock := _ }) cmd alive]
          simp [act, openExclusive, at_, join, lock, System.move, run]
        | true =>
          cases recreates : a.recreates with
          | false =>
            refine ⟨_, .out, by simp, (upto [.recreate false]).trans ?_⟩
            rw [List.map_singleton, run, purges, step_at (s := { s with lock := _ }) cmd alive]
            simp [act, openExclusive, at_, join, System.move, run]
          | true =>
            obtain ⟨calls, phase, holds, written⟩ := writeLockfile_run cmd { s with lock := none } me a alive
            refine ⟨_, phase, holds, (upto (.recreate true :: calls)).trans ?_⟩
            rw [List.map_cons, run, purges, step_at (s := { s with lock := _ }) cmd alive, act, if_pos rfl,
              openExclusive_at (s := { s with lock := none }) rfl]
            exact (congrArg (run _ · _) (move_at _ _)).trans written

inductive Started (s : System) (v : Start) (leaves : Prop) : System → Prop
  | leaves {t : System} (p : Process) (left : s.lock.isSome → leaves) (gone : p.alive = false ∧ p.phase = .out)
      (procs : t.procs = s.procs ++ [p]) (lock : t.lock = s.lock) : Started s v leaves t
  | takes {t : System} (p : Process) (taken : s.lock.isSome → ¬ leaves) (gone : p.alive = false ∧ p.phase = .out)
      (procs : t.procs = s.procs ++ [p]) (lock : ∀ file ∈ t.lock, file.creator = some s.procs.length) :
      Started s v leaves t
  | makes {t : System} (p : Process) (inode : ℕ) (taken : s.lock.isSome → ¬ leaves)
      (number : ∃ me ∈ v.daemonized, p.pid = me.pid) (holding : p.phase = .holding)
      (procs : t.procs = s.procs ++ [p])
      (lock : t.lock = some ⟨inode, pidText p.pid, some s.procs.length⟩) : Started s v leaves t

def Start.opensOn (v : Start) (s : System) : Prop :=
  ∀ me ∈ v.daemonized,
    v.opening.creates = false ∨ pidlockOurs s me v.opening.look v.cmd = true ∨ v.opening.purges = false

theorem launch_cases (s : System) (v : Start) : Started s v (v.opensOn s) (launch s v) := by
  unfold launch
  cases daemonized : v.daemonized with
  | none => exact .leaves _ (fun _ me mem => by simp [daemonized] at mem) ⟨rfl, rfl⟩ rfl rfl
  | some me =>
    have only : v.opensOn s ↔
        v.opening.creates = false ∨ pidlockOurs s me v.opening.look v.cmd = true ∨ v.opening.purges = false := by
      simp [Start.opensOn, daemonized]
    have opened := openExclusivePidlock_cases v.cmd s me v.opening
    rw [← only] at opened
    simp only
    generalize openExclusivePidlock v.cmd s me v.opening = r at opened
    cases opened with
    | leaves left => exact .leaves _ left ⟨rfl, rfl⟩ rfl rfl
    | takes taken procs lock =>
      exact .takes _ taken ⟨rfl, rfl⟩ (by rw [← procs]; rfl) lock
    | makes inode taken procs lock =>
      simp only
      by_cases ends : v.bounded ∨ ¬ v.runs
      · rw [if_pos ends]
        refine .takes _ taken ⟨rfl, rfl⟩ (by rw [← procs]; rfl) fun file mem => ?_
        obtain rfl := Option.some.inj (lock.symm.trans mem)
        rfl
      · rw [if_neg ends]
        exact .makes { me with argv0 := if v.respawn then v.self else v.cmd, phase := .holding } inode taken
          ⟨me, daemonized, rfl⟩ rfl (by rw [← procs]; rfl) lock

def Start.leaves (v : Start) (s : System) : Prop :=
  (pidlockOurs s v.me v.first v.cmd = true ∨ pidlockOurs s v.me v.second v.self = true) ∨
    v.unlinks = false ∧ v.opensOn s

theorem startCommand_cases (s : System) (v : Start) : Started s v (v.leaves s) (startCommand s v) := by
  unfold startCommand
  simp only
  by_cases known : (s.lock.isSome || v.denied) &&
      (pidlockOurs s v.me v.first v.cmd || pidlockOurs s v.me v.second v.self)
  · rw [if_pos known]
    rw [Bool.and_eq_true, Bool.or_eq_true, Bool.or_eq_true] at known
    exact .leaves _ (fun _ => .inl known.2) ⟨rfl, rfl⟩ rfl rfl
  · rw [if_neg known]
    have unknown (found : s.lock.isSome) :
        ¬ (pidlockOurs s v.me v.first v.cmd = true ∨ pidlockOurs s v.me v.second v.self = true) := by
      rw [found, Bool.true_or, Bool.true_and, Bool.or_eq_true] at known
      exact known
    by_cases unlinks : (s.lock.isSome || v.denied) && v.unlinks
    · rw [if_pos unlinks]
      rw [Bool.and_eq_true] at unlinks
      have taken (found : s.lock.isSome) : ¬ v.leaves s :=
        not_or.mpr ⟨unknown found, fun left => Bool.false_ne_true (left.1.symm.trans unlinks.2)⟩
      cases launch_cases { s with lock := none } v with
      | leaves p _ gone procs lock => exact .takes p taken gone procs (by simp [lock])
      | takes p _ gone procs lock => exact .takes p taken gone procs lock
      | makes p inode _ number holding procs lock => exact .makes p inode taken number holding procs lock
    · rw [if_neg unlinks]
      have same (found : s.lock.isSome) : v.leaves s ↔ v.opensOn s := by
        rw [found, Bool.true_or, Bool.true_and, Bool.not_eq_true] at unlinks
        rw [Start.leaves, or_iff_right (unknown found), and_iff_right unlinks]
      cases launch_cases s v with
      | leaves p left gone procs lock => exact .leaves p (fun found => (same found).mpr (left found)) gone procs lock
      | takes p taken gone procs lock =>
        exact .takes p (fun found left => taken found ((same found).mp left)) gone procs lock
      | makes p inode taken number holding procs lock =>
        exact .makes p inode (fun found left => taken found ((same found).mp left)) number holding procs lock

end Started

section Steps
variable {s t : System}

theorem mem_join {p q : Process} (procs : t.procs = s.procs ++ [p]) {i : ℕ} (here : t.procs[i]? = some q) :
    s.procs[i]? = some q ∨ i = s.procs.length ∧ q = p := by
  rw [procs, List.getElem?_append] at here
  split at here
  · exact .inl here
  · rw [List.getElem?_singleton] at here
    split at here
    · exact .inr ⟨by omega, (Option.some.inj here).symm⟩
    · cases here

theorem getElem?_join {p q : Process} (procs : t.procs = s.procs ++ [p]) {i : ℕ} (here : s.procs[i]? = some q) :
    t.procs[i]? = some q := by
  rw [procs, List.getElem?_append_left (List.getElem?_eq_some_iff.mp here).1, here]

theorem fresh_iff {pid : ℕ} :
    fresh s pid = true ↔ (0 < pid ∧ pid < 2 ^ 31) ∧ ∀ q ∈ s.procs, q.alive = true → q.pid ≠ pid := by
  simp [fresh, and_assoc]

theorem recorded_join {p : Process} (recorded : Recorded s) (procs : t.procs = s.procs ++ [p])
    (idle : p.phase.Owns → p.phase = .holding) (number : p.alive = true → fresh s p.pid = true)
    (lock : ∀ file ∈ t.lock, file ∈ s.lock ∨ file.creator = some s.procs.length ∧
      (p.alive = true → p.phase = .holding ∧ file.content = pidText p.pid)) : Recorded t where
  distinct i j q q' here there alive alive' same := by
    rcases mem_join procs here with here | ⟨rfl, rfl⟩ <;> rcases mem_join procs there with there | ⟨rfl, rfl⟩
    · exact recorded.distinct i j q q' here there alive alive' same
    · exact absurd same ((fresh_iff.mp (number alive')).2 q (List.mem_of_getElem? here) alive)
    · exact absurd same.symm ((fresh_iff.mp (number alive)).2 q' (List.mem_of_getElem? there) alive')
    · rfl
  numbered q mem alive := by
    rw [procs, List.mem_append, List.mem_singleton] at mem
    rcases mem with mem | rfl
    · exact recorded.numbered q mem alive
    · exact (fresh_iff.mp (number alive)).1
  idle q mem owns := by
    rw [procs, List.mem_append, List.mem_singleton] at mem
    rcases mem with mem | rfl
    · exact recorded.idle q mem owns
    · exact idle owns
  written file mem i creator := by
    rcases lock file mem with before | ⟨new, writes⟩
    · obtain ⟨q, here, writes⟩ := recorded.written file before i creator
      exact ⟨q, getElem?_join procs here, writes⟩
    · obtain rfl : s.procs.length = i := Option.some.inj (new.symm.trans creator)
      exact ⟨p, by rw [procs, List.getElem?_concat_length], writes⟩

def Fewer (lives : ℕ → Process → Bool) (s t : System) : Prop :=
  ∀ i : ℕ, t.procs[i]? = (s.procs[i]?).map fun p => { p with alive := p.alive && lives i p }

variable {lives : ℕ → Process → Bool}

theorem Fewer.mem (fewer : Fewer lives s t) {i : ℕ} {q : Process} (here : t.procs[i]? = some q) :
    ∃ p, s.procs[i]? = some p ∧ q = { p with alive := p.alive && lives i p } := by
  rw [fewer i, Option.map_eq_some_iff] at here
  obtain ⟨p, here, rfl⟩ := here
  exact ⟨p, here, rfl⟩

theorem fewer_set {i : ℕ} {p : Process} (here : s.procs[i]? = some p)
    (procs : t.procs = s.procs.set i { p with alive := false }) : Fewer (fun j _ => j ≠ i) s t := by
  intro j
  rw [procs]
  by_cases same : j = i
  · subst same
    rw [List.getElem?_set_self (List.getElem?_eq_some_iff.mp here).1, here]
    simp
  · rw [List.getElem?_set_ne (Ne.symm same)]
    simp [same]

theorem recorded_fewer (recorded : Recorded s) (fewer : Fewer lives s t) (lock : ∀ file ∈ t.lock, file ∈ s.lock) :
    Recorded t where
  distinct i j q q' here there alive alive' same := by
    obtain ⟨p, was, rfl⟩ := fewer.mem here
    obtain ⟨p', was', rfl⟩ := fewer.mem there
    exact recorded.distinct i j p p' was was' (Bool.and_eq_true_iff.mp alive).1 (Bool.and_eq_true_iff.mp alive').1 same
  numbered q mem alive := by
    obtain ⟨i, here⟩ := List.mem_iff_getElem?.mp mem
    obtain ⟨p, was, rfl⟩ := fewer.mem here
    exact recorded.numbered p (List.mem_of_getElem? was) (Bool.and_eq_true_iff.mp alive).1
  idle q mem owns := by
    obtain ⟨i, here⟩ := List.mem_iff_getElem?.mp mem
    obtain ⟨p, was, rfl⟩ := fewer.mem here
    exact recorded.idle p (List.mem_of_getElem? was) owns
  written file mem i creator := by
    obtain ⟨p, here, writes⟩ := recorded.written file (lock file mem) i creator
    exact ⟨{ p with alive := p.alive && lives i p }, by rw [fewer i, here]; rfl,
      fun alive => writes (Bool.and_eq_true_iff.mp alive).1⟩

theorem owned_none (recorded : Recorded s) (lock : s.lock = none) : Owned s ↔ ∀ h, ¬ Runs s h := by
  constructor
  · rintro owned h ⟨mem, alive, holding⟩
    obtain ⟨i, here⟩ := List.mem_iff_getElem?.mp mem
    obtain ⟨file, some_, -⟩ := owned i ⟨h, here, alive, by rw [holding]; trivial⟩
    cases lock.symm.trans some_
  · rintro none_ i ⟨p, here, alive, owns⟩
    have mem := List.mem_of_getElem? here
    exact absurd ⟨mem, alive, recorded.idle p mem owns⟩ (none_ p)

theorem owned_fewer (owned : Owned s) (fewer : Fewer lives s t) (lock : t.lock = s.lock) : Owned t := by
  rintro i ⟨q, here, alive, owns⟩
  obtain ⟨p, was, rfl⟩ := fewer.mem here
  rw [lock]
  exact owned i ⟨p, was, (Bool.and_eq_true_iff.mp alive).1, owns⟩

theorem owned_purge (recorded : Recorded s) (owned : Owned s) (unlinks : Bool) :
    Recorded (purgeLockfile s unlinks) ∧
      (Owned (purgeLockfile s unlinks) ↔ ∀ h, Runs s h → unlinks = false) := by
  cases unlinks with
  | false => exact ⟨recorded, iff_of_true owned fun _ _ => rfl⟩
  | true =>
    have kept : Recorded (purgeLockfile s true) :=
      ⟨recorded.distinct, recorded.numbered, recorded.idle, nofun⟩
    refine ⟨kept, (owned_none kept rfl).trans (forall_congr' fun h => ?_)⟩
    exact imp_congr_right fun _ => by simp

theorem leaves_iff {v : Start} {h : Process} (recorded : Recorded s) (owned : Owned s) (runs : Runs s h) :
    v.leaves s ↔ v.spares h := by
  rw [Start.leaves, Start.opensOn, Start.daemonized]
  simp only [pidlockOurs_daemon recorded owned runs, Start.spares]
  cases v.daemon <;> simp [or_assoc]

theorem finds_iff {q : Query} {h : Process} (recorded : Recorded s) (owned : Owned s) (runs : Runs s h) :
    q.finds s = if q.knows h then some (h.pid : ℤ) else none := by
  obtain ⟨inode, i, -, lock⟩ := lock_of_daemon recorded owned runs
  rw [Query.finds, Query.knows, pidlockOurs_daemon recorded owned runs, pidlockOurs_daemon recorded owned runs, lock,
    readPidlockPid_pidText (recorded.numbered h runs.1 runs.2.1),
    readPidlockPid_pidText (recorded.numbered h runs.1 runs.2.1)]
  cases q.first.sees && h.argv0 = q.cmd <;> cases q.second.sees && h.argv0 = q.self <;> rfl

theorem spared_start {v : Start} (recorded : Recorded s) (owned : Owned s)
    (number : ∀ me ∈ v.daemonized, fresh s me.pid = true) :
    Recorded (startCommand s v) ∧ (Owned (startCommand s v) ↔ ∀ h, Runs s h → v.spares h) := by
  have started := startCommand_cases s v
  generalize startCommand s v = t at started
  -- whoever runs in `s` runs on, and whoever else owns a lock file is the new process
  have before {p : Process} (procs : t.procs = s.procs ++ [p]) {i : ℕ} (owns : Lives t i Phase.Owns) :
      Lives s i Phase.Owns ∨ i = s.procs.length ∧ p.alive = true := by
    obtain ⟨q, here, alive, owns⟩ := owns
    rcases mem_join procs here with was | ⟨rfl, rfl⟩
    · exact .inl ⟨q, was, alive, owns⟩
    · exact .inr ⟨rfl, alive⟩
  have runs {i : ℕ} (owns : Lives s i Phase.Owns) : ∃ h, Runs s h := by
    obtain ⟨h, here, alive, owns⟩ := owns
    have mem := List.mem_of_getElem? here
    exact ⟨h, mem, alive, recorded.idle h mem owns⟩
  have lost {p : Process} (procs : t.procs = s.procs ++ [p]) (taken : s.lock.isSome → ¬ v.leaves s)
      (lock : ∀ file ∈ t.lock, file.creator = some s.procs.length) :
      (∀ h, ¬ Runs s h) ∨ ¬ Owned t ∧ ¬ ∀ h, Runs s h → v.spares h := by
    refine or_iff_not_imp_left.mpr fun some_ => ?_
    obtain ⟨h, daemon⟩ := not_forall_not.mp some_
    obtain ⟨inode, i, here, there⟩ := lock_of_daemon recorded owned daemon
    refine ⟨fun owned' => ?_, fun all => ?_⟩
    · obtain ⟨file, mem, creator⟩ := owned' i ⟨h, getElem?_join procs here, daemon.2.1, by
        rw [daemon.2.2]; trivial⟩
      obtain rfl : i = s.procs.length := Option.some.inj (creator.symm.trans (lock file mem))
      exact absurd (List.getElem?_eq_some_iff.mp here).1 (lt_irrefl _)
    · exact taken (by rw [there]; rfl) ((leaves_iff recorded owned daemon).mpr (all h daemon))
  cases started with
  | leaves p left gone procs lock =>
    refine ⟨recorded_join recorded procs (by rw [gone.2]; exact False.elim)
      (fun alive => absurd (gone.1.symm.trans alive) Bool.false_ne_true) (fun file mem => .inl (lock ▸ mem)), ?_⟩
    refine iff_of_true (fun i owns => ?_) fun h daemon => ?_
    · rcases before procs owns with owns | ⟨-, alive⟩
      · rw [lock]
        exact owned i owns
      · exact absurd (gone.1.symm.trans alive) Bool.false_ne_true
    · obtain ⟨inode, i, -, there⟩ := lock_of_daemon recorded owned daemon
      exact (leaves_iff recorded owned daemon).mp (left (by rw [there]; rfl))
  | takes p taken gone procs lock =>
    have dead (alive : p.alive = true) : False := Bool.false_ne_true (gone.1.symm.trans alive)
    refine ⟨recorded_join recorded procs (by rw [gone.2]; exact False.elim) (fun alive => (dead alive).elim)
      (fun file mem => .inr ⟨lock file mem, fun alive => (dead alive).elim⟩), ?_⟩
    rcases lost procs taken lock with none_ | ⟨lost, unspared⟩
    · refine iff_of_true (fun i owns => ?_) fun h daemon => absurd daemon (none_ h)
      rcases before procs owns with owns | ⟨-, alive⟩
      · obtain ⟨h, daemon⟩ := runs owns
        exact absurd daemon (none_ h)
      · exact absurd (gone.1.symm.trans alive) Bool.false_ne_true
    · exact iff_of_false lost unspared
  | makes p inode taken numbered holding procs lock =>
    obtain ⟨me, mem, same⟩ := numbered
    have creator : ∀ file ∈ t.lock, file.creator = some s.procs.length := by
      intro file mem
      obtain rfl := Option.some.inj (lock.symm.trans mem)
      rfl
    refine ⟨recorded_join recorded procs (fun _ => holding) (fun _ => same ▸ number me mem)
      (fun file mem => ?_), ?_⟩
    · refine .inr ⟨creator file mem, fun _ => ⟨holding, ?_⟩⟩
      obtain rfl := Option.some.inj (lock.symm.trans mem)
      rfl
    · rcases lost procs taken creator with none_ | ⟨lost, unspared⟩
      · refine iff_of_true (fun i owns => ?_) fun h daemon => absurd daemon (none_ h)
        rcases before procs owns with owns | ⟨rfl, -⟩
        · obtain ⟨h, daemon⟩ := runs owns
          exact absurd daemon (none_ h)
        · exact ⟨_, lock, rfl⟩
      · exact iff_of_false lost unspared

theorem spared_status {q : Query} (recorded : Recorded s) (owned : Owned s) :
    Recorded (statusCommand s q) ∧
      (Owned (statusCommand s q) ↔ ∀ h, Runs s h → ¬ (q.knows h = true ∧ q.unlinks = true)) := by
  rw [statusCommand]
  cases found : q.finds s with
  | none =>
    refine ⟨recorded, iff_of_true owned fun h daemon known => ?_⟩
    rw [finds_iff recorded owned daemon, if_pos known.1] at found
    cases found
  | some pid =>
    obtain ⟨kept, purged⟩ := owned_purge recorded owned q.unlinks
    refine ⟨kept, purged.trans (forall₂_congr fun h daemon => ?_)⟩
    have known : q.knows h = true := by
      by_contra unknown
      rw [finds_iff recorded owned daemon, if_neg unknown] at found
      cases found
    rw [known, eq_self, true_and, Bool.not_eq_true]

theorem spared_stop {q : Query} {kills dies : Bool} (recorded : Recorded s) (owned : Owned s) :
    Recorded (stopCommand s q kills dies) ∧ (Owned (stopCommand s q kills dies) ↔
      ∀ h, Runs s h → ¬ (q.knows h = true ∧ kills = true ∧ ¬ dies = true ∧ q.unlinks = true)) := by
  rw [stopCommand]
  cases found : q.finds s with
  | none =>
    refine ⟨recorded, iff_of_true owned fun h daemon known => ?_⟩
    rw [finds_iff recorded owned daemon, if_pos known.1] at found
    cases found
  | some pid =>
    have known {h : Process} (daemon : Runs s h) : q.knows h = true ∧ (h.pid : ℤ) = pid := by
      rw [finds_iff recorded owned daemon] at found
      split_ifs at found with known
      exact ⟨known, Option.some.inj found⟩
    cases kills with
    | false => exact ⟨recorded, iff_of_true owned fun h _ known => Bool.false_ne_true known.2.1⟩
    | true =>
      cases dies with
      | false =>
        obtain ⟨kept, purged⟩ := owned_purge recorded owned q.unlinks
        refine ⟨kept, purged.trans (forall₂_congr fun h daemon => ?_)⟩
        simp [(known daemon).1]
      | true =>
        let t : System := { s with
          procs := s.procs.map fun p => if (p.pid : ℤ) = pid then { p with alive := false } else p }
        have fewer : Fewer (fun _ p => (p.pid : ℤ) ≠ pid) s t := by
          intro i
          rw [List.getElem?_map]
          congr 1
          funext p
          by_cases hit : (p.pid : ℤ) = pid <;> simp [hit]
        have kept := recorded_fewer (t := t) recorded fewer fun _ mem => mem
        have none_ (h : Process) : ¬ Runs t h := by
          rintro ⟨mem, alive, holding⟩
          obtain ⟨i, here⟩ := List.mem_iff_getElem?.mp mem
          obtain ⟨p, was, rfl⟩ := fewer.mem here
          rw [Bool.and_eq_true, decide_eq_true_eq] at alive
          exact alive.2 (known ⟨List.mem_of_getElem? was, alive.1, holding⟩).2
        obtain ⟨purged, owned'⟩ := owned_purge kept (owned_fewer owned fewer rfl) q.unlinks
        exact ⟨purged, iff_of_true (owned'.mpr fun h daemon => absurd daemon (none_ h))
          fun h _ gone => gone.2.2.1 rfl⟩

theorem spared_finish {i : ℕ} {p : Process} (recorded : Recorded s) (owned : Owned s) (here : s.procs[i]? = some p)
    (alive : p.alive = true) (holding : p.phase = .holding) (unlinks : Bool) :
    Recorded (purgeLockfile { s with procs := s.procs.set i { p with alive := false } } unlinks) ∧
      Owned (purgeLockfile { s with procs := s.procs.set i { p with alive := false } } unlinks) := by
  have fewer := fewer_set (t := { s with procs := s.procs.set i { p with alive := false } }) here rfl
  obtain ⟨purged, owned'⟩ := owned_purge (recorded_fewer recorded fewer fun _ mem => mem)
    (owned_fewer owned fewer rfl) unlinks
  refine ⟨purged, owned'.mpr ?_⟩
  rintro h ⟨mem, alive', holding'⟩
  obtain ⟨j, there⟩ := List.mem_iff_getElem?.mp mem
  obtain ⟨q, was, rfl⟩ := fewer.mem there
  rw [Bool.and_eq_true, decide_eq_true_eq] at alive'
  exact absurd (owned.exclusive j i ⟨q, was, alive'.1, holding'⟩ ⟨p, here, alive, holding⟩) alive'.2

/-- A command leaves each daemon its lock file just when it spares it. -/
theorem spared_step (s : System) (a : Command) (t : System) (recorded : Recorded s) (owned : Owned s)
    (next : step s a = some t) : Recorded t ∧ (Owned t ↔ Spares s a) := by
  cases a with
  | start v =>
    rw [step] at next
    split_ifs at next with free
    obtain rfl := Option.some.inj next
    rw [Bool.and_eq_true, Option.all_eq_true] at free
    exact spared_start recorded owned fun me mem => free.2 me mem
  | status q =>
    rw [step] at next
    split_ifs at next
    obtain rfl := Option.some.inj next
    exact spared_status recorded owned
  | stop q kills dies =>
    rw [step] at next
    split_ifs at next
    obtain rfl := Option.some.inj next
    exact spared_stop recorded owned
  | finish i unlinks =>
    obtain ⟨p, here, next⟩ := Option.bind_eq_some_iff.mp next
    split_ifs at next with holds
    obtain rfl := Option.some.inj next
    obtain ⟨kept, owned'⟩ := spared_finish recorded owned here holds.1 holds.2 unlinks
    exact ⟨kept, iff_of_true owned' trivial⟩
  | die i =>
    obtain ⟨p, here, next⟩ := Option.bind_eq_some_iff.mp next
    split_ifs at next
    obtain rfl := Option.some.inj next
    have fewer := fewer_set (t := { s with procs := s.procs.set i { p with alive := false } }) here rfl
    exact ⟨recorded_fewer recorded fewer fun _ mem => mem, iff_of_true (owned_fewer owned fewer rfl) trivial⟩
  | spawn pid argv0 =>
    rw [step] at next
    split_ifs at next with free
    obtain rfl := Option.some.inj next
    exact ⟨recorded_join recorded rfl False.elim (fun _ => free) fun _ mem => .inl mem,
      iff_of_true (owned_spawn owned pid argv0) trivial⟩

end Steps

theorem recorded_start (left : Option Text) : Recorded (PidLock.start left) where
  distinct i j p q here := by simp [PidLock.start] at here
  numbered p mem := by simp [PidLock.start] at mem
  idle p mem := by simp [PidLock.start] at mem
  written file mem i creator := by
    obtain ⟨content, -, rfl⟩ := Option.map_eq_some_iff.mp mem
    cases creator

def clear : Look := ⟨true, true, 0⟩

def opening : Opening := ⟨true, clear, true, true, 2, true, true⟩

def started : Command :=
  .start ⟨['d'], ['s'], 6, false, clear, clear, true, .child 7, opening, false, false, true⟩

end Libdank.PidLock.Daemonizer
