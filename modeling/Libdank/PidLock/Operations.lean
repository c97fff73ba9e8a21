import Libdank.Foundation.Requests
import Libdank.Foundation.Transitions
import Libdank.Lexers

/-! Lock files that hold a process id, after `utils/pidlock.c`. Each action is one
system call of one process, or its death; any number of processes take them in
any order. A file keeps who created it, which no process can see. -/
namespace Libdank.PidLock
open Parse Lexers Requests

structure LockFile where
  inode : ℕ
  content : Text
  creator : Option ℕ
deriving DecidableEq, Repr

inductive Phase where
  /-- Not in it, and without the lock. -/
  | out
  /-- The lock file exists. -/
  | found
  /-- `read_pidlock_pid` has returned. -/
  | read (pid : ℤ)
  /-- The lock is not ours. -/
  | stale
  /-- The stale lock has been purged. -/
  | purged
  /-- It has made the lock file, and has it open. -/
  | created (inode : ℕ)
  /-- It could not write the lock file. -/
  | unwritten
  /-- It has returned 0. -/
  | holding
deriving DecidableEq, Repr

structure Process where
  pid : ℕ
  argv0 : Text
  alive : Bool
  phase : Phase
deriving DecidableEq, Repr

structure System where
  procs : List Process
  lock : Option LockFile
  inodes : ℕ
deriving DecidableEq, Repr

/-- `kill(pid,0)`. The process group of the caller, which 0 stands for, exists. -/
def pidExists (procs : List Process) (pid : ℤ) : Bool :=
  pid = 0 || procs.any fun q => q.alive && (q.pid : ℤ) = pid

/-- `procfs_cmdline_argv0`. `readable` is false where memory or procfs fail it. -/
def cmdlineArgv0 (procs : List Process) (readable : Bool) (pid : ℤ) : Option Text :=
  if readable then (procs.find? fun q => q.alive && (q.pid : ℤ) = pid).map (·.argv0) else none

/-- The number that a lock file holds, -1 where there is none. `uv` is what a
local of the lexer happens to hold. -/
def readPidlockPid (uv : ℕ) (lock : Option LockFile) : ℤ :=
  match lock with
  | none => -1
  | some file =>
    match (lexS32 uv (file.content.take 63)).1 with
    | .ok pid => pid
    | .error _ => -1

/-- The rest of `is_pidlock_ours`, once the number has been read. A NULL command
name disables the comparison. -/
def isPidlockOurs (procs : List Process) (readable : Bool) (cmd : Pointer Text) (pid : ℤ) : Bool :=
  if pid < 0 then false
  else if pidExists procs pid = false then false
  else
    match cmd with
    | none => true
    | some cmd => cmdlineArgv0 procs readable pid = some cmd

def openExclusive (s : System) (i : ℕ) : Option System :=
  match s.lock with
  | some _ => none
  | none => some { s with lock := some ⟨s.inodes, [], some i⟩, inodes := s.inodes + 1 }

def pidText (pid : ℕ) : Text := Nat.toDigits 10 pid ++ ['\n']

/-- A write to an open file; it reaches the lock file if that is still the same. -/
def writeFile (lock : Option LockFile) (inode : ℕ) (text : Text) : Option LockFile :=
  lock.map fun file => if file.inode = inode then { file with content := text } else file

def System.move (s : System) (i : ℕ) (p : Process) (phase : Phase) : System :=
  { s with procs := s.procs.set i { p with phase := phase } }

inductive Call where
  /-- The first exclusive create; `able` is false for an error other than EEXIST. -/
  | create (able : Bool)
  | readPid (able : Bool) (uv : ℕ)
  | check (readable : Bool)
  /-- The unlink of a stale lock; its result is ignored. -/
  | purge (able : Bool)
  | recreate (able : Bool)
  /-- The write, as far as it gets, and whether the file could be closed. -/
  | writePid (written : ℕ) (closed : Bool)
  /-- The unlink after a failed write. -/
  | abandon
  /-- `purge_lockfile` by the holder. -/
  | release
  | die
deriving DecidableEq, Repr

def act (cmd : Pointer Text) (s : System) (i : ℕ) (p : Process) : Phase → Call → Option System
  | .out, .create able =>
    if able then
      match openExclusive s i with
      | some t => some (t.move i p (.created s.inodes))
      | none => some (s.move i p .found)
    else some (s.move i p .out)
  | .found, .readPid able uv =>
    some (s.move i p (.read (if able then readPidlockPid uv s.lock else -1)))
  | .read pid, .check readable =>
    some (s.move i p (if isPidlockOurs s.procs readable cmd pid then .out else .stale))
  | .stale, .purge able => some ({ s with lock := if able then none else s.lock }.move i p .purged)
  | .purged, .recreate able =>
    match openExclusive s i with
    | some t => if able then some (t.move i p (.created s.inodes)) else some (s.move i p .out)
    | none => some (s.move i p .out)
  | .created inode, .writePid written closed =>
    let s := { s with lock := writeFile s.lock inode ((pidText p.pid).take written) }
    if (pidText p.pid).length ≤ written ∧ closed then some (s.move i p .holding)
    else some (s.move i p .unwritten)
  | .unwritten, .abandon => some ({ s with lock := none }.move i p .out)
  | .holding, .release => some ({ s with lock := none }.move i p .out)
  | _, .die => some { s with procs := s.procs.set i { p with alive := false } }
  | _, _ => none

inductive Action where
  /-- A process comes to be. -/
  | spawn (pid : ℕ) (argv0 : Text)
  | call (i : ℕ) (c : Call)
deriving DecidableEq, Repr

def step (cmd : Pointer Text) (s : System) : Action → Option System
  | .spawn pid argv0 =>
    if s.procs.any fun q => q.alive && q.pid = pid then none
    else some { s with procs := s.procs ++ [⟨pid, argv0, true, .out⟩] }
  | .call i c => (s.procs[i]?).bind fun p => if p.alive then act cmd s i p p.phase c else none

/-- No process has started; the lock file, if there is one, is somebody else's
from before. -/
def start (left : Option Text) : System :=
  ⟨[], left.map fun content => ⟨0, content, none⟩, 1⟩

end Libdank.PidLock
