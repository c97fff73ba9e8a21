import Libdank.Foundation.Transitions
import Libdank.Signals

/-! The event core on Linux, after `modules/events/evcore.c`, `fds.c`, `sources.c` and `signals.c`
and the `Kevent` of `compat-Linux.h`. Descriptors are `int`s, and index arrays without a check
for negative ones. A call that changes the core holds its lock until the changes are flushed;
events are fetched in batches and handled without the lock. -/
namespace Libdank.EventCore
open Signals

def epollin : UInt32 := 0x001

def epollpri : UInt32 := 0x002

def epollout : UInt32 := 0x004

def epollerr : UInt32 := 0x008

def epollhup : UInt32 := 0x010

def epollrdhup : UInt32 := 0x2000

def epollet : UInt32 := 0x80000000

inductive Evcbfxn (F : Type) where
  | user (f : F)
  | signalfdDemultiplexer
deriving DecidableEq, Repr

/-- Nothing is kept of the state of `signalfd_demultiplexer`, which is the handler itself. -/
structure Evsource (F S : Type) where
  rxfxn : Option (Evcbfxn F)
  txfxn : Option (Evcbfxn F)
  cbstate : Option S
deriving DecidableEq, Repr

def Evsource.cleared {F S : Type} : Evsource F S := ⟨none, none, none⟩

structure Change where
  fd : ℤ
  events : UInt32
deriving DecidableEq, Repr

structure Evectors where
  changes : List Change
  vsizes : ℕ
deriving DecidableEq, Repr

/-- `wild` if a source has been read or written outside of its array. -/
structure Evhandler (F S : Type) where
  fdarray : List (Evsource F S)
  sigarray : List (Evsource F S)
  wild : Bool
deriving DecidableEq, Repr

variable {F S : Type}

def addEvectorKevents (e : Evectors) (k : List Change) : Bool × Evectors :=
  if e.vsizes ≤ e.changes.length + k.length then (false, e)
  else (true, { e with changes := e.changes ++ k })

def element (evs : List (Evsource F S)) (n : ℤ) : Option (Evsource F S) :=
  if 0 ≤ n then evs[n.toNat]? else none

def setupEvsource (evs : List (Evsource F S)) (n : ℤ) (src : Evsource F S) :
    Bool × List (Evsource F S) :=
  if 0 ≤ n ∧ n < evs.length then (false, evs.set n.toNat src) else (true, evs)

def Evsource.events (src : Evsource F S) : UInt32 :=
  epollet ||| epollrdhup ||| epollpri ||| (if src.rxfxn.isSome then epollin else 0) |||
    (if src.txfxn.isSome then epollout else 0)

def addFdEvent (ev : Evectors) (fd : ℤ) (src : Evsource F S) : Bool × Evectors :=
  addEvectorKevents ev [⟨fd, src.events⟩]

def Evhandler.setupFd (eh : Evhandler F S) (fd : ℤ) (src : Evsource F S) : Evhandler F S :=
  let (wild, fdarray) := setupEvsource eh.fdarray fd src
  { eh with fdarray := fdarray, wild := eh.wild || wild }

def Evhandler.setupSignal (eh : Evhandler F S) (sig : ℤ) (src : Evsource F S) : Evhandler F S :=
  let (wild, sigarray) := setupEvsource eh.sigarray sig src
  { eh with sigarray := sigarray, wild := eh.wild || wild }

/-- The descriptor is checked from above only. -/
def addFdToEvcore (eh : Evhandler F S) (ev : Evectors) (fd : ℤ) (src : Evsource F S) :
    Bool × Evhandler F S × Evectors :=
  if (eh.fdarray.length : ℤ) ≤ fd then (false, eh, ev)
  else if src.rxfxn.isNone ∧ src.txfxn.isNone then (false, eh, ev)
  else
    let (ok, ev) := addFdEvent ev fd src
    if ok then (true, eh.setupFd fd src, ev) else (false, eh, ev)

abbrev Interest := ℤ → Option UInt32

/-- `epoll_ctl(epfd,EPOLL_CTL_ADD,...)`. A descriptor cannot be added twice; `able` is false where
the kernel refuses it for another reason. -/
def epollCtl (able : Bool) (interest : Interest) (c : Change) : Bool × Interest :=
  if able ∧ interest c.fd = none then (true, Function.update interest c.fd (some c.events))
  else (false, interest)

/-- The first loop of `Kevent`, which goes on after a failure. -/
def keventChanges (able : ℤ → Bool) (interest : Interest) : List Change → Bool × Interest
  | [] => (true, interest)
  | c :: rest =>
    let (ok, interest) := epollCtl (able c.fd) interest c
    let (all, interest) := keventChanges able interest rest
    (ok && all, interest)

structure Event where
  fd : ℤ
  events : UInt32
deriving DecidableEq, Repr

structure Called (F S : Type) where
  n : ℤ
  f : F
  cbstate : Option S
deriving DecidableEq, Repr

/-- The function of a signal; the record comes from the kernel and is not checked. Whether the
source lies outside of the array, and the calls. -/
def handleSignal (sigarray : List (Evsource F S)) (signo : ℕ) : Bool × List (Called F S) :=
  match sigarray[signo]? with
  | none => (true, [])
  | some src =>
    match src.rxfxn with
    | some (.user f) => (false, [⟨signo, f, src.cbstate⟩])
    | some .signalfdDemultiplexer => (false, [])
    | none => (false, [])

structure Reading where
  errno : Errno
  results : List ReadResult
deriving DecidableEq, Repr

def handleSignals (sigarray : List (Evsource F S)) (reading : Reading) : Bool × List (Called F S) :=
  let handled := (signalfdDemultiplexer reading.errno reading.results).handled
  (handled.any fun signo => (handleSignal sigarray signo).1,
    handled.flatMap fun signo => (handleSignal sigarray signo).2)

def handleReadEvent (eh : Evhandler F S) (fd : ℤ) (reading : Reading) : Bool × List (Called F S) :=
  match element eh.fdarray fd with
  | none => (false, [])
  | some src =>
    match src.rxfxn with
    | none => (false, [])
    | some (.user f) => (false, [⟨fd, f, src.cbstate⟩])
    | some .signalfdDemultiplexer => handleSignals eh.sigarray reading

/-- One round of the loop of `handle_events`. A write event is only logged. -/
def handleEvent (eh : Evhandler F S) (e : Event) (reading : Reading) : Bool × List (Called F S) :=
  if e.events &&& epollin ≠ 0 then handleReadEvent eh e.fd reading else (false, [])

section System

structure Core (F S : Type) where
  eh : Evhandler F S
  externalvec : Evectors
  /-- The lock is held by a call that has set up this source, and is about to flush. -/
  calling : Option (ℤ × Evsource F S)
  interest : Interest
  /-- The signal that a signalfd tells of. -/
  signalfds : ℤ → Option ℕ
  /-- What each thread has fetched and not handled yet. -/
  batches : ℕ → List Event
  calls : List (Called F S)
  /-- What the calls that returned 0 have asked for, until the descriptor is closed. -/
  asked : ℤ → Option (Evsource F S)
  /-- What has last been asked for a signal. -/
  wanted : ℕ → Evsource F S

def Core.fresh (fds sigs vsizes : ℕ) : Core F S where
  eh := ⟨List.replicate fds .cleared, List.replicate sigs .cleared, false⟩
  externalvec := ⟨[], vsizes⟩
  calling := none
  interest := fun _ => none
  signalfds := fun _ => none
  batches := fun _ => []
  calls := []
  asked := fun _ => none
  wanted := fun _ => .cleared

def demultiplexer : Evsource F S := ⟨some .signalfdDemultiplexer, none, none⟩

inductive Action (F S : Type) where
  /-- `add_fd_to_evhandler` up to its flush -/
  | addFd (fd : ℤ) (src : Evsource F S)
  /-- `add_signal_to_evhandler` up to its flush; the signalfd is none if there was none to be had
  or the signal could not be blocked. -/
  | addSignal (sig : ℕ) (src : Evsource F S) (signalfd : Option ℤ)
  /-- `flush_evector_changes` -/
  | flush (able : Bool)
  | close (fd : ℤ)
  /-- `Kevent` returns events to a thread. -/
  | wait (thread : ℕ) (events : List Event)
  /-- The thread handles the last event of those left. -/
  | handle (thread : ℕ) (reading : Reading)
deriving DecidableEq, Repr

/-- An event is reported of what is watched, as far as it is watched. -/
def reported (interest : Interest) (e : Event) : Bool :=
  (interest e.fd).any fun mask => e.events &&& ~~~(mask ||| epollerr ||| epollhup) = 0

def Core.reads (s : Core F S) (fd : ℤ) (reading : Reading) : Bool :=
  reading.results.all fun r => r.signal.all fun signo => s.signalfds fd = some signo

/-- A call that cannot have the lock waits for it; a new signalfd is one that is not watched. -/
def step (s : Core F S) : Action F S → Option (Core F S)
  | .addFd fd src =>
    if s.calling.isSome then none
    else
      let r := addFdToEvcore s.eh s.externalvec fd src
      some { s with
        eh := r.2.1
        externalvec := r.2.2
        calling := if r.1 then some (fd, src) else none }
  | .addSignal sig src signalfd =>
    if s.calling.isSome then none
    -- `sigaddset` takes no signal 0
    else if s.eh.sigarray.length ≤ sig ∨ sig = 0 then some s
    else
      match signalfd with
      | none => some s
      | some fd =>
        if 0 ≤ fd ∧ s.interest fd = none then
          let r := addFdToEvcore s.eh s.externalvec fd demultiplexer
          let src := { src with txfxn := none }
          if r.1 then
            some { s with
              eh := r.2.1.setupSignal sig src
              externalvec := r.2.2
              calling := some (fd, demultiplexer)
              signalfds := Function.update s.signalfds fd (some sig)
              wanted := Function.update s.wanted sig src }
          -- the signalfd is closed
          else some s
        else none
  | .flush able =>
    s.calling.map fun (fd, src) =>
      let (ok, interest) := keventChanges (fun _ => able) s.interest s.externalvec.changes
      { s with
        interest := interest
        externalvec := { s.externalvec with changes := [] }
        calling := none
        asked := if ok then Function.update s.asked fd (some src) else s.asked }
  | .close fd =>
    some { s with
      interest := Function.update s.interest fd none
      signalfds := Function.update s.signalfds fd none
      asked := Function.update s.asked fd none }
  | .wait thread events =>
    if s.batches thread = [] ∧ events.all (reported s.interest) ∧ events.length ≤ s.externalvec.vsizes then
      some { s with batches := Function.update s.batches thread events }
    else none
  | .handle thread reading =>
    (s.batches thread).getLast?.bind fun e =>
      if s.reads e.fd reading then
        let (wild, calls) := handleEvent s.eh e reading
        some { s with
          eh := { s.eh with wild := s.eh.wild || wild }
          batches := Function.update s.batches thread (s.batches thread).dropLast
          calls := s.calls ++ calls }
      else none

end System

end Libdank.EventCore
