import Libdank.Foundation.Holdings
import Libdank.Foundation.Transitions

/-! What event handlers are made of and what becomes of it, after `modules/events/evcore.c` as
it is on Linux. Any step may fail; `fails` tells which of them do in a call. -/
namespace Libdank.EventCore.Lifetime
open Requests Holdings

inductive Kind where
  | memory | descriptor | mutex | condvar | thread
deriving DecidableEq, Repr

abbrev Thing := Item Kind

section Vectors

structure Kevent where
  events : Thing
  ctldata : Thing
deriving DecidableEq, Repr

structure Evectors where
  block : Thing
  eventv : Kevent
  changev : Kevent
deriving DecidableEq, Repr

inductive VectorStep where
  | events | ctldata
deriving DecidableEq, Repr

inductive EvectorsStep where
  | maxFds | block | eventv (step : VectorStep) | changev (step : VectorStep)
deriving DecidableEq, Repr

def createEvector (fails : VectorStep → Bool) : Holder Kind (Option Kevent) := do
  if fails .events then pure none
  else
    let events ← take .memory
    if fails .ctldata then
      release events
      pure none
    else
      let ctldata ← take .memory
      pure (some ⟨events, ctldata⟩)

def destroyEvector (kv : Kevent) : Holder Kind Unit := do
  release kv.events
  release kv.ctldata

def createEvectors (fails : EvectorsStep → Bool) : Holder Kind (Option Evectors) := do
  if fails .maxFds then pure none
  else if fails .block then pure none
  else
    let block ← take .memory
    match ← createEvector fun step => fails (.eventv step) with
    | none =>
      release block
      pure none
    | some eventv =>
      match ← createEvector fun step => fails (.changev step) with
      | none =>
        destroyEvector eventv
        release block
        pure none
      | some changev => pure (some ⟨block, eventv, changev⟩)

def destroyEvectors (e : Evectors) : Holder Kind Unit := do
  destroyEvector e.changev
  destroyEvector e.eventv
  release e.block

end Vectors

section Sources

/-- An array of event sources, each with its lock. -/
structure Evsources where
  block : Thing
  locks : List Thing
deriving DecidableEq, Repr

inductive SourcesStep where
  | block | lock (z : ℕ)
deriving DecidableEq, Repr

def initLocks (fails : ℕ → Bool) : ℕ → ℕ → List Thing → Holder Kind (Bool × List Thing)
  | 0, _, made => pure (true, made)
  | todo + 1, z, made => do
    if fails z then pure (false, made)
    else
      let lock ← take .mutex
      initLocks fails todo (z + 1) (made ++ [lock])

def destroyEvsources (evs : Evsources) : Holder Kind Unit := do
  releaseAll evs.locks
  release evs.block

def createEvsources (n : ℕ) (fails : SourcesStep → Bool) : Holder Kind (Option Evsources) := do
  if fails .block then pure none
  else
    let block ← take .memory
    let (ok, locks) ← initLocks (fun z => fails (.lock z)) n 0 []
    if ok then pure (some ⟨block, locks⟩)
    else
      destroyEvsources ⟨block, locks⟩
      pure none

end Sources

structure Evthread where
  block : Thing
  ev : Evectors
  tid : Thing
deriving DecidableEq, Repr

structure Evhandler where
  block : Thing
  fd : Thing
  lock : Thing
  cond : Thing
  fdarray : Evsources
  sigarray : Evsources
  externalvec : Evectors
  threadlist : List Evthread
deriving DecidableEq, Repr

inductive SetUp where
  | epollCreate | nonblocking | block | mutexInit | condInit
  | fdarray (step : SourcesStep) | sigarray (step : SourcesStep)
  | externalvec (step : EvectorsStep)
  | sigaddset | sigmask | signalfd
  /-- The checks of `add_fd_to_evcore` and `add_evector_kevents`. -/
  | addFd
  | kevent
deriving DecidableEq, Repr

def addSignalToEvcore (fails : SetUp → Bool) : Holder Kind Bool := do
  if fails .sigaddset then pure false
  else if fails .sigmask then pure false
  else if fails .signalfd then pure false
  else
    let fd ← take .descriptor
    if fails .addFd then
      release fd
      pure false
    else pure true

def addEvhandlerBaseevents (fails : SetUp → Bool) : Holder Kind (Option Evectors) := do
  match ← createEvectors fun step => fails (.externalvec step) with
  | none => pure none
  | some ev =>
    if ← addSignalToEvcore fails then
      if fails .kevent then
        destroyEvectors ev
        pure none
      else pure (some ev)
    else
      destroyEvectors ev
      pure none

variable (maxFds sigrtmax : ℕ)

def initializeEvhandler (block fd : Thing) (fails : SetUp → Bool) : Holder Kind (Option Evhandler) := do
  if fails .mutexInit then pure none
  else
    let lock ← take .mutex
    if fails .condInit then
      release lock
      pure none
    else
      let cond ← take .condvar
      match ← createEvsources maxFds fun step => fails (.fdarray step) with
      | none =>
        release cond
        release lock
        pure none
      | some fdarray =>
        match ← createEvsources sigrtmax fun step => fails (.sigarray step) with
        | none =>
          destroyEvsources fdarray
          release cond
          release lock
          pure none
        | some sigarray =>
          match ← addEvhandlerBaseevents fails with
          | none =>
            destroyEvsources sigarray
            destroyEvsources fdarray
            release cond
            release lock
            pure none
          | some externalvec =>
            pure (some ⟨block, fd, lock, cond, fdarray, sigarray, externalvec, []⟩)

def fdCloexec : UInt32 := 1

def fdNonblock : UInt32 := 2

/-- What follows once the epoll descriptor is as it should be. -/
def createOn (fd : Thing) (fails : SetUp → Bool) : Holder Kind (Option Evhandler) := do
  if fails .block then
    release fd
    pure none
  else
    let block ← take .memory
    match ← initializeEvhandler maxFds sigrtmax block fd fails with
    | some e => pure (some e)
    | none =>
      release block
      release fd
      pure none

def createEvhandler (flags : UInt32) (fails : SetUp → Bool) : Holder Kind (Option Evhandler) := do
  if flags ≠ flags &&& (fdCloexec ||| fdNonblock) then pure none
  else if fails .epollCreate then pure none
  else
    let fd ← take .descriptor
    if flags &&& fdNonblock ≠ 0 ∧ fails .nonblocking then
      release fd
      pure none
    else createOn maxFds sigrtmax fd fails

inductive SpawnStep where
  | evthread | ev (step : EvectorsStep) | marshal | thread
deriving DecidableEq, Repr

/-- The thread frees the marshal it is given. -/
def spawnEvthread (eh : Evhandler) (fails : SpawnStep → Bool) : Holder Kind (Bool × Evhandler) := do
  if fails .evthread then pure (false, eh)
  else
    let evth ← take .memory
    match ← createEvectors fun step => fails (.ev step) with
    | none =>
      release evth
      pure (false, eh)
    | some ev =>
      if fails .marshal then
        destroyEvectors ev
        release evth
        pure (false, eh)
      else
        let emarsh ← take .memory
        if fails .thread then
          release emarsh
          destroyEvectors ev
          release evth
          pure (false, eh)
        else
          let tid ← take .thread
          release emarsh
          pure (true, { eh with threadlist := ⟨evth, ev, tid⟩ :: eh.threadlist })

def destroyEvthreadlist : List Evthread → Holder Kind Unit
  | [] => pure ()
  | e :: rest => do
    release e.tid
    destroyEvectors e.ev
    release e.block
    destroyEvthreadlist rest

def destroyEvhandler (e : Evhandler) : Holder Kind Unit := do
  destroyEvthreadlist e.threadlist
  release e.lock
  release e.cond
  destroyEvsources e.sigarray
  destroyEvsources e.fdarray
  destroyEvectors e.externalvec
  release e.fd
  release e.block

def createEvthread (flags : UInt32) (fails : SetUp → Bool) (spawnFails : SpawnStep → Bool) :
    Holder Kind (Option Evhandler) := do
  match ← createEvhandler maxFds sigrtmax flags fails with
  | none => pure none
  | some ret =>
    match ← spawnEvthread ret spawnFails with
    | (true, ret) => pure (some ret)
    | (false, ret) =>
      destroyEvhandler ret
      pure none

end Libdank.EventCore.Lifetime
