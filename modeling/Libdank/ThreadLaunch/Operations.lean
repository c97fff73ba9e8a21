import Libdank.Foundation.Transitions

/-! How a thread is launched, after `modules/tracing/threads.c`, from the moment
its `stack_wrapper` has been made. A step is one critical section of `statelock`
or `sigstack_lock`, or one use of the wrapper outside them; a wait on the
condition is a step that finds nothing changed. -/
namespace Libdank.ThreadLaunch

inductive TracedThreadState where
  | created | ready | failed | confirmedLaunched
deriving DecidableEq, Repr

/-- The next step of the creating thread, which later joins a thread that is not
detached. `failed` is whether `confirm_traceable_thread` returned -1. -/
inductive Creator where
  /-- `Pthread_create` -/
  | creating
  /-- `confirm_traceable_thread` -/
  | confirming
  /-- `Pthread_join` in `join_traceable_thread` -/
  | joining (failed : Bool)
  /-- The search of `remove_thread_stack` -/
  | removing (failed : Bool)
  /-- `free_stack_wrapper(&ts->sw)` -/
  | unlinked (failed : Bool)
  /-- `free_stack_wrapper(&sw)` -/
  | freeing
  | done
deriving DecidableEq, Repr

inductive Spawned where
  | unborn
  /-- The log context is set up from the fields of the wrapper. -/
  | starting
  /-- `setup_sigstack` -/
  | settingUp
  /-- `THREAD_READY` or `THREAD_FAILED` is set. -/
  | reporting (ok : Bool)
  /-- `sw->tfxn(sw->arg)` -/
  | running
  /-- The loop that waits for `THREAD_CONFIRMED_LAUNCHED` -/
  | awaiting
  /-- `if(sw->detached)` -/
  | departing
  /-- The search of `remove_thread_stack` -/
  | removing
  /-- `free_stack_wrapper(&ts->sw)` -/
  | unlinked
  /-- `free_stack_wrapper(&sw)` -/
  | freeing
  | ended
deriving DecidableEq, Repr

structure Launch where
  creator : Creator
  spawned : Spawned
  /-- `sw->state` -/
  state : TracedThreadState
  /-- `thread_stacks` has an entry of the spawned thread, which points to the wrapper. -/
  registered : Bool
  /-- How often the wrapper has been released. -/
  releases : ℕ
  /-- It has been used after that. -/
  wild : Bool
deriving DecidableEq, Repr

def start : Launch := ⟨.creating, .unborn, .created, false, 0, false⟩

def Launch.touch (s : Launch) : Launch := { s with wild := s.wild || s.releases ≠ 0 }

def Launch.release (s : Launch) : Launch := { s.touch with releases := s.releases + 1 }

variable (detached : Bool)

/-- `made` is whether the thread could be created. -/
def creatorStep (made : Bool) (s : Launch) : Option Launch :=
  match s.creator with
  | .creating =>
    if made then some { s.touch with creator := .confirming, spawned := .starting }
    else some { s.touch with creator := .freeing }
  | .confirming =>
    if s.state = .created then some s.touch
    else
      let failed : Bool := s.state ≠ .ready
      let s := { s.touch with state := .confirmedLaunched }
      if detached then some { s with creator := if failed then .freeing else .done }
      else some { s with creator := .joining failed }
  | .joining failed => if s.spawned = .ended then some { s with creator := .removing failed } else none
  | .removing failed =>
    if s.registered then some { s with registered := false, creator := .unlinked failed }
    else some { s with creator := if failed then .freeing else .done }
  | .unlinked failed => some { s.release with creator := if failed then .freeing else .done }
  | .freeing => some { s.release with creator := .done }
  | .done => none

def spawnedStep (able : Bool) (s : Launch) : Option Launch :=
  match s.spawned with
  | .unborn => none
  | .starting => some { s.touch with spawned := .settingUp }
  | .settingUp => some { s with registered := able, spawned := .reporting able }
  | .reporting ok =>
    if ok then some { s.touch with state := .ready, spawned := .running }
    else some { s.touch with state := .failed, spawned := .awaiting }
  | .running => some { s.touch with spawned := .awaiting }
  | .awaiting =>
    if s.state = .confirmedLaunched then some { s.touch with spawned := .departing } else some s.touch
  | .departing => some { s.touch with spawned := if detached then .removing else .ended }
  | .removing =>
    if s.registered then some { s.touch with registered := false, spawned := .unlinked }
    else some { s.touch with spawned := .freeing }
  | .unlinked => some { s.release with spawned := .ended }
  | .freeing => some { s.release with spawned := .ended }
  | .ended => none

inductive Action where
  | creator (made : Bool)
  | spawned
deriving DecidableEq, Repr

/-- `detached` is how the thread is created, `able` whether its `setup_sigstack`
succeeds. -/
def step (able : Bool) (s : Launch) : Action → Option Launch
  | .creator made => creatorStep detached made s
  | .spawned => spawnedStep detached able s

end Libdank.ThreadLaunch
