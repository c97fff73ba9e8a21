import Libdank.Foundation.Ring
import Libdank.Foundation.Transitions
import Libdank.Parse

/-! The queue between those who log and one who listens, after
`modules/logging/logging.c`. A step is what is done under the lock of the
listener, or a read of `*l->lm` without it. Producers that do not get the lock do
nothing, so the steps of all of them are one kind of action. -/
namespace Libdank.LogListener
open Parse

structure ListenerMsg where
  msg : Text
  len : ℤ
deriving DecidableEq, Repr

def msgQueueSz : ℕ := 1024

def incQindex (i : ℕ) : ℕ := (i + 1) % msgQueueSz

def intMax : ℤ := 2 ^ 31 - 1

def incInt (d : ℤ) : ℤ := if d = intMax then -2 ^ 31 else d + 1

structure Listener where
  dropped : ℤ
  head : ℕ
  tail : ℕ
  msgQueue : ℕ → ListenerMsg
  lm : Option ℕ

def createListener : Listener := ⟨0, 0, 0, fun _ => ⟨[], 0⟩, none⟩

def Listener.enqueueSlot (l : Listener) : Option ℕ :=
  if incQindex l.tail ≠ l.head then some l.tail else none

def enqueueMsg (l : Listener) (msg : Text) (len : ℤ) : Listener :=
  match l.enqueueSlot with
  | some i => { l with tail := incQindex l.tail, msgQueue := Function.update l.msgQueue i ⟨msg, len⟩ }
  | none => { l with dropped := incInt l.dropped }

def dropMsg (drops : ℤ) : ListenerMsg :=
  let text := (toString drops ++ " messages dropped\n").toList
  ⟨text, text.length⟩

inductive Item where
  | message (m : ListenerMsg)
  | drops (d : ℤ)
deriving DecidableEq, Repr

/-- The loop of `block_on_lmsg` and what follows it; nothing is handed on where
it has to wait. -/
def takeLmsg (l : Listener) : Option Item × Listener :=
  if l.head = l.tail then (none, l)
  else (some (.message (l.msgQueue l.head)), { l with lm := some l.head, head := incQindex l.head })

/-- The locked part of `block_on_lmsg`, until it returns or waits. -/
def blockOnLmsg (l : Listener) : Option Item × Listener :=
  match l.lm with
  | none => takeLmsg l
  | some i =>
    if l.dropped ≠ 0 then
      (some (.drops l.dropped),
        { l with dropped := 0, msgQueue := Function.update l.msgQueue i (dropMsg l.dropped) })
    else takeLmsg { l with lm := none }

inductive Phase where
  /-- About to call `block_on_lmsg`. -/
  | calling
  /-- In `pthread_cond_wait`. -/
  | waiting
  /-- It has a message, and has not looked at its length. -/
  | taken
  /-- About to write `*l->lm` out. -/
  | holding
  /-- Out of the loop. -/
  | ended
deriving DecidableEq, Repr

structure Session where
  l : Listener
  phase : Phase
  /-- The messages that were put into the queue. -/
  accepted : List ListenerMsg
  /-- How many were not, for want of room. -/
  rejected : ℕ
  /-- What `block_on_lmsg` handed on. -/
  handed : List Item
  /-- What the consumer found when it read `*l->lm` later. -/
  found : List ListenerMsg

def start : Session := ⟨createListener, .calling, [], 0, [], []⟩

inductive Action where
  /-- `enqueue_msg` by some producer. -/
  | enqueue (msg : Text) (len : ℤ)
  | block
  /-- `pthread_cond_wait` returns. -/
  | wake
  /-- `return !l->lm->len` -/
  | check
  /-- The write of the message; `able` tells whether it succeeds. -/
  | write (able : Bool)
deriving DecidableEq, Repr

def Session.give (s : Session) : Option Item × Listener → Session
  | (none, l) => { s with l := l, phase := .waiting }
  | (some (.message m), l) => { s with l := l, phase := .taken, handed := s.handed ++ [.message m] }
  | (some (.drops d), l) => { s with l := l, phase := .holding, handed := s.handed ++ [.drops d] }

def step (s : Session) : Action → Option Session
  | .enqueue msg len =>
    let l := enqueueMsg s.l msg len
    match s.l.enqueueSlot with
    | some _ => some { s with l := l, accepted := s.accepted ++ [⟨msg, len⟩] }
    | none => some { s with l := l, rejected := s.rejected + 1 }
  | .block => if s.phase = .calling then some (s.give (blockOnLmsg s.l)) else none
  | .wake => if s.phase = .waiting then some (s.give (takeLmsg s.l)) else none
  | .check =>
    if s.phase = .taken then
      s.l.lm.map fun i =>
        if (s.l.msgQueue i).len = 0 then
          { s with phase := .ended, found := s.found ++ [s.l.msgQueue i] }
        else { s with phase := .holding }
    else none
  | .write able =>
    if s.phase = .holding then
      s.l.lm.map fun i =>
        { s with
          phase := if able then .calling else .ended
          found := s.found ++ [s.l.msgQueue i] }
    else none

end Libdank.LogListener
