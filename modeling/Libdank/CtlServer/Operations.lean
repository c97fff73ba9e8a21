import Libdank.Foundation.Transitions
import Libdank.Parse

/-! The control server, after `modules/ctlserver/ctlserver.c`. An `export_cmd` is
known by its address and a `scheduled_cmd` by a number of its own; neither is
ever given out twice. A command scheduled holds two open descriptors, so that a
count of references stays far below the bound of its type. -/
namespace Libdank.CtlServer
open Parse

structure ExportCmd where
  refcount : ℕ
  cmd : Text
deriving DecidableEq, Repr

structure ScheduledCmd where
  ticket : ℕ
  cmd : ℕ
deriving DecidableEq, Repr

/-- What `srvrlock` protects, and what the threads that take the lock hold on to:
the drones their `me`, the deleters the `cur` they have unlinked. -/
structure Server where
  /-- The `export_cmd`s that have been allocated and not freed. -/
  exports : ℕ → Option ExportCmd
  cmdtable : List ℕ
  pendingCmdStates : List ScheduledCmd
  running : List (ℕ × ScheduledCmd)
  unlinked : List (ℕ × ℕ)
  /-- The next address and the next ticket. -/
  nextExport : ℕ
  nextTicket : ℕ
  /-- Which drone has taken which ticket so far. -/
  taken : List (ℕ × ℕ)
  /-- A freed `export_cmd` has been used. -/
  wild : Bool

def stopped : Server := ⟨fun _ => none, [], [], [], [], 0, 0, [], false⟩

variable (s : Server)

def Server.named (cmd : Text) (cur : ℕ) : Bool := (s.exports cur).any (·.cmd = cmd)

def Server.lookup (cmd : Text) : Option ℕ := s.cmdtable.find? (s.named cmd)

def Server.setRefcount (cur : ℕ) (f : ℕ → ℕ) : Server :=
  match s.exports cur with
  | some e => { s with exports := Function.update s.exports cur (some { e with refcount := f e.refcount }) }
  | none => { s with wild := true }

def regcommand (cmd : Text) (able : Bool) : Server :=
  if able then
    { s with
      exports := Function.update s.exports s.nextExport (some ⟨0, cmd⟩)
      cmdtable := s.nextExport :: s.cmdtable
      nextExport := s.nextExport + 1 }
  else s

/-- How a pass of the loop of `delcommand` ends. -/
inductive Pass where
  | missing | busy | extracted (cur : ℕ)
deriving DecidableEq, Repr

def delcommandPass (cmd : Text) : Pass × Server :=
  match s.lookup cmd with
  | none => (.missing, s)
  | some cur =>
    if (s.exports cur).any (·.refcount = 0) then
      (.extracted cur, { s with cmdtable := s.cmdtable.erase cur })
    else (.busy, s)

/-- Where no other thread is about, `none` if the loop waits for references to be given back. -/
def delcommand (cmd : Text) : Option (Bool × Server) :=
  match delcommandPass s cmd with
  | (.missing, t) => some (false, t)
  | (.busy, _) => none
  | (.extracted cur, t) =>
    some (true, { t with
      exports := Function.update t.exports cur none
      wild := t.wild || (t.exports cur).isNone })

/-- The loop of `regcommands` that takes back what it has registered, the last one first. -/
def unregister (s : Server) : List Text → Option Server
  | [] => some s
  | cmd :: registered => (delcommand s cmd).bind fun q => unregister q.2 registered

def regcommandsFrom (s : Server) (registered : List Text) : List (Text × Bool) → Option (Bool × Server)
  | [] => some (true, s)
  | (cmd, able) :: cmds =>
    if able then regcommandsFrom (regcommand s cmd able) (cmd :: registered) cmds
    else (unregister s registered).map fun s => (false, s)

def regcommands (cmds : List (Text × Bool)) : Option (Bool × Server) := regcommandsFrom s [] cmds

inductive Scheduling where
  | noHandler | noResources | scheduled
deriving DecidableEq, Repr

def schedule (cmdstr : Text) (able : Bool) : Scheduling × Server :=
  match s.lookup cmdstr with
  | none => (.noHandler, s)
  | some cur =>
    if able then
      let s := s.setRefcount cur (· + 1)
      (.scheduled, { s with
        pendingCmdStates := ⟨s.nextTicket, cur⟩ :: s.pendingCmdStates
        nextTicket := s.nextTicket + 1 })
    else (.noResources, s)

inductive Action where
  | regcommand (cmd : Text) (able : Bool)
  /-- A pass of the loop of `delcommand` in the thread `deleter`. -/
  | pass (deleter : ℕ) (cmd : Text)
  /-- The `Free` after the loop. -/
  | free (deleter : ℕ)
  | schedule (cmdstr : Text) (able : Bool)
  /-- A drone takes the first command pending. -/
  | dequeue (drone : ℕ)
  /-- A drone is done with its command. -/
  | complete (drone : ℕ)
deriving DecidableEq, Repr

def step : Action → Option Server
  | .regcommand cmd able => some (CtlServer.regcommand s cmd able)
  | .pass deleter cmd =>
    if (s.unlinked.lookup deleter).isSome then none
    else
      match delcommandPass s cmd with
      | (.extracted cur, t) => some { t with unlinked := (deleter, cur) :: t.unlinked }
      | (_, t) => some t
  | .free deleter =>
    (s.unlinked.lookup deleter).map fun cur =>
      { s with
        exports := Function.update s.exports cur none
        unlinked := s.unlinked.filter fun p => p.1 ≠ deleter
        wild := s.wild || (s.exports cur).isNone }
  | .schedule cmdstr able => some (CtlServer.schedule s cmdstr able).2
  | .dequeue drone =>
    if (s.running.lookup drone).isSome then none
    else
      match s.pendingCmdStates with
      | [] => none
      | me :: next =>
        some { s with
          pendingCmdStates := next
          running := (drone, me) :: s.running
          taken := (drone, me.ticket) :: s.taken }
  | .complete drone =>
    (s.running.lookup drone).map fun me =>
      let s := s.setRefcount me.cmd (· - 1)
      { s with running := s.running.filter fun p => p.1 ≠ drone }

variable {s}

theorem setRefcount_eq {cur : ℕ} {c : ExportCmd} (here : s.exports cur = some c) (f : ℕ → ℕ) :
    s.setRefcount cur f = { s with
      exports := Function.update s.exports cur (some { c with refcount := f c.refcount }) } := by
  rw [Server.setRefcount, here]

end Libdank.CtlServer
