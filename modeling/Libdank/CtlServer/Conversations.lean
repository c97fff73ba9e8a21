import Libdank.CtlServer.Accepting
import Libdank.CtlServer.References

/-! What each client is told where every connection has two descriptors of its own. A connection
waits in the backlog of the socket, in the list of the pending commands or at a drone, and is closed
when it leaves the last of these. -/
namespace Libdank.CtlServer
open Parse Transitions

/-- What the client can read, and how often the server's end has been closed. -/
structure Socket where
  written : Text
  closed : ℕ
deriving DecidableEq, Repr

def Socket.opened : Socket := ⟨[], 0⟩

/-- What the function of a command comes to: what it writes to the connection itself, whether it
says that it has sent all there is, its output and its errors, and how much of these `Writen` is
able to write. -/
structure Reply where
  direct : Text
  sentSuccess : Bool
  out : Text
  err : Text
  outAble : ℕ
  errAble : ℕ
deriving DecidableEq, Repr

def Reply.onSd (r : Reply) : Text := r.direct ++ if r.sentSuccess then [] else r.out.take r.outAble

def Reply.onErrsd (r : Reply) : Text := if r.sentSuccess then [] else r.err.take r.errAble

/-- The server with its connections, each known by the order in which it was made. -/
structure Desk where
  server : Server
  /-- Connections that have not been accepted. -/
  backlog : List ℕ
  arrived : ℕ
  client : ℕ → Connection
  /-- The connection of a ticket. -/
  owner : ℕ → ℕ
  sd : ℕ → Socket
  errsd : ℕ → Socket
  /-- The commands that drones have run, by name, and for which connection. -/
  served : List (ℕ × Text × Reply)

def Desk.empty : Desk where
  server := stopped
  backlog := []
  arrived := 0
  client := fun _ => ⟨none, false, false⟩
  owner := fun _ => 0
  sd := fun _ => .opened
  errsd := fun _ => .opened
  served := []

def Socket.write (s : Socket) (t : Text) : Socket := { s with written := s.written ++ t }

def Socket.close (s : Socket) : Socket := { s with closed := s.closed + 1 }

def Desk.onSd (d : Desk) (n : ℕ) (f : Socket → Socket) : Desk :=
  { d with sd := Function.update d.sd n (f (d.sd n)) }

def Desk.onErrsd (d : Desk) (n : ℕ) (f : Socket → Socket) : Desk :=
  { d with errsd := Function.update d.errsd n (f (d.errsd n)) }

def Desk.tell (d : Desk) (n : ℕ) (reply : Reply) : Desk :=
  (d.onSd n (·.write reply.onSd)).onErrsd n (·.write reply.onErrsd)

def Desk.event (d : Desk) : Event → Desk
  | .closeSd n => d.onSd n .close
  | .closeErrsd n => d.onErrsd n .close
  | .run _ _ => d
  | .handed _ _ => d
  | .writeErrsd n message => d.onErrsd n (·.write message.toList)

def Desk.events (d : Desk) (events : List Event) : Desk := events.foldl Desk.event d

/-- One round of the loop of `localaccept`: what is done with the descriptors, and the desk apart
from that. -/
def Desk.accepting (d : Desk) (n : ℕ) (c : Connection) : List Event × Desk :=
  match c.handshake with
  | none => ([.closeSd n], d)
  | some cmdbuf =>
    if c.cloexec = false then ([.closeSd n, .closeErrsd n], d)
    else
      match checkForServerCommand n cmdbuf with
      | some events => (events, d)
      | none =>
        let (ok, events, server) := scheduleConnection d.server n cmdbuf c.memory
        (events, { d with
          server := server
          owner := if ok then Function.update d.owner d.server.nextTicket n else d.owner })

def Desk.accept (d : Desk) (n : ℕ) (c : Connection) : Desk :=
  let (events, d) := d.accepting n c
  d.events events

inductive Act where
  | connect (c : Connection)
  | accept
  /-- A command is registered or deleted. -/
  | register (cmd : Text) (able : Bool)
  | pass (deleter : ℕ) (cmd : Text)
  | free (deleter : ℕ)
  | dequeue (drone : ℕ)
  /-- The rest of the round of `ctldrone_main`, after the lock has been given back. -/
  | serve (drone : ℕ) (reply : Reply)

def Desk.onServer (d : Desk) (a : Action) : Option Desk :=
  (step d.server a).map fun server => { d with server := server }

/-- The command of a drone has been run: the connection that it was for, and the desk but for what
the connection is told. -/
def Desk.done (d : Desk) (drone : ℕ) (reply : Reply) : Option (ℕ × Desk) :=
  (d.server.running.lookup drone).bind fun me =>
    (d.server.exports me.cmd).bind fun cmd =>
      (step d.server (.complete drone)).map fun server =>
        (d.owner me.ticket, { d with
          server := server
          served := (d.owner me.ticket, cmd.cmd, reply) :: d.served })

def converse (d : Desk) : Act → Option Desk
  | .connect c =>
    some { d with
      backlog := d.backlog ++ [d.arrived]
      arrived := d.arrived + 1
      client := Function.update d.client d.arrived c }
  | .accept =>
    match d.backlog with
    | [] => none
    | n :: rest => some (Desk.accept { d with backlog := rest } n (d.client n))
  | .register cmd able => d.onServer (.regcommand cmd able)
  | .pass deleter cmd => d.onServer (.pass deleter cmd)
  | .free deleter => d.onServer (.free deleter)
  | .dequeue drone => d.onServer (.dequeue drone)
  | .serve drone reply =>
    (d.done drone reply).map fun (n, d) => (d.tell n reply).events (closeCmdState n)

def Server.queued (s : Server) : List ScheduledCmd := s.pendingCmdStates ++ s.running.map Prod.snd

def Desk.queue (d : Desk) : List ℕ := d.server.queued.map fun me => d.owner me.ticket

/-- Connections that the server has not done with. -/
def Desk.waiting (d : Desk) : List ℕ := d.backlog ++ d.queue

def Desk.servings (d : Desk) (n : ℕ) : List (ℕ × Text × Reply) := d.served.filter fun p => p.1 = n

def refusals : List Text := [[], "No handler for command.\n".toList, "No resources for command.\n".toList]

/-- The client has been told what its own command came to, and nothing else, or why it was not run. -/
def Desk.Answered (d : Desk) (n : ℕ) : Prop :=
  (d.servings n = [] ∧ (d.sd n).written = [] ∧ (d.errsd n).written ∈ refusals) ∨
    ∃ cmd reply, d.servings n = [(n, cmd, reply)] ∧ (d.client n).handshake = some cmd ∧
      (d.sd n).written = reply.onSd ∧ (d.errsd n).written = reply.onErrsd

structure Account (d : Desk) (n : ℕ) : Prop where
  untouched : n ∈ d.waiting ∨ d.arrived ≤ n → d.sd n = .opened ∧ d.errsd n = .opened ∧ d.servings n = []
  settled : n ∉ d.waiting → n < d.arrived → (d.sd n).closed = 1 ∧
    (d.errsd n).closed = (if (d.client n).handshake.isSome then 1 else 0) ∧ d.Answered n

/-- What every run keeps. -/
structure Desk.Kept (d : Desk) : Prop where
  counted : Counted d.server
  distinct : d.waiting.Nodup
  known : ∀ n ∈ d.waiting, n < d.arrived
  named : ∀ me ∈ d.server.queued, ∀ c, d.server.exports me.cmd = some c →
    (d.client (d.owner me.ticket)).handshake = some c.cmd
  accounts : ∀ n, Account d n

theorem kept_empty : Desk.empty.Kept where
  counted := counted_stopped
  distinct := List.nodup_nil
  known := fun _ none_ => absurd none_ List.not_mem_nil
  named := fun _ none_ => absurd none_ List.not_mem_nil
  accounts := fun _ => ⟨fun _ => ⟨rfl, rfl, rfl⟩, fun _ none_ => absurd none_ (Nat.not_lt_zero _)⟩

variable {d : Desk}

theorem ticket_lt {s : Server} (counted : Counted s) {me : ScheduledCmd} (queued : me ∈ s.queued) :
    me.ticket < s.nextTicket := by
  have among : me.ticket ∈ s.tickets := by
    rw [Server.tickets, List.mem_append]
    obtain pending | running := List.mem_append.mp queued
    · exact .inl (List.mem_map_of_mem pending)
    · obtain ⟨p, hp, rfl⟩ := List.mem_map.mp running
      exact .inr (List.mem_map.mpr ⟨_, counted.drawn p hp, rfl⟩)
  exact List.mem_range.mp (counted.tickets.mem_iff.mp among)

theorem queued_linked {s : Server} (counted : Counted s) {me : ScheduledCmd} (queued : me ∈ s.queued) :
    me.cmd ∈ s.cmdtable := by
  obtain pending | running := List.mem_append.mp queued
  · exact counted.pending me pending
  · obtain ⟨p, hp, rfl⟩ := List.mem_map.mp running
    exact counted.running p hp

theorem Effect.named {s t : Server} (counted : Counted s) (effect : Effect s t) {e : ℕ}
    (linked : e ∈ s.cmdtable) {c : ExportCmd} (after : t.exports e = some c) :
    ∃ c', s.exports e = some c' ∧ c'.cmd = c.cmd := by
  cases effect with
  | nothing => exact ⟨c, after, rfl⟩
  | registers cmd =>
    obtain ⟨c', here⟩ := counted.present e linked
    have other : e ≠ s.nextExport := (counted.fresh e c' here).ne
    exact ⟨c, (Function.update_of_ne other _ _).symm.trans after, rfl⟩
  | unlinks free mem zero => exact ⟨c, after, rfl⟩
  | @frees deleter cur held =>
    have other : e ≠ cur := by
      rintro rfl
      have mem := (perm_of_lookup counted.deleters held).mem_iff.mpr (.head _)
      exact (counted.apart _ mem).1 linked
    exact ⟨c, (Function.update_of_ne other _ _).symm.trans after, rfl⟩
  | @enqueues cur c' mem here =>
    by_cases same : e = cur
    · subst same
      obtain rfl : _ = c := by simpa using after
      exact ⟨c', here, rfl⟩
    · exact ⟨c, (Function.update_of_ne same _ _).symm.trans after, rfl⟩
  | dequeues idle first => exact ⟨c, after, rfl⟩
  | @completes drone me c' held here =>
    by_cases same : e = me.cmd
    · subst same
      obtain rfl : _ = c := by simpa using after
      exact ⟨c', here, rfl⟩
    · exact ⟨c, (Function.update_of_ne same _ _).symm.trans after, rfl⟩

theorem Account.congr {d' : Desk} {n : ℕ} (h : Account d n) (waiting : n ∈ d'.waiting ↔ n ∈ d.waiting)
    (arrived : n < d'.arrived ↔ n < d.arrived) (client : d'.client n = d.client n)
    (sd : d'.sd n = d.sd n) (errsd : d'.errsd n = d.errsd n) (servings : d'.servings n = d.servings n) :
    Account d' n := by
  have absent : d'.arrived ≤ n ↔ d.arrived ≤ n := by omega
  constructor
  · rw [waiting, absent, sd, errsd, servings]
    exact h.untouched
  · rw [waiting, arrived, client, sd, errsd, Desk.Answered, client, sd, errsd, servings]
    exact h.settled

theorem kept_move {d' : Desk} (kept : d.Kept) (perm : d'.waiting.Perm d.waiting)
    (counted : Counted d'.server)
    (named : ∀ me ∈ d'.server.queued, ∀ c, d'.server.exports me.cmd = some c →
      (d.client (d'.owner me.ticket)).handshake = some c.cmd)
    (arrived : d'.arrived = d.arrived) (client : d'.client = d.client) (sd : d'.sd = d.sd)
    (errsd : d'.errsd = d.errsd) (served : d'.served = d.served) : d'.Kept where
  counted := counted
  distinct := perm.nodup_iff.mpr kept.distinct
  known := fun n waits => arrived ▸ kept.known n (perm.mem_iff.mp waits)
  named := client ▸ named
  accounts := fun n => (kept.accounts n).congr perm.mem_iff (by rw [arrived]) (by rw [client]) (by rw [sd])
    (by rw [errsd]) (by rw [Desk.servings, Desk.servings, served])

theorem kept_settle {d' : Desk} {n : ℕ} (kept : d.Kept) (perm : d.waiting.Perm (n :: d'.waiting))
    (counted : Counted d'.server)
    (named : ∀ me ∈ d'.server.queued, ∀ c, d'.server.exports me.cmd = some c →
      (d.client (d'.owner me.ticket)).handshake = some c.cmd)
    (arrived : d'.arrived = d.arrived) (client : d'.client = d.client)
    (others : ∀ m ≠ n, d'.sd m = d.sd m ∧ d'.errsd m = d.errsd m ∧ d'.servings m = d.servings m)
    (done : (d'.sd n).closed = 1 ∧
      (d'.errsd n).closed = (if (d.client n).handshake.isSome then 1 else 0) ∧ d'.Answered n) :
    d'.Kept := by
  have distinct := List.nodup_cons.mp (perm.nodup_iff.mp kept.distinct)
  refine ⟨counted, distinct.2, fun m waits => ?_, client ▸ named, fun m => ?_⟩
  · exact arrived ▸ kept.known m (perm.mem_iff.mpr (.tail _ waits))
  · by_cases same : m = n
    · subst same
      have here := kept.known m (perm.mem_iff.mpr (.head _))
      refine ⟨fun open_ => ?_, fun _ _ => client ▸ done⟩
      rcases open_ with waits | absent
      · exact absurd waits distinct.1
      · omega
    · obtain ⟨sd, errsd, servings⟩ := others m same
      have waiting : m ∈ d'.waiting ↔ m ∈ d.waiting := by
        rw [perm.mem_iff, List.mem_cons, or_iff_right same]
      exact (kept.accounts m).congr waiting (by rw [arrived]) (by rw [client]) sd errsd servings

theorem kept_connect (kept : d.Kept) (c : Connection) : ∀ d', converse d (.connect c) = some d' → d'.Kept := by
  rintro d' next
  obtain rfl := Option.some.inj next
  have new : d.arrived ∉ d.waiting := fun waits => lt_irrefl _ (kept.known _ waits)
  have waiting (n : ℕ) : n ∈ (d.backlog ++ [d.arrived]) ++ d.server.queued.map (fun me => d.owner me.ticket) ↔
      n ∈ d.waiting ∨ n = d.arrived := by
    simp only [Desk.waiting, List.mem_append, List.mem_singleton]
    tauto
  refine ⟨kept.counted, ?_, fun n waits => ?_, fun me queued c' here => ?_, fun n => ?_⟩
  · have perm : ((d.backlog ++ [d.arrived]) ++ d.server.queued.map fun me => d.owner me.ticket).Perm
        (d.arrived :: d.waiting) := by
      rw [List.append_assoc, List.singleton_append]
      exact List.perm_middle
    exact perm.nodup_iff.mpr (List.nodup_cons.mpr ⟨new, kept.distinct⟩)
  · obtain waits | rfl := (waiting n).mp waits
    · exact Nat.lt_succ_of_lt (kept.known n waits)
    · exact Nat.lt_succ_self _
  · have other : d.owner me.ticket ≠ d.arrived := by
      intro same
      exact new (same ▸ List.mem_append_right _ (List.mem_map_of_mem queued))
    simp only [Function.update_of_ne other]
    exact kept.named me queued c' here
  · by_cases same : n = d.arrived
    · subst same
      refine ⟨fun _ => (kept.accounts _).untouched (.inr le_rfl), fun idle => ?_⟩
      exact absurd ((waiting _).mpr (.inr rfl)) idle
    · refine (kept.accounts n).congr ?_ ?_ (Function.update_of_ne same _ _) rfl rfl rfl
      · exact (waiting n).trans (or_iff_left same)
      · simp only
        omega

theorem named_effect (kept : d.Kept) {t : Server} (effect : Effect d.server t)
    (queued : ∀ me ∈ t.queued, me ∈ d.server.queued) :
    ∀ me ∈ t.queued, ∀ c, t.exports me.cmd = some c →
      (d.client (d.owner me.ticket)).handshake = some c.cmd := by
  intro me mem c after
  have before := queued me mem
  obtain ⟨c', here, same⟩ := effect.named kept.counted (queued_linked kept.counted before) after
  exact same ▸ kept.named me before c' here

theorem done_some {drone : ℕ} {reply : Reply} {n : ℕ} {d' : Desk} (ended : d.done drone reply = some (n, d')) :
    ∃ me cmd server, d.server.running.lookup drone = some me ∧ d.server.exports me.cmd = some cmd ∧
      step d.server (.complete drone) = some server ∧ n = d.owner me.ticket ∧
      d' = { d with server := server, served := (n, cmd.cmd, reply) :: d.served } := by
  rw [Desk.done] at ended
  obtain ⟨me, held, ended⟩ := Option.bind_eq_some_iff.mp ended
  obtain ⟨cmd, here, ended⟩ := Option.bind_eq_some_iff.mp ended
  obtain ⟨server, stepped, same⟩ := Option.map_eq_some_iff.mp ended
  obtain ⟨rfl, rfl⟩ := Prod.mk.inj same
  exact ⟨me, cmd, server, held, here, stepped, rfl, rfl⟩

theorem complete_queued {s server : Server} (counted : Counted s) {drone : ℕ} {me : ScheduledCmd}
    {cmd : ExportCmd} (held : s.running.lookup drone = some me) (here : s.exports me.cmd = some cmd)
    (stepped : step s (.complete drone) = some server) : s.queued.Perm (me :: server.queued) := by
  rw [step, held, Option.map_some, setRefcount_eq here] at stepped
  obtain rfl := Option.some.inj stepped
  have runs := (perm_of_lookup counted.drones held).map Prod.snd
  exact (runs.append_left s.pendingCmdStates).trans List.perm_middle

theorem kept_serve (kept : d.Kept) {drone : ℕ} {reply : Reply} :
    ∀ d', converse d (.serve drone reply) = some d' → d'.Kept := by
  intro d' next
  obtain ⟨⟨n, d₁⟩, ended, rfl⟩ := Option.map_eq_some_iff.mp next
  obtain ⟨me, cmd, server, held, here, stepped, rfl, rfl⟩ := done_some ended
  have effect := step_effect kept.counted stepped
  have queue := complete_queued kept.counted held here stepped
  have first : me ∈ d.server.queued := queue.mem_iff.mpr (.head _)
  have name := kept.named me first cmd here
  have waits : d.owner me.ticket ∈ d.waiting := List.mem_append_right _ (List.mem_map_of_mem first)
  obtain ⟨sd, errsd, servings⟩ := (kept.accounts (d.owner me.ticket)).untouched (.inl waits)
  have left : d.waiting.Perm (d.owner me.ticket :: (d.backlog ++ server.queued.map fun me => d.owner me.ticket)) :=
    ((queue.map fun me : ScheduledCmd => d.owner me.ticket).append_left d.backlog).trans List.perm_middle
  refine kept_settle kept left (kept.counted.effect effect)
    (named_effect kept effect fun me' mem => queue.mem_iff.mpr (.tail _ mem)) rfl rfl (fun m other => ?_) ?_
  · simp [Desk.tell, Desk.events, closeCmdState, Desk.event, Desk.onSd, Desk.onErrsd, Desk.servings,
      Function.update_of_ne other, Ne.symm other]
  · refine ⟨?_, ?_, .inr ⟨cmd.cmd, reply, ?_, name, ?_, ?_⟩⟩
    · simp [Desk.tell, Desk.events, closeCmdState, Desk.event, Desk.onSd, Desk.onErrsd, sd, Socket.opened, Socket.write,
        Socket.close]
    · simp [Desk.tell, Desk.events, closeCmdState, Desk.event, Desk.onSd, Desk.onErrsd, errsd, Socket.opened,
        Socket.write, Socket.close, name]
    · change List.filter _ (_ :: d.served) = _
      rw [List.filter_cons_of_pos (by simp)]
      exact congrArg _ servings
    · simp [Desk.tell, Desk.events, closeCmdState, Desk.event, Desk.onSd, Desk.onErrsd, sd, Socket.opened, Socket.write,
        Socket.close]
    · simp [Desk.tell, Desk.events, closeCmdState, Desk.event, Desk.onSd, Desk.onErrsd, errsd, Socket.opened,
        Socket.write, Socket.close]

theorem dequeue_queued {s server : Server} {drone : ℕ} (stepped : step s (.dequeue drone) = some server) :
    server.queued.Perm s.queued := by
  simp only [step] at stepped
  split at stepped
  · cases stepped
  · cases first : s.pendingCmdStates with
    | nil => simp [first] at stepped
    | cons me rest =>
      rw [first] at stepped
      obtain rfl := Option.some.inj stepped
      rw [Server.queued, Server.queued, first]
      exact List.perm_middle

theorem kept_dequeue (kept : d.Kept) {drone : ℕ} :
    ∀ d', converse d (.dequeue drone) = some d' → d'.Kept := by
  intro d' next
  obtain ⟨server, stepped, rfl⟩ := Option.map_eq_some_iff.mp next
  have effect := step_effect kept.counted stepped
  have queue := dequeue_queued stepped
  exact kept_move kept ((queue.map fun me => d.owner me.ticket).append_left _) (kept.counted.effect effect)
    (named_effect kept effect fun me mem => queue.mem_iff.mp mem) rfl rfl rfl rfl rfl

theorem kept_onServer (kept : d.Kept) {a : Action} (quiet : ∀ t, step d.server a = some t →
    t.queued = d.server.queued) : ∀ d', d.onServer a = some d' → d'.Kept := by
  intro d' next
  obtain ⟨server, stepped, rfl⟩ := Option.map_eq_some_iff.mp next
  have effect := step_effect kept.counted stepped
  have queue := quiet server stepped
  refine kept_move kept (.of_eq ?_) (kept.counted.effect effect)
    (named_effect kept effect fun me mem => queue ▸ mem) rfl rfl rfl rfl rfl
  rw [Desk.waiting, Desk.waiting, Desk.queue, Desk.queue, queue]

theorem delcommandPass_queued (s : Server) (cmd : Text) : (delcommandPass s cmd).2.queued = s.queued := by
  rw [delcommandPass]
  split
  · rfl
  · split <;> rfl

theorem quiet_pass {s t : Server} {deleter : ℕ} {cmd : Text} (next : step s (.pass deleter cmd) = some t) :
    t.queued = s.queued := by
  have same := delcommandPass_queued s cmd
  simp only [step] at next
  split at next
  · cases next
  · split at next
    · rename_i ended
      obtain rfl := Option.some.inj next
      rw [ended] at same
      exact same
    · rename_i ended
      obtain rfl := Option.some.inj next
      rw [ended] at same
      exact same

theorem schedule_failed {s : Server} {cmdstr : Text} {able : Bool}
    (not_ : ¬ ((s.lookup cmdstr).isSome ∧ able = true)) : (schedule s cmdstr able).2 = s := by
  rw [schedule]
  cases found : s.lookup cmdstr with
  | none => rfl
  | some cur =>
    have none_ : able = false := by
      by_contra some_
      exact not_ ⟨by rw [found]; rfl, by simpa using some_⟩
    simp [none_]

theorem scheduleConnection_handed {s : Server} (n : ℕ) {cmdstr : Text} {able : Bool}
    (can : (s.lookup cmdstr).isSome ∧ able = true) : scheduleConnection s n cmdstr able =
      (true, [.handed n cmdstr], (schedule s cmdstr able).2) := by
  rcases scheduleConnection_cases s n cmdstr able with ⟨-, -, eq⟩ | ⟨not_, -⟩
  · exact eq
  · exact absurd can not_

theorem scheduleConnection_refused {s : Server} (n : ℕ) {cmdstr : Text} {able : Bool}
    (not_ : ¬ ((s.lookup cmdstr).isSome ∧ able = true)) : ∃ message,
      scheduleConnection s n cmdstr able =
        (false, [.writeErrsd n message, .closeSd n, .closeErrsd n], s) ∧ message.toList ∈ refusals := by
  have same := schedule_failed not_
  rw [← schedule_scheduled] at not_
  rw [scheduleConnection]
  generalize schedule s cmdstr able = q at not_ same ⊢
  obtain ⟨outcome, t⟩ := q
  obtain rfl : t = s := same
  cases outcome with
  | scheduled => exact absurd rfl not_
  | noHandler => exact ⟨_, rfl, by simp [refusals]⟩
  | noResources => exact ⟨_, rfl, by simp [refusals]⟩

theorem schedule_queued {s : Server} (counted : Counted s) {cmdstr : Text}
    (found : (s.lookup cmdstr).isSome) : ∃ cur c, s.exports cur = some c ∧ c.cmd = cmdstr ∧
      cur ∈ s.cmdtable ∧ (schedule s cmdstr true).2.queued = ⟨s.nextTicket, cur⟩ :: s.queued := by
  obtain ⟨cur, here⟩ := Option.isSome_iff_exists.mp found
  have linked := List.mem_of_find?_eq_some here
  obtain ⟨c, there⟩ := counted.present cur linked
  have named : s.named cmdstr cur = true := List.find?_some here
  refine ⟨cur, c, there, ?_, linked, ?_⟩
  · simpa [Server.named, there] using named
  · simp only [schedule, here, if_true, setRefcount_eq there]
    rfl

theorem kept_refuse (kept : d.Kept) {n : ℕ} {rest : List ℕ} (first : d.backlog = n :: rest) (errsd : Socket)
    (closed : errsd.closed = if (d.client n).handshake.isSome then 1 else 0)
    (told : errsd.written ∈ refusals) :
    Desk.Kept { d with
      backlog := rest
      sd := Function.update d.sd n ⟨[], 1⟩
      errsd := Function.update d.errsd n errsd } := by
  have waits : n ∈ d.waiting := List.mem_append_left _ (first ▸ .head _)
  have untouched := (kept.accounts n).untouched (.inl waits)
  have left : d.waiting.Perm (n :: (rest ++ d.server.queued.map fun me => d.owner me.ticket)) := by
    rw [Desk.waiting, first]
    rfl
  refine kept_settle kept left kept.counted kept.named rfl rfl (fun m other => ?_) ⟨?_, ?_, .inl ?_⟩
  · simp [Desk.servings, Function.update_of_ne other]
  · simp
  · simpa using closed
  · exact ⟨untouched.2.2, by simp, by simpa using told⟩

theorem handed_queue (kept : d.Kept) {cmdbuf : Text} (found : (d.server.lookup cmdbuf).isSome) (n : ℕ) :
    Desk.queue { d with
      server := (schedule d.server cmdbuf true).2
      owner := Function.update d.owner d.server.nextTicket n } = n :: d.queue := by
  obtain ⟨cur, c, -, -, -, queue⟩ := schedule_queued kept.counted found
  rw [Desk.queue, queue, List.map_cons]
  refine congrArg₂ _ (Function.update_self _ _ _) (List.map_congr_left fun me queued => ?_)
  exact Function.update_of_ne (ticket_lt kept.counted queued).ne _ _

theorem kept_hand (kept : d.Kept) {n : ℕ} {rest : List ℕ} (first : d.backlog = n :: rest) {cmdbuf : Text}
    (shake : (d.client n).handshake = some cmdbuf) (found : (d.server.lookup cmdbuf).isSome) :
    Desk.Kept { d with
      backlog := rest
      server := (schedule d.server cmdbuf true).2
      owner := Function.update d.owner d.server.nextTicket n } := by
  have effect := schedule_effect kept.counted cmdbuf true
  obtain ⟨cur, c, here, name, linked, queue⟩ := schedule_queued kept.counted found
  have old {me : ScheduledCmd} (queued : me ∈ d.server.queued) :
      Function.update d.owner d.server.nextTicket n me.ticket = d.owner me.ticket :=
    Function.update_of_ne (ticket_lt kept.counted queued).ne _ _
  refine kept_move kept ?_ (kept.counted.effect effect) (fun me queued c' after => ?_) rfl rfl rfl rfl rfl
  · rw [Desk.waiting, Desk.waiting, first]
    exact ((List.Perm.of_eq (handed_queue kept found n)).append_left rest).trans List.perm_middle
  · rw [queue, List.mem_cons] at queued
    obtain rfl | queued := queued
    · obtain ⟨c'', before, same⟩ := effect.named kept.counted linked after
      obtain rfl : c = c'' := Option.some.inj (here.symm.trans before)
      simp only [Function.update_self]
      rw [shake, ← same, name]
    · simp only [old queued]
      obtain ⟨c'', before, same⟩ := effect.named kept.counted (queued_linked kept.counted queued) after
      exact same ▸ kept.named me queued c'' before

theorem kept_accept (kept : d.Kept) : ∀ d', converse d .accept = some d' → d'.Kept := by
  intro d' next
  cases first : d.backlog with
  | nil => simp [converse, first] at next
  | cons n rest =>
    simp only [converse, first] at next
    obtain rfl := Option.some.inj next
    have waits : n ∈ d.waiting := List.mem_append_left _ (first ▸ .head _)
    obtain ⟨sd, errsd, -⟩ := (kept.accounts n).untouched (.inl waits)
    rw [Desk.accept, Desk.accepting]
    cases shake : (d.client n).handshake with
    | none =>
      have kept' := kept_refuse kept first .opened (by simp [shake, Socket.opened])
        (by simp [refusals, Socket.opened])
      rw [← errsd, Function.update_eq_self] at kept'
      simpa [Desk.events, Desk.event, Desk.onSd, sd, Socket.opened, Socket.close] using kept'
    | some cmdbuf =>
      have refuse (told : Text) (among : told ∈ refusals) :=
        kept_refuse kept first ⟨told, 1⟩ (by simp [shake]) among
      have silent := refuse [] (by simp [refusals])
      by_cases cloexec : (d.client n).cloexec = false
      · simpa [cloexec, Desk.events, Desk.event, Desk.onSd, Desk.onErrsd, sd, errsd, Socket.opened,
          Socket.close] using silent
      by_cases internal : cmdbuf ∈ serverCommands
      · simpa [cloexec, checkForServerCommand, internal, closeCmdState, Desk.events, Desk.event, Desk.onSd,
          Desk.onErrsd, sd, errsd, Socket.opened, Socket.close] using silent
      simp only [if_neg cloexec, checkForServerCommand, if_neg internal]
      by_cases can : (d.server.lookup cmdbuf).isSome ∧ (d.client n).memory = true
      · rw [scheduleConnection_handed n can, can.2]
        exact kept_hand kept first shake can.1
      · obtain ⟨message, eq, among⟩ := scheduleConnection_refused n can
        rw [eq]
        simpa [Desk.events, Desk.event, Desk.onSd, Desk.onErrsd, sd, errsd, Socket.opened, Socket.close,
          Socket.write] using refuse message.toList among

theorem converse_kept (kept : d.Kept) (a : Act) {d' : Desk} (next : converse d a = some d') : d'.Kept := by
  cases a with
  | connect c => exact kept_connect kept c d' next
  | accept => exact kept_accept kept d' next
  | register cmd able =>
    refine kept_onServer kept (fun t stepped => ?_) d' next
    obtain rfl := Option.some.inj stepped
    cases able <;> rfl
  | pass deleter cmd => exact kept_onServer kept (fun t stepped => quiet_pass stepped) d' next
  | free deleter =>
    refine kept_onServer kept (fun t stepped => ?_) d' next
    obtain ⟨cur, -, rfl⟩ := Option.map_eq_some_iff.mp stepped
    rfl
  | dequeue drone => exact kept_dequeue kept d' next
  | serve drone reply => exact kept_serve kept d' next

theorem run_kept {acts : List Act} {d : Desk} (reached : run converse .empty acts = some d) : d.Kept :=
  run_invariant (fun _ a _ kept next => converse_kept kept a next) kept_empty reached

end Libdank.CtlServer
