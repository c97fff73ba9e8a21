import Libdank.CtlServer.Operations

/-! The callback of the control socket. The socket is registered edge-triggered:
what is still pending when the callback returns is not reported again. -/
namespace Libdank.CtlServer
open Parse

/-- A pending connection: the command string that `ctlserv_accept` gets from it
with a descriptor, none if the handshake is malformed; whether the descriptor can
be set to close on exec; and whether there is memory to schedule the command. -/
structure Connection where
  handshake : Option Text
  cloexec : Bool
  memory : Bool
deriving DecidableEq, Repr

/-- What is done with the connection of the given number, in the order in which
they are accepted. -/
inductive Event where
  | closeSd (n : ℕ) | closeErrsd (n : ℕ)
  /-- A server-internal command is run. -/
  | run (n : ℕ) (cmd : Text)
  /-- A drone will run the command, and close the connection. -/
  | handed (n : ℕ) (cmd : Text)
  | writeErrsd (n : ℕ) (message : String)
deriving DecidableEq, Repr

def serverCommands : List Text := ["shutdown".toList, "internal_noop".toList]

def closeCmdState (n : ℕ) : List Event := [.closeSd n, .closeErrsd n]

def checkForServerCommand (n : ℕ) (cmd : Text) : Option (List Event) :=
  if cmd ∈ serverCommands then some (.run n cmd :: closeCmdState n) else none

def scheduleConnection (s : Server) (n : ℕ) (cmdstr : Text) (able : Bool) :
    Bool × List Event × Server :=
  match schedule s cmdstr able with
  | (.scheduled, s) => (true, [.handed n cmdstr], s)
  | (.noHandler, s) =>
    (false, [.writeErrsd n "No handler for command.\n", .closeSd n, .closeErrsd n], s)
  | (.noResources, s) =>
    (false, [.writeErrsd n "No resources for command.\n", .closeSd n, .closeErrsd n], s)

/-- What the callback did: whether `accept_local` reported that nothing is
pending, how many connections it accepted, and the events. -/
structure Accepted where
  drained : Bool
  count : ℕ
  events : List Event
deriving DecidableEq, Repr

def localaccept (s : Server) (n : ℕ) : List Connection → Accepted
  | [] => ⟨true, n, []⟩
  | c :: pending =>
    match c.handshake with
    | none => ⟨false, n + 1, [.closeSd n]⟩
    | some cmdbuf =>
      if c.cloexec = false then ⟨false, n + 1, [.closeSd n, .closeErrsd n]⟩
      else
        match checkForServerCommand n cmdbuf with
        | some events => ⟨false, n + 1, events⟩
        | none =>
          match scheduleConnection s n cmdbuf c.memory with
          | (false, events, _) => ⟨false, n + 1, events⟩
          | (true, events, s) =>
            let later := localaccept s (n + 1) pending
            { later with events := events ++ later.events }

def settled (n : ℕ) (events : List Event) : ℕ :=
  events.countP fun e =>
    match e with
    | .closeSd m => m = n
    | .handed m _ => m = n
    | _ => false

/-- The connection brings a registered command, and nothing fails. -/
def Schedulable (s : Server) (c : Connection) : Prop :=
  ∃ cmd, c.handshake = some cmd ∧ c.cloexec = true ∧ cmd ∉ serverCommands ∧
    (s.lookup cmd).isSome ∧ c.memory = true

theorem setRefcount_lookup (s : Server) {cur : ℕ} {c : ExportCmd} (here : s.exports cur = some c)
    (f : ℕ → ℕ) (cmd : Text) : (s.setRefcount cur f).lookup cmd = s.lookup cmd := by
  have named : (s.setRefcount cur f).named cmd = s.named cmd := by
    funext e
    rw [Server.named, Server.named, setRefcount_eq here]
    by_cases same : e = cur
    · subst same
      simp [here]
    · simp only [Function.update_of_ne same]
  rw [Server.lookup, Server.lookup, named, setRefcount_eq here]

theorem schedule_lookup (s : Server) (cmdstr : Text) (able : Bool) (cmd : Text) :
    (schedule s cmdstr able).2.lookup cmd = s.lookup cmd := by
  unfold schedule
  cases found : s.lookup cmdstr with
  | none => rfl
  | some cur =>
    cases able with
    | false => rfl
    | true =>
      have named : s.named cmdstr cur = true := List.find?_some found
      obtain ⟨c, here⟩ : ∃ c, s.exports cur = some c := by
        rw [Server.named] at named
        cases here : s.exports cur with
        | none => simp [here] at named
        | some c => exact ⟨c, rfl⟩
      exact setRefcount_lookup s here _ cmd

theorem schedule_scheduled (s : Server) (cmdstr : Text) (able : Bool) :
    (schedule s cmdstr able).1 = .scheduled ↔ (s.lookup cmdstr).isSome ∧ able = true := by
  unfold schedule
  cases s.lookup cmdstr <;> cases able <;> simp

theorem scheduleConnection_cases (s : Server) (n : ℕ) (cmdstr : Text) (able : Bool) :
    ((s.lookup cmdstr).isSome ∧ able = true ∧ scheduleConnection s n cmdstr able =
      (true, [.handed n cmdstr], (schedule s cmdstr able).2)) ∨
    (¬ ((s.lookup cmdstr).isSome ∧ able = true) ∧ ∃ message, scheduleConnection s n cmdstr able =
      (false, [.writeErrsd n message, .closeSd n, .closeErrsd n], (schedule s cmdstr able).2)) := by
  have scheduled := schedule_scheduled s cmdstr able
  unfold scheduleConnection
  generalize schedule s cmdstr able = q at scheduled ⊢
  obtain ⟨outcome, t⟩ := q
  cases outcome with
  | scheduled => exact .inl ⟨(scheduled.mp rfl).1, (scheduled.mp rfl).2, rfl⟩
  | noHandler => exact .inr ⟨fun both => (nomatch scheduled.mpr both), _, rfl⟩
  | noResources => exact .inr ⟨fun both => (nomatch scheduled.mpr both), _, rfl⟩

theorem localaccept_cons (s : Server) (n : ℕ) (c : Connection) (pending : List Connection) :
    (∃ cmd t, Schedulable s c ∧ (∀ cmd, t.lookup cmd = s.lookup cmd) ∧
      localaccept s n (c :: pending) =
        { localaccept t (n + 1) pending with
          events := .handed n cmd :: (localaccept t (n + 1) pending).events }) ∨
    (¬ Schedulable s c ∧ ∃ events, localaccept s n (c :: pending) = ⟨false, n + 1, events⟩ ∧
      settled n events = 1 ∧ ∀ m ≠ n, settled m events = 0) := by
  rw [localaccept]
  cases shake : c.handshake with
  | none =>
    refine .inr ⟨?_, _, rfl, by simp [settled], fun m other => by simp [settled, Ne.symm other]⟩
    rintro ⟨cmd, some_, -⟩
    simp [shake] at some_
  | some cmdbuf =>
    have same {cmd : Text} (some_ : c.handshake = some cmd) : cmdbuf = cmd :=
      Option.some.inj (shake.symm.trans some_)
    by_cases cloexec : c.cloexec = false
    · simp only [cloexec, if_true]
      refine .inr ⟨?_, _, rfl, by simp [settled], fun m other => by simp [settled, Ne.symm other]⟩
      rintro ⟨cmd, -, set_, -⟩
      simp [cloexec] at set_
    · simp only [if_neg cloexec]
      by_cases internal : cmdbuf ∈ serverCommands
      · simp only [checkForServerCommand, if_pos internal]
        refine .inr ⟨?_, _, rfl, by simp [settled, closeCmdState],
          fun m other => by simp [settled, closeCmdState, Ne.symm other]⟩
        rintro ⟨cmd, some_, -, not_internal, -⟩
        exact not_internal (same some_ ▸ internal)
      · simp only [checkForServerCommand, if_neg internal]
        rcases scheduleConnection_cases s n cmdbuf c.memory with ⟨found, able, eq⟩ | ⟨not_, message, eq⟩
        · rw [eq]
          exact .inl ⟨cmdbuf, _, ⟨cmdbuf, shake, by simpa using cloexec, internal, found, able⟩,
            schedule_lookup s cmdbuf c.memory, rfl⟩
        · rw [eq]
          refine .inr ⟨?_, _, rfl, by simp [settled], fun m other => by simp [settled, Ne.symm other]⟩
          rintro ⟨cmd, some_, -, -, found, able⟩
          exact not_ ⟨same some_ ▸ found, able⟩

theorem schedulable_congr {s t : Server} (lookup : ∀ cmd, t.lookup cmd = s.lookup cmd)
    (c : Connection) : Schedulable t c ↔ Schedulable s c := by
  simp only [Schedulable, lookup]

theorem localaccept_drained (s : Server) (n : ℕ) (pending : List Connection) :
    (localaccept s n pending).drained = true ↔ ∀ c ∈ pending, Schedulable s c := by
  induction pending generalizing s n with
  | nil => simp [localaccept]
  | cons c pending ih =>
    rcases localaccept_cons s n c pending with ⟨cmd, t, here, lookup, eq⟩ | ⟨not_, events, eq, -⟩
    · rw [eq, List.forall_mem_cons]
      change (localaccept t (n + 1) pending).drained = true ↔ _
      rw [ih]
      simp only [schedulable_congr lookup, here, true_and]
    · rw [eq, List.forall_mem_cons]
      simp [not_]

theorem localaccept_count (s : Server) (n : ℕ) (pending : List Connection) :
    n ≤ (localaccept s n pending).count := by
  induction pending generalizing s n with
  | nil => exact le_rfl
  | cons c pending ih =>
    rcases localaccept_cons s n c pending with ⟨cmd, t, -, -, eq⟩ | ⟨-, events, eq, -⟩
    · rw [eq]
      exact (Nat.le_succ n).trans (ih t (n + 1))
    · rw [eq]
      exact Nat.le_succ n

/-- Each connection accepted is handed on or closed, once; no other is. -/
theorem localaccept_settled (s : Server) (n : ℕ) (pending : List Connection) (m : ℕ) :
    settled m (localaccept s n pending).events =
      if n ≤ m ∧ m < (localaccept s n pending).count then 1 else 0 := by
  induction pending generalizing s n with
  | nil =>
    have none_ : ¬ (n ≤ m ∧ m < n) := by omega
    simp [localaccept, settled, none_]
  | cons c pending ih =>
    rcases localaccept_cons s n c pending with ⟨cmd, t, -, -, eq⟩ | ⟨-, events, eq, self, others⟩
    · have count := localaccept_count t (n + 1) pending
      rw [eq]
      change settled m (.handed n cmd :: (localaccept t (n + 1) pending).events) =
        if n ≤ m ∧ m < (localaccept t (n + 1) pending).count then 1 else 0
      rw [settled, List.countP_cons]
      change settled m _ + _ = _
      rw [ih]
      by_cases here : n = m
      · subst here
        simp [Nat.lt_of_succ_le count]
      · have after : n ≤ m ↔ n + 1 ≤ m := by omega
        simp [here, after]
    · rw [eq]
      change settled m events = if n ≤ m ∧ m < n + 1 then 1 else 0
      by_cases here : m = n
      · subst here
        simpa using self
      · rw [others m here, if_neg (by omega)]

/-- The callback leaves nothing pending, with each connection it accepted handed
on or closed once, just when every connection brings a registered command and
nothing fails. -/
theorem localaccept_complete_iff (s : Server) (pending : List Connection) :
    ((localaccept s 0 pending).drained = true ∧
      ∀ n < (localaccept s 0 pending).count, settled n (localaccept s 0 pending).events = 1) ↔
    ∀ c ∈ pending, Schedulable s c := by
  rw [localaccept_drained, and_iff_left_iff_imp]
  intro _ n lt
  rw [localaccept_settled, if_pos ⟨Nat.zero_le n, lt⟩]

/-- Two connections are pending, and the first asks for a server command: the
second is not accepted. -/
theorem internal_noop_strands :
    (localaccept stopped 0 [⟨some "internal_noop".toList, true, true⟩,
        ⟨some "internal_noop".toList, true, true⟩]).drained = false ∧
      (localaccept stopped 0 [⟨some "internal_noop".toList, true, true⟩,
        ⟨some "internal_noop".toList, true, true⟩]).count = 1 := by
  decide +kernel

end Libdank.CtlServer
