import Libdank.CtlServer.Conversations

/-! The descriptors behind the conversations. `recv_fd` returns an octet of the descriptor that it
has received, so that from 256 on another one is written to and closed in its place. What comes with
a command that is cut short is closed by nobody. -/
namespace Libdank.CtlServer
open Parse Transitions

inductive End where
  | sd (n : ℕ)
  | errsd (n : ℕ)
deriving DecidableEq, Repr

/-- The server with the descriptors of its connections: what is open, and what `sd` and `errsd` are
for each connection. -/
structure Switchboard where
  desk : Desk
  table : ℕ → Option End
  sdOf : ℕ → ℕ
  errsdOf : ℕ → ℕ

def Switchboard.empty : Switchboard := ⟨.empty, fun _ => none, fun _ => 0, fun _ => 0⟩

def Desk.onEnd (d : Desk) (f : Socket → Socket) : End → Desk
  | .sd n => d.onSd n f
  | .errsd n => d.onErrsd n f

variable (b : Switchboard)

/-- A descriptor that is not in the table belongs to another part of the program. -/
def Switchboard.write (fd : ℕ) (t : Text) : Switchboard :=
  { b with desk := (b.table fd).elim b.desk (b.desk.onEnd (·.write t)) }

def Switchboard.close (fd : ℕ) : Switchboard :=
  { b with
    desk := (b.table fd).elim b.desk (b.desk.onEnd .close)
    table := Function.update b.table fd none }

def Switchboard.tell (n : ℕ) (reply : Reply) : Switchboard :=
  (b.write (b.sdOf n) reply.onSd).write (b.errsdOf n) reply.onErrsd

def Switchboard.event : Event → Switchboard
  | .closeSd n => b.close (b.sdOf n)
  | .closeErrsd n => b.close (b.errsdOf n)
  | .run _ _ => b
  | .handed _ _ => b
  | .writeErrsd n message => b.write (b.errsdOf n) message.toList

def Switchboard.events (events : List Event) : Switchboard := events.foldl Switchboard.event b

/-- `accept_local` returns `sd`, and the descriptors `received` come with the handshake: the first
octet of the first of them is what `recv_fd` returns. -/
def Switchboard.plug (n sd : ℕ) (received : List ℕ) : Switchboard :=
  { b with
    table := fun fd =>
      if fd = sd then some (.sd n) else if fd ∈ received then some (.errsd n) else b.table fd
    sdOf := Function.update b.sdOf n sd
    errsdOf := Function.update b.errsdOf n (received.headD 0 % 256) }

def Switchboard.accept (n : ℕ) (c : Connection) (sd : ℕ) (received : List ℕ) : Switchboard :=
  let (events, desk) := b.desk.accepting n c
  Switchboard.events { b.plug n sd received with desk := desk } events

/-- What happens, and what the kernel gives out if it is a connection that is accepted. -/
structure Move where
  act : Act
  sd : ℕ
  received : List ℕ

/-- What the kernel gives out is not in use; a handshake without fault brings one descriptor. -/
def Switchboard.step (m : Move) : Option Switchboard :=
  match m.act with
  | .accept =>
    match b.desk.backlog with
    | [] => none
    | n :: rest =>
      let c := b.desk.client n
      if b.table m.sd = none ∧ (∀ fd ∈ m.received, b.table fd = none ∧ fd ≠ m.sd) ∧
          (c.handshake.isSome → m.received.length = 1) then
        some (Switchboard.accept { b with desk := { b.desk with backlog := rest } } n c m.sd m.received)
      else none
  | .serve drone reply =>
    (b.desk.done drone reply).map fun (n, desk) =>
      (Switchboard.tell { b with desk := desk } n reply).events (closeCmdState n)
  | act => (converse b.desk act).map fun desk => { b with desk := desk }

/-- An octet holds what is received. -/
def Move.Low (m : Move) : Prop := ∀ fd ∈ m.received, fd < 256

instance (m : Move) : Decidable m.Low := inferInstanceAs (Decidable (∀ fd ∈ m.received, fd < 256))

/-- The connections that are `live` have their two descriptors; whatever else is open came with a
handshake that failed. -/
structure Switchboard.Wired (live : List ℕ) : Prop where
  own : ∀ n ∈ live, b.table (b.sdOf n) = some (.sd n) ∧ b.table (b.errsdOf n) = some (.errsd n)
  rest : ∀ fd e, b.table fd = some e →
    (∃ n ∈ live, e = .sd n ∧ fd = b.sdOf n ∨ e = .errsd n ∧ fd = b.errsdOf n) ∨
      ∃ n < b.desk.arrived, e = .errsd n ∧ (b.desk.client n).handshake = none

variable {b} {n : ℕ} {live : List ℕ}

theorem wired_empty : Switchboard.empty.Wired [] :=
  ⟨fun _ none_ => absurd none_ List.not_mem_nil, fun _ _ none_ => by cases none_⟩

theorem Switchboard.Wired.congr (wired : b.Wired live) {desk : Desk} {live' : List ℕ}
    (same : ∀ n, n ∈ live' ↔ n ∈ live) (arrived : b.desk.arrived ≤ desk.arrived)
    (client : ∀ n < b.desk.arrived, desk.client n = b.desk.client n) :
    Switchboard.Wired { b with desk := desk } live' where
  own := fun n mem => wired.own n ((same n).mp mem)
  rest := fun fd e there => by
    rcases wired.rest fd e there with ⟨n, mem, is⟩ | ⟨n, lt, is, cut⟩
    · exact .inl ⟨n, (same n).mpr mem, is⟩
    · exact .inr ⟨n, lt.trans_le arrived, is, by rw [client n lt, cut]⟩

section Closing

def Event.Tells (n : ℕ) : Event → Prop
  | .run m _ => m = n
  | .writeErrsd m _ => m = n
  | _ => False

theorem write_sd (open_ : b.table (b.sdOf n) = some (.sd n)) (t : Text) :
    b.write (b.sdOf n) t = { b with desk := b.desk.onSd n (·.write t) } := by
  rw [Switchboard.write, open_]
  rfl

theorem write_errsd (open_ : b.table (b.errsdOf n) = some (.errsd n)) (t : Text) :
    b.write (b.errsdOf n) t = { b with desk := b.desk.onErrsd n (·.write t) } := by
  rw [Switchboard.write, open_]
  rfl

theorem tell_eq (sd : b.table (b.sdOf n) = some (.sd n)) (errsd : b.table (b.errsdOf n) = some (.errsd n))
    (reply : Reply) : b.tell n reply = { b with desk := b.desk.tell n reply } := by
  rw [Switchboard.tell, write_sd sd]
  exact @write_errsd { b with desk := b.desk.onSd n (·.write reply.onSd) } n errsd reply.onErrsd

theorem events_tell {before : List Event} (tells : ∀ e ∈ before, e.Tells n)
    (open_ : b.table (b.errsdOf n) = some (.errsd n)) :
    b.events before = { b with desk := b.desk.events before } := by
  induction before generalizing b with
  | nil => rfl
  | cons e before ih =>
    have one : b.event e = { b with desk := b.desk.event e } := by
      have told := tells e List.mem_cons_self
      cases e with
      | run m cmd => rfl
      | writeErrsd m message =>
        obtain rfl : m = n := told
        exact write_errsd open_ _
      | _ => exact told.elim
    change (b.event e).events before = _
    rw [one]
    exact ih (fun e' mem => tells e' (List.mem_cons_of_mem e mem)) open_

theorem events_close (sd : b.table (b.sdOf n) = some (.sd n)) (errsd : b.table (b.errsdOf n) = some (.errsd n)) :
    b.events (closeCmdState n) = { b with
      desk := b.desk.events (closeCmdState n)
      table := Function.update (Function.update b.table (b.sdOf n) none) (b.errsdOf n) none } := by
  have apart : b.errsdOf n ≠ b.sdOf n := fun same => by
    rw [same, sd] at errsd
    cases errsd
  change (b.close (b.sdOf n)).close (b.errsdOf n) = _
  simp only [Switchboard.close, Function.update_of_ne apart, sd, errsd]
  rfl

theorem Switchboard.Wired.closed (wired : b.Wired (n :: live)) (new : n ∉ live) {desk : Desk}
    (arrived : desk.arrived = b.desk.arrived) (client : desk.client = b.desk.client) :
    Switchboard.Wired { b with
      desk := desk
      table := Function.update (Function.update b.table (b.sdOf n) none) (b.errsdOf n) none } live where
  own := fun m mem => by
    obtain ⟨sd, errsd⟩ := wired.own n List.mem_cons_self
    obtain ⟨sd', errsd'⟩ := wired.own m (List.mem_cons_of_mem n mem)
    have apart {fd fd' : ℕ} {e e' : End} (here : b.table fd = some e) (there : b.table fd' = some e')
        (other : e' ≠ e) : fd' ≠ fd := by
      rintro rfl
      exact other (Option.some.inj (there.symm.trans here))
    have other : m ≠ n := fun same => new (same ▸ mem)
    simp only
    rw [Function.update_of_ne (apart errsd sd' (by simp)), Function.update_of_ne (apart sd sd' (by simpa using other)),
      Function.update_of_ne (apart errsd errsd' (by simpa using other)), Function.update_of_ne (apart sd errsd' (by simp))]
    exact ⟨sd', errsd'⟩
  rest := fun fd e there => by
    simp only at there
    have notErrsd : fd ≠ b.errsdOf n := fun same => by
      rw [same, Function.update_self] at there
      cases there
    rw [Function.update_of_ne notErrsd] at there
    have notSd : fd ≠ b.sdOf n := fun same => by
      rw [same, Function.update_self] at there
      cases there
    rw [Function.update_of_ne notSd] at there
    rcases wired.rest fd e there with ⟨m, mem, is⟩ | ⟨m, lt, is, cut⟩
    · obtain rfl | mem := List.mem_cons.mp mem
      · rcases is with ⟨-, same⟩ | ⟨-, same⟩
        · exact absurd same notSd
        · exact absurd same notErrsd
      · exact .inl ⟨m, mem, is⟩
    · exact .inr ⟨m, by rwa [arrived], is, by rw [client, cut]⟩

end Closing

section Accepting

variable {sd : ℕ} {received : List ℕ}

theorem Switchboard.Wired.plugged (wired : b.Wired live) (new : n ∉ live) {errsd : ℕ} (low : errsd < 256)
    (sdFree : b.table sd = none) (errsdFree : b.table errsd = none) (apart : errsd ≠ sd) :
    (b.plug n sd [errsd]).Wired (n :: live) where
  own := fun m mem => by
    simp only [Switchboard.plug, List.mem_singleton, List.headD_cons, Nat.mod_eq_of_lt low]
    by_cases same : m = n
    · subst same
      simp [apart]
    · obtain ⟨sd', errsd'⟩ := wired.own m ((List.mem_cons.mp mem).resolve_left same)
      have used {fd fd' : ℕ} {e : End} (there : b.table fd = some e) (free : b.table fd' = none) : fd ≠ fd' := by
        rintro rfl
        cases there.symm.trans free
      rw [Function.update_of_ne same, Function.update_of_ne same, if_neg (used sd' sdFree),
        if_neg (used sd' errsdFree), if_neg (used errsd' sdFree), if_neg (used errsd' errsdFree)]
      exact ⟨sd', errsd'⟩
  rest := fun fd e there => by
    simp only [Switchboard.plug, List.mem_singleton] at there
    split_ifs at there with isSd isErrsd
    · refine .inl ⟨n, List.mem_cons_self, .inl ⟨(Option.some.inj there).symm, ?_⟩⟩
      simp [Switchboard.plug, isSd]
    · refine .inl ⟨n, List.mem_cons_self, .inr ⟨(Option.some.inj there).symm, ?_⟩⟩
      simp [Switchboard.plug, isErrsd, Nat.mod_eq_of_lt low]
    · rcases wired.rest fd e there with ⟨m, mem, is⟩ | lost
      · have other : m ≠ n := fun same => new (same ▸ mem)
        refine .inl ⟨m, List.mem_cons_of_mem n mem, ?_⟩
        simpa [Switchboard.plug, Function.update_of_ne other] using is
      · exact .inr lost

theorem Switchboard.Wired.cut (wired : b.Wired live) (new : n ∉ live) (lt : n < b.desk.arrived)
    (failed : (b.desk.client n).handshake = none) (sdFree : b.table sd = none)
    (free : ∀ fd ∈ received, b.table fd = none ∧ fd ≠ sd) :
    (b.plug n sd received).events [.closeSd n] = { b.plug n sd received with
        desk := b.desk.events [.closeSd n]
        table := Function.update (b.plug n sd received).table sd none } ∧
      Switchboard.Wired { b.plug n sd received with
        desk := b.desk.events [.closeSd n]
        table := Function.update (b.plug n sd received).table sd none } live := by
  have number : (b.plug n sd received).sdOf n = sd := Function.update_self _ _ _
  have open_ : (b.plug n sd received).table sd = some (.sd n) := if_pos rfl
  refine ⟨?_, fun m mem => ?_, fun fd e there => ?_⟩
  · change (b.plug n sd received).close ((b.plug n sd received).sdOf n) = _
    rw [number, Switchboard.close, open_]
    rfl
  · obtain ⟨sd', errsd'⟩ := wired.own m mem
    have other : m ≠ n := fun same => new (same ▸ mem)
    have used {fd : ℕ} {e : End} (there : b.table fd = some e) : fd ≠ sd ∧ fd ∉ received := by
      refine ⟨?_, fun mem => ?_⟩
      · rintro rfl
        cases there.symm.trans sdFree
      · cases there.symm.trans (free fd mem).1
    simp only [Switchboard.plug, Function.update_of_ne other, Function.update_of_ne (used sd').1,
      Function.update_of_ne (used errsd').1, if_neg (used sd').1, if_neg (used sd').2, if_neg (used errsd').1,
      if_neg (used errsd').2]
    exact ⟨sd', errsd'⟩
  · simp only [Switchboard.plug] at there
    by_cases isSd : fd = sd
    · rw [isSd, Function.update_self] at there
      cases there
    rw [Function.update_of_ne isSd, if_neg isSd] at there
    split_ifs at there with mem
    · exact .inr ⟨n, lt, (Option.some.inj there).symm, failed⟩
    · rcases wired.rest fd e there with ⟨m, mem', is⟩ | lost
      · have other : m ≠ n := fun same => new (same ▸ mem')
        refine .inl ⟨m, mem', ?_⟩
        simpa [Switchboard.plug, Function.update_of_ne other] using is
      · exact .inr lost

/-- How a round of the loop goes: the handshake has failed, the connection is closed, or its command
is handed on. -/
theorem accepting_cases (d : Desk) (n : ℕ) (c : Connection) :
    (c.handshake = none ∧ d.accepting n c = ([.closeSd n], d)) ∨
    (c.handshake.isSome ∧ ∃ before, (∀ e ∈ before, e.Tells n) ∧
      d.accepting n c = (before ++ closeCmdState n, d)) ∨
    ∃ cmdbuf, c.handshake.isSome ∧ (d.server.lookup cmdbuf).isSome ∧
      d.accepting n c = ([.handed n cmdbuf], { d with
        server := (schedule d.server cmdbuf true).2
        owner := Function.update d.owner d.server.nextTicket n }) := by
  rw [Desk.accepting]
  cases shake : c.handshake with
  | none => exact .inl ⟨rfl, rfl⟩
  | some cmdbuf =>
    by_cases cloexec : c.cloexec = false
    · exact .inr (.inl ⟨rfl, [], List.forall_mem_nil _, by simp only [if_pos cloexec]; rfl⟩)
    simp only [if_neg cloexec]
    by_cases internal : cmdbuf ∈ serverCommands
    · exact .inr (.inl ⟨rfl, [.run n cmdbuf], by simp [Event.Tells], by
        simp only [checkForServerCommand, if_pos internal]; rfl⟩)
    simp only [checkForServerCommand, if_neg internal]
    by_cases can : (d.server.lookup cmdbuf).isSome ∧ c.memory = true
    · refine .inr (.inr ⟨cmdbuf, rfl, can.1, ?_⟩)
      rw [scheduleConnection_handed n can, can.2]
      rfl
    · obtain ⟨message, eq, -⟩ := scheduleConnection_refused n can
      refine .inr (.inl ⟨rfl, [.writeErrsd n message], by simp [Event.Tells], ?_⟩)
      rw [eq]
      rfl

end Accepting

section Simulation

variable {b' : Switchboard}

theorem events_append (b : Switchboard) (before after : List Event) :
    b.events (before ++ after) = (b.events before).events after := List.foldl_append

theorem desk_events_append (d : Desk) (before after : List Event) :
    d.events (before ++ after) = (d.events before).events after := List.foldl_append

theorem events_rest (d : Desk) (events : List Event) : (d.events events).server = d.server ∧
    (d.events events).owner = d.owner ∧ (d.events events).arrived = d.arrived ∧
    (d.events events).client = d.client := by
  induction events generalizing d with
  | nil => exact ⟨rfl, rfl, rfl, rfl⟩
  | cons e events ih =>
    obtain ⟨server, owner, arrived, client⟩ := ih (d.event e)
    have one : (d.event e).server = d.server ∧ (d.event e).owner = d.owner ∧
        (d.event e).arrived = d.arrived ∧ (d.event e).client = d.client := by
      cases e <;> exact ⟨rfl, rfl, rfl, rfl⟩
    exact ⟨server.trans one.1, owner.trans one.2.1, arrived.trans one.2.2.1, client.trans one.2.2.2⟩

theorem events_queue (d : Desk) (events : List Event) : (d.events events).queue = d.queue := by
  obtain ⟨server, owner, -, -⟩ := events_rest d events
  rw [Desk.queue, Desk.queue, server, owner]

theorem Switchboard.Wired.settle (wired : b.Wired (n :: live)) (new : n ∉ live) {before : List Event}
    (tells : ∀ e ∈ before, e.Tells n) :
    (b.events (before ++ closeCmdState n)).desk = b.desk.events (before ++ closeCmdState n) ∧
      (b.events (before ++ closeCmdState n)).Wired live := by
  obtain ⟨sd, errsd⟩ := wired.own n List.mem_cons_self
  have eq : b.events (before ++ closeCmdState n) = { b with
      desk := (b.desk.events before).events (closeCmdState n)
      table := Function.update (Function.update b.table (b.sdOf n) none) (b.errsdOf n) none } := by
    rw [events_append, events_tell tells errsd]
    exact events_close sd errsd
  rw [eq, desk_events_append]
  obtain ⟨-, -, arrived, client⟩ := events_rest b.desk (before ++ closeCmdState n)
  rw [desk_events_append] at arrived client
  exact ⟨rfl, wired.closed new arrived client⟩

theorem accept_simulates (kept : b.desk.Kept) (wired : b.Wired b.desk.queue) {m : Move} (low : m.Low)
    {rest : List ℕ} (first : b.desk.backlog = n :: rest) (sdFree : b.table m.sd = none)
    (free : ∀ fd ∈ m.received, b.table fd = none ∧ fd ≠ m.sd)
    (one : (b.desk.client n).handshake.isSome → m.received.length = 1) {b₁ : Switchboard}
    (start : b₁ = { b with desk := { b.desk with backlog := rest } }) :
    (b₁.accept n (b.desk.client n) m.sd m.received).desk = b₁.desk.accept n (b.desk.client n) ∧
      (b₁.accept n (b.desk.client n) m.sd m.received).Wired
        (b₁.accept n (b.desk.client n) m.sd m.received).desk.queue := by
  have waits : n ∈ b.desk.waiting := List.mem_append_left _ (first ▸ List.mem_cons_self)
  have new : n ∉ b.desk.queue := fun mem =>
    (List.nodup_append.mp kept.distinct).2.2 n (first ▸ List.mem_cons_self) n mem rfl
  have queue : b₁.desk.queue = b.desk.queue := by rw [start]; rfl
  have wired₁ : b₁.Wired b.desk.queue := by
    rw [start]
    exact wired.congr (fun _ => Iff.rfl) le_rfl fun _ _ => rfl
  have table : b₁.table = b.table := by rw [start]
  have plugged (shake : (b.desk.client n).handshake.isSome) :
      ∃ fd, m.received = [fd] ∧ (b₁.plug n m.sd [fd]).Wired (n :: b.desk.queue) := by
    obtain ⟨fd, is⟩ := List.length_eq_one_iff.mp (one shake)
    have mem : fd ∈ m.received := is ▸ List.mem_singleton_self fd
    obtain ⟨unused, apart⟩ := free fd mem
    exact ⟨fd, is, wired₁.plugged new (low fd mem) (by rw [table]; exact sdFree) (by rw [table]; exact unused) apart⟩
  rcases accepting_cases b₁.desk n (b.desk.client n) with
    ⟨failed, eq⟩ | ⟨shake, before, tells, eq⟩ | ⟨cmdbuf, shake, found, eq⟩
  · rw [Switchboard.accept, Desk.accept, eq]
    have lt : n < b₁.desk.arrived := by rw [start]; exact kept.known n waits
    obtain ⟨same, wired'⟩ := wired₁.cut new lt (by rw [start]; exact failed) (by rw [table]; exact sdFree)
      (by rw [table]; exact free)
    dsimp only
    refine ⟨congrArg Switchboard.desk same, ?_⟩
    have after : ((b₁.plug n m.sd m.received).events [.closeSd n]).desk.queue = b.desk.queue := by
      rw [same]
      exact (events_queue _ _).trans queue
    change ((b₁.plug n m.sd m.received).events [.closeSd n]).Wired
      ((b₁.plug n m.sd m.received).events [.closeSd n]).desk.queue
    rw [after, same]
    exact wired'
  · obtain ⟨fd, is, plugged⟩ := plugged shake
    rw [Switchboard.accept, Desk.accept, eq, is]
    obtain ⟨same, wired'⟩ := plugged.settle new tells
    dsimp only
    refine ⟨same, ?_⟩
    change Switchboard.Wired _ (Switchboard.events (b₁.plug n m.sd [fd]) _).desk.queue
    rw [same, events_queue]
    exact queue ▸ wired'
  · obtain ⟨fd, is, plugged⟩ := plugged shake
    rw [Switchboard.accept, Desk.accept, eq, is]
    refine ⟨rfl, ?_⟩
    have queued := handed_queue kept (by rw [start] at found; exact found) n
    have after := @Switchboard.Wired.congr _ _ plugged { b₁.desk with
      server := (schedule b₁.desk.server cmdbuf true).2
      owner := Function.update b₁.desk.owner b₁.desk.server.nextTicket n } _ (fun _ => Iff.rfl) le_rfl
        fun _ _ => rfl
    rw [← queued] at after
    rw [start] at after ⊢
    exact after

theorem serve_simulates (kept : b.desk.Kept) (wired : b.Wired b.desk.queue) {drone : ℕ} {reply : Reply}
    (next : ((b.desk.done drone reply).map fun (n, desk) =>
      (Switchboard.tell { b with desk := desk } n reply).events (closeCmdState n)) = some b') :
    converse b.desk (.serve drone reply) = some b'.desk ∧ b'.Wired b'.desk.queue := by
  obtain ⟨⟨n, desk⟩, ended, rfl⟩ := Option.map_eq_some_iff.mp next
  rw [converse, ended, Option.map_some]
  obtain ⟨me, cmd, server, held, here, stepped, rfl, rfl⟩ := done_some ended
  have queue : b.desk.queue.Perm (b.desk.owner me.ticket :: server.queued.map fun me => b.desk.owner me.ticket) :=
    (complete_queued kept.counted held here stepped).map fun me : ScheduledCmd => b.desk.owner me.ticket
  have new := (List.nodup_cons.mp (queue.nodup_iff.mp (List.nodup_append.mp kept.distinct).2.1)).1
  obtain ⟨sd, errsd⟩ := wired.own _ (queue.mem_iff.mpr List.mem_cons_self)
  generalize done_ : Desk.mk server b.desk.backlog b.desk.arrived b.desk.client b.desk.owner b.desk.sd b.desk.errsd
    ((b.desk.owner me.ticket, cmd.cmd, reply) :: b.desk.served) = desk
  dsimp only
  rw [@tell_eq { b with desk := desk } _ sd errsd]
  have wired' := @Switchboard.Wired.congr _ _ wired (desk.tell (b.desk.owner me.ticket) reply) _
    (fun m => queue.mem_iff.symm) (by rw [← done_]; exact le_rfl) fun _ _ => by rw [← done_]; rfl
  obtain ⟨same, closed⟩ := @Switchboard.Wired.settle _ _ _ wired' new [] (List.forall_mem_nil _)
  rw [List.nil_append] at same closed
  refine ⟨congrArg some same.symm, ?_⟩
  have after : (desk.tell (b.desk.owner me.ticket) reply).queue =
      server.queued.map fun me => b.desk.owner me.ticket := by
    rw [← done_]
    rfl
  rw [same, events_queue, after]
  exact closed

theorem quiet_queue {d d' : Desk} {a : Act} (accepts : a ≠ .accept) (serves : ∀ drone reply, a ≠ .serve drone reply)
    (next : converse d a = some d') : (∀ n, n ∈ d'.queue ↔ n ∈ d.queue) ∧ d.arrived ≤ d'.arrived ∧
      ∀ n < d.arrived, d'.client n = d.client n := by
  have onServer {action : Action} (perm : ∀ t, step d.server action = some t → t.queued.Perm d.server.queued)
      (next : d.onServer action = some d') : (∀ n, n ∈ d'.queue ↔ n ∈ d.queue) ∧ d.arrived ≤ d'.arrived ∧
        ∀ n < d.arrived, d'.client n = d.client n := by
    obtain ⟨server, stepped, rfl⟩ := Option.map_eq_some_iff.mp next
    exact ⟨fun n => ((perm server stepped).map fun me : ScheduledCmd => d.owner me.ticket).mem_iff, le_rfl,
      fun _ _ => rfl⟩
  cases a with
  | connect c =>
    obtain rfl := Option.some.inj next
    exact ⟨fun _ => Iff.rfl, Nat.le_succ _, fun n lt => Function.update_of_ne lt.ne _ _⟩
  | accept => exact absurd rfl accepts
  | register cmd able =>
    refine onServer (fun t stepped => ?_) next
    obtain rfl := Option.some.inj stepped
    cases able <;> rfl
  | pass deleter cmd => exact onServer (fun t stepped => .of_eq (quiet_pass stepped)) next
  | free deleter =>
    refine onServer (fun t stepped => ?_) next
    obtain ⟨cur, -, rfl⟩ := Option.map_eq_some_iff.mp stepped
    rfl
  | dequeue drone => exact onServer (fun t stepped => dequeue_queued stepped) next
  | serve drone reply => exact absurd rfl (serves drone reply)

/-- With low descriptors a step is one of a server whose connections all have two of their own. -/
theorem step_simulates (kept : b.desk.Kept) (wired : b.Wired b.desk.queue) {m : Move} (low : m.Low)
    (next : b.step m = some b') : converse b.desk m.act = some b'.desk ∧ b'.Wired b'.desk.queue := by
  obtain ⟨a, sd, received⟩ := m
  have quiet (accepts : a ≠ .accept) (serves : ∀ drone reply, a ≠ .serve drone reply)
      (next : (converse b.desk a).map (fun desk => { b with desk := desk }) = some b') :
      converse b.desk a = some b'.desk ∧ b'.Wired b'.desk.queue := by
    obtain ⟨desk, moved, rfl⟩ := Option.map_eq_some_iff.mp next
    obtain ⟨same, arrived, client⟩ := quiet_queue accepts serves moved
    exact ⟨moved, wired.congr same arrived client⟩
  cases a with
  | accept =>
    rw [converse]
    simp only [Switchboard.step] at next
    cases first : b.desk.backlog with
    | nil => simp [first] at next
    | cons n rest =>
      simp only [first, Option.ite_none_right_eq_some] at next
      obtain ⟨⟨sdFree, free, one⟩, next⟩ := next
      obtain rfl := Option.some.inj next
      obtain ⟨same, wired'⟩ := accept_simulates kept wired low first sdFree free one rfl
      exact ⟨congrArg some same.symm, wired'⟩
  | serve drone reply => exact serve_simulates kept wired next
  | connect c => exact quiet (by simp) (by simp) next
  | register cmd able => exact quiet (by simp) (by simp) next
  | pass deleter cmd => exact quiet (by simp) (by simp) next
  | free deleter => exact quiet (by simp) (by simp) next
  | dequeue drone => exact quiet (by simp) (by simp) next

theorem run_simulates {moves : List Move} (low : ∀ m ∈ moves, m.Low)
    (reached : run Switchboard.step .empty moves = some b) : b.desk.Kept ∧ b.Wired b.desk.queue := by
  have along : Along Switchboard.step (fun _ m => m.Low) .empty moves := (along_iff_forall reached).mpr low
  have each (s : Switchboard) (m : Move) (s' : Switchboard) (low : m.Low)
      (inv : s.desk.Kept ∧ s.Wired s.desk.queue) (next : s.step m = some s') :
      s'.desk.Kept ∧ s'.Wired s'.desk.queue := by
    obtain ⟨moved, wired⟩ := step_simulates inv.1 inv.2 low next
    exact ⟨converse_kept inv.1 m.act moved, wired⟩
  exact run_along each ⟨kept_empty, wired_empty⟩ along reached

end Simulation

/-- In every interleaving of clients, the accepting thread, the drones and whoever registers and
deletes commands, all descriptors received being below 256: a connection that is not waiting any more
has had its own descriptor closed once, and so the one it sent unless its handshake failed; its
client has been told the outcome of one run of the command it sent, or why there was none, and
nothing else. While it waits nothing has been closed and nothing been told. What is open then belongs
to a connection that waits, or came with a handshake that failed. -/
theorem conversations_apart {moves : List Move} (low : ∀ m ∈ moves, m.Low) {b : Switchboard}
    (reached : run Switchboard.step .empty moves = some b) :
    (∀ n, Account b.desk n) ∧ b.desk.waiting.Nodup ∧ (∀ n ∈ b.desk.waiting, n < b.desk.arrived) ∧
      ∀ fd e, b.table fd = some e →
        (∃ n ∈ b.desk.waiting, e = .sd n ∨ e = .errsd n) ∨
          ∃ n < b.desk.arrived, e = .errsd n ∧ (b.desk.client n).handshake = none := by
  obtain ⟨kept, wired⟩ := run_simulates low reached
  refine ⟨kept.accounts, kept.distinct, kept.known, fun fd e open_ => ?_⟩
  refine (wired.rest fd e open_).imp_left ?_
  rintro ⟨n, mem, is⟩
  exact ⟨n, List.mem_append_right _ mem, is.imp And.left And.left⟩

def twoClients : List Move :=
  [⟨.register ['h'] true, 0, []⟩, ⟨.connect ⟨some ['h'], true, true⟩, 0, []⟩,
    ⟨.connect ⟨some ['h'], true, true⟩, 0, []⟩, ⟨.accept, 5, [6]⟩, ⟨.accept, 7, [8]⟩, ⟨.dequeue 0, 0, []⟩,
    ⟨.dequeue 1, 0, []⟩, ⟨.serve 0 ⟨[], false, ['a'], [], 1, 0⟩, 0, []⟩,
    ⟨.serve 1 ⟨[], false, ['b', 'c'], [], 1, 0⟩, 0, []⟩]

def twoServed : Switchboard := (run Switchboard.step .empty twoClients).getD .empty

theorem conversations_apart_two : twoServed.desk.waiting = [] ∧ (twoServed.desk.sd 0).written = ['b'] ∧
    (twoServed.desk.sd 1).written = ['a'] ∧ ∀ n, Account twoServed.desk n :=
  ⟨by decide +kernel, by decide +kernel, by decide +kernel,
    (@conversations_apart twoClients (by decide) twoServed rfl).1⟩

/-- A descriptor 261 is taken for 5, the connection of another client, who is told that a command is
missing. -/
example : ((run Switchboard.step .empty [⟨.register ['h'] true, 0, []⟩, ⟨.connect ⟨some ['h'], true, true⟩, 0, []⟩,
    ⟨.accept, 5, [6]⟩, ⟨.connect ⟨some ['x'], true, true⟩, 0, []⟩, ⟨.accept, 7, [261]⟩]).map fun b =>
      ((b.desk.sd 0).written, (b.desk.sd 0).closed, (b.desk.errsd 1).closed)) =
    some ("No handler for command.\n".toList, 1, 0) := by
  decide +kernel

end Libdank.CtlServer
