import Libdank.LogListener.Operations

/-! What the consumer gets. The slot it reads lies just before the head of the
ring, where the full test keeps the producers from writing. -/
namespace Libdank.LogListener
open Transitions

def Item.content : Item → ListenerMsg
  | .message m => m
  | .drops d => dropMsg d

def Item.message? : Item → Option ListenerMsg
  | .message m => some m
  | .drops _ => none

def Item.drops? : Item → Option ℤ
  | .message _ => none
  | .drops d => some d

def messages (items : List Item) : List ListenerMsg := items.filterMap Item.message?

def reports (items : List Item) : List ℤ := items.filterMap Item.drops?

def Listener.queued (l : Listener) : List ListenerMsg :=
  Ring.contents msgQueueSz l.msgQueue l.head (Ring.backlog msgQueueSz l.head l.tail)

def Session.inHand (s : Session) : List ListenerMsg :=
  match s.phase with
  | .taken | .holding => (s.l.lm.map s.l.msgQueue).toList
  | .calling | .waiting | .ended => []

/-- No producer can write what the consumer reads, it gets what was accepted, in
order and once, and it is told of everything else. -/
structure Faithful (s : Session) : Prop where
  untouched : ∀ i, s.l.lm = some i → s.l.enqueueSlot ≠ some i
  ordered : s.accepted = messages s.handed ++ s.l.queued
  read : s.handed.map Item.content = s.found ++ s.inHand
  counted : (reports s.handed).sum + s.l.dropped = s.rejected

def Wraps (s : Session) : Action → Prop
  | .enqueue _ _ => s.l.enqueueSlot = none ∧ s.l.dropped = intMax
  | _ => False

instance (s : Session) : (a : Action) → Decidable (Wraps s a)
  | .enqueue _ _ => inferInstanceAs (Decidable (_ ∧ _))
  | .block | .wake | .check | .write _ => inferInstanceAs (Decidable False)

structure Listener.Sound (l : Listener) : Prop where
  fits : -2 ^ 31 ≤ l.dropped ∧ l.dropped ≤ intMax
  head : l.head < msgQueueSz
  tail : l.tail < msgQueueSz
  behind : ∀ i, l.lm = some i → i < msgQueueSz ∧ incQindex i = l.head

structure Session.Sound (s : Session) : Prop where
  ring : s.l.Sound
  ordered : s.accepted = messages s.handed ++ s.l.queued
  read : s.handed.map Item.content = s.found ++ s.inHand

theorem incQindex_lt (i : ℕ) : incQindex i < msgQueueSz := Nat.mod_lt _ (by decide)

theorem incQindex_eq {i : ℕ} (lt : i < msgQueueSz) : incQindex i = Ring.next msgQueueSz i :=
  (Ring.next_eq_mod lt).symm

theorem incInt_fits {d : ℤ} (fits : -2 ^ 31 ≤ d ∧ d ≤ intMax) :
    -2 ^ 31 ≤ incInt d ∧ incInt d ≤ intMax := by
  unfold incInt intMax at *
  split <;> omega

theorem messages_append (items : List Item) (item : Item) :
    messages (items ++ [item]) = messages items ++ item.message?.toList := by
  cases item <;> simp [messages, Item.message?]

theorem reports_append (items : List Item) (item : Item) :
    (reports (items ++ [item])).sum = (reports items).sum + item.drops?.getD 0 := by
  cases item <;> simp [reports, Item.drops?, List.filterMap_cons]

theorem enqueueSlot_some {l : Listener} {i : ℕ} (slot : l.enqueueSlot = some i) :
    i = l.tail ∧ incQindex l.tail ≠ l.head := by
  unfold Listener.enqueueSlot at slot
  split at slot
  · exact ⟨(Option.some.inj slot).symm, ‹_›⟩
  · simp at slot

theorem Listener.Sound.untouched {l : Listener} (h : l.Sound) (i : ℕ) (lm : l.lm = some i) :
    l.enqueueSlot ≠ some i := by
  intro slot
  obtain ⟨rfl, room⟩ := enqueueSlot_some slot
  exact room (h.behind _ lm).2

theorem enqueueMsg_sound {l : Listener} (h : l.Sound) (msg : Parse.Text) (len : ℤ) :
    (enqueueMsg l msg len).Sound := by
  unfold enqueueMsg
  cases l.enqueueSlot with
  | none => exact ⟨incInt_fits h.fits, h.head, h.tail, h.behind⟩
  | some i => exact ⟨h.fits, h.head, incQindex_lt _, h.behind⟩

theorem enqueueMsg_queued {l : Listener} (h : l.Sound) (msg : Parse.Text) (len : ℤ) :
    (enqueueMsg l msg len).queued = l.queued ++ (l.enqueueSlot.map fun _ => ⟨msg, len⟩).toList := by
  unfold enqueueMsg
  cases slot : l.enqueueSlot with
  | none => exact (List.append_nil _).symm
  | some i =>
    obtain ⟨rfl, room⟩ := enqueueSlot_some slot
    rw [incQindex_eq h.tail] at room
    have put := @Ring.contents_put _ msgQueueSz l.head l.msgQueue
      (Ring.backlog msgQueueSz l.head l.tail) ⟨msg, len⟩ (Ring.backlog_lt h.head h.tail)
    rw [Ring.slot_backlog h.head h.tail] at put
    simp only [Listener.queued, incQindex_eq h.tail, Ring.backlog_put h.head h.tail room]
    exact put

theorem enqueueMsg_lm {l : Listener} (h : l.Sound) (msg : Parse.Text) (len : ℤ) :
    (enqueueMsg l msg len).lm.map (enqueueMsg l msg len).msgQueue = l.lm.map l.msgQueue := by
  unfold enqueueMsg
  cases slot : l.enqueueSlot with
  | none => rfl
  | some i =>
    change l.lm.map (Function.update l.msgQueue i ⟨msg, len⟩) = _
    cases lm : l.lm with
    | none => rfl
    | some j =>
      have other : j ≠ i := fun same => h.untouched j lm (same ▸ slot)
      exact congrArg some (Function.update_of_ne other _ _)

/-- What `block_on_lmsg` does to the listener. -/
structure Hands (l : Listener) (given : Option Item) (l' : Listener) : Prop where
  sound : l'.Sound
  queued : l.queued = (given.bind Item.message?).toList ++ l'.queued
  slot : given.isSome → l'.lm.map l'.msgQueue = given.map Item.content
  dropped : (given.bind Item.drops?).getD 0 + l'.dropped = l.dropped

theorem takeLmsg_hands {l : Listener} (h : l.Sound) : Hands l (takeLmsg l).1 (takeLmsg l).2 := by
  unfold takeLmsg
  split
  · exact ⟨h, rfl, fun given => by simp at given, Int.zero_add _⟩
  · rename_i some_
    refine ⟨⟨h.fits, incQindex_lt _, h.tail, ?_⟩, ?_, fun _ => rfl, Int.zero_add _⟩
    · intro i lm
      obtain rfl := Option.some.inj lm
      exact ⟨h.head, rfl⟩
    · have take := @Ring.contents_take _ msgQueueSz l.head l.msgQueue
        (Ring.backlog msgQueueSz (Ring.next msgQueueSz l.head) l.tail) h.head
        (Ring.backlog_lt (Ring.next_lt (by decide) _) h.tail)
      rw [← Ring.backlog_take h.head h.tail some_] at take
      rw [← incQindex_eq h.head] at take
      exact take

theorem blockOnLmsg_hands {l : Listener} (h : l.Sound) :
    Hands l (blockOnLmsg l).1 (blockOnLmsg l).2 := by
  unfold blockOnLmsg
  cases lm : l.lm with
  | none => exact takeLmsg_hands h
  | some i =>
    simp only
    split
    · refine ⟨⟨⟨by simp, by simp [intMax]⟩, h.head, h.tail, fun j same => h.behind j (lm.trans same)⟩, ?_, fun _ => ?_,
        Int.add_zero _⟩
      · obtain ⟨inside, before⟩ := h.behind i lm
        rw [incQindex_eq inside] at before
        have full := Ring.backlog_lt h.head h.tail
        refine (Ring.contents_update i _ fun j hj => ?_).symm
        exact Ring.slot_ne_of_next inside before (by omega)
      · simp [Item.content]
    · have freed : Listener.Sound { l with lm := none } :=
        ⟨h.fits, h.head, h.tail, fun j none_ => by simp at none_⟩
      have hands := takeLmsg_hands freed
      exact ⟨hands.sound, hands.queued, hands.slot, hands.dropped⟩

theorem give_sound {s : Session} {given : Option Item × Listener} (h : s.Sound)
    (idle : s.inHand = []) (hands : Hands s.l given.1 given.2) : (s.give given).Sound := by
  obtain ⟨item, l⟩ := given
  have ordered := h.ordered
  have read := h.read
  rw [hands.queued] at ordered
  rw [idle, List.append_nil] at read
  cases item with
  | none => exact ⟨hands.sound, ordered, by rw [Session.give, read]; exact (List.append_nil _).symm⟩
  | some item =>
    have slot := hands.slot rfl
    simp only [Option.bind_some, Option.map_some] at ordered slot
    cases item with
    | message _ | drops _ =>
      refine ⟨hands.sound, ?_, ?_⟩
      · simp only [Session.give, messages_append, List.append_assoc]
        exact ordered
      · simp only [Session.give, Session.inHand, List.map_append, read, slot]
        rfl

inductive Moves (s : Session) : Action → Session → Prop
  | accepts (msg : Parse.Text) (len : ℤ) {i : ℕ} (slot : s.l.enqueueSlot = some i) :
      Moves s (.enqueue msg len)
        { s with l := enqueueMsg s.l msg len, accepted := s.accepted ++ [⟨msg, len⟩] }
  | rejects (msg : Parse.Text) (len : ℤ) (full : s.l.enqueueSlot = none) :
      Moves s (.enqueue msg len) { s with l := enqueueMsg s.l msg len, rejected := s.rejected + 1 }
  | blocks (idle : s.inHand = []) : Moves s .block (s.give (blockOnLmsg s.l))
  | wakes (idle : s.inHand = []) : Moves s .wake (s.give (takeLmsg s.l))
  | keeps (taken : s.phase = .taken) : Moves s .check { s with phase := .holding }
  | closes : Moves s .check { s with phase := .ended, found := s.found ++ s.inHand }
  | writes (able : Bool) : Moves s (.write able)
      { s with phase := if able then .calling else .ended, found := s.found ++ s.inHand }

theorem step_moves {s t : Session} {a : Action} (next : step s a = some t) : Moves s a t := by
  cases a with
  | enqueue msg len =>
    simp only [step] at next
    cases slot : s.l.enqueueSlot with
    | some i =>
      rw [slot] at next
      obtain rfl := Option.some.inj next
      exact .accepts msg len slot
    | none =>
      rw [slot] at next
      obtain rfl := Option.some.inj next
      exact .rejects msg len slot
  | block =>
    obtain ⟨calling, next⟩ := Option.ite_none_right_eq_some.mp next
    obtain rfl := Option.some.inj next
    exact .blocks (by rw [Session.inHand, calling])
  | wake =>
    obtain ⟨waiting, next⟩ := Option.ite_none_right_eq_some.mp next
    obtain rfl := Option.some.inj next
    exact .wakes (by rw [Session.inHand, waiting])
  | check =>
    obtain ⟨taken, next⟩ := Option.ite_none_right_eq_some.mp next
    obtain ⟨i, lm, rfl⟩ := Option.map_eq_some_iff.mp next
    have here : s.inHand = [s.l.msgQueue i] := by
      rw [Session.inHand, taken, lm]
      rfl
    rw [← here]
    split
    · exact .closes
    · exact .keeps taken
  | write able =>
    obtain ⟨holding, next⟩ := Option.ite_none_right_eq_some.mp next
    obtain ⟨i, lm, rfl⟩ := Option.map_eq_some_iff.mp next
    have here : s.inHand = [s.l.msgQueue i] := by
      rw [Session.inHand, holding, lm]
      rfl
    rw [← here]
    exact .writes able

theorem read_enqueue {s t : Session} (h : s.Sound) {msg : Parse.Text} {len : ℤ}
    (phase : t.phase = s.phase) (l : t.l = enqueueMsg s.l msg len) (found : t.found = s.found)
    (handed : t.handed = s.handed) : t.handed.map Item.content = t.found ++ t.inHand := by
  rw [Session.inHand, phase, l, enqueueMsg_lm h.ring msg len, found, handed]
  exact h.read

theorem sound_step (s : Session) (a : Action) (t : Session) (h : s.Sound)
    (next : step s a = some t) : t.Sound := by
  cases step_moves next with
  | accepts msg len slot =>
    refine ⟨enqueueMsg_sound h.ring msg len, ?_, read_enqueue h rfl rfl rfl rfl⟩
    simp only [enqueueMsg_queued h.ring msg len, slot, h.ordered, List.append_assoc]
    rfl
  | rejects msg len full =>
    refine ⟨enqueueMsg_sound h.ring msg len, ?_, read_enqueue h rfl rfl rfl rfl⟩
    simp only [enqueueMsg_queued h.ring msg len, full, Option.map_none, Option.toList_none,
      List.append_nil]
    exact h.ordered
  | blocks idle => exact give_sound h idle (blockOnLmsg_hands h.ring)
  | wakes idle => exact give_sound h idle (takeLmsg_hands h.ring)
  | keeps taken =>
    have read := h.read
    rw [Session.inHand, taken] at read
    exact ⟨h.ring, h.ordered, read⟩
  | closes => exact ⟨h.ring, h.ordered, h.read.trans (List.append_nil _).symm⟩
  | writes able =>
    refine ⟨h.ring, h.ordered, h.read.trans ?_⟩
    cases able <;> exact (List.append_nil _).symm

theorem sound_start : start.Sound :=
  ⟨⟨by decide, by decide, by decide, fun i lm => by simp [start, createListener] at lm⟩, rfl, rfl⟩

theorem sound_run {actions : List Action} {s : Session} (reached : run step start actions = some s) :
    s.Sound :=
  run_invariant sound_step sound_start reached

/-- The rejected messages that neither a report nor `dropped` accounts for. -/
def Session.deficit (s : Session) : ℤ := s.rejected - ((reports s.handed).sum + s.l.dropped)

theorem give_deficit {s : Session} {given : Option Item × Listener}
    (hands : Hands s.l given.1 given.2) : (s.give given).deficit = s.deficit := by
  obtain ⟨item, l⟩ := given
  have dropped := hands.dropped
  rw [Session.deficit, Session.deficit, ← dropped]
  cases item with
  | none => simp [Session.give]
  | some item =>
    cases item with
    | message m =>
      simp only [Session.give, reports_append]
      simp [Item.drops?]
    | drops d =>
      simp only [Session.give, reports_append, Option.bind_some, Item.drops?, Option.getD_some]
      omega

theorem deficit_step {s t : Session} {a : Action} (h : s.Sound) (next : step s a = some t) :
    t.deficit = s.deficit + if Wraps s a then 2 ^ 32 else 0 := by
  cases step_moves next with
  | accepts msg len slot => simp [Wraps, slot, Session.deficit, enqueueMsg]
  | rejects msg len full =>
    by_cases most : s.l.dropped = intMax
    · simp only [Wraps, full, Session.deficit, enqueueMsg, incInt, most, intMax, and_self, if_true]
      omega
    · simp only [Wraps, full, Session.deficit, enqueueMsg, incInt, most, and_false, if_false]
      omega
  | blocks => simpa [Wraps] using give_deficit (blockOnLmsg_hands h.ring)
  | wakes => simpa [Wraps] using give_deficit (takeLmsg_hands h.ring)
  | keeps | closes | writes => simp [Wraps, Session.deficit]

/-- Whenever `dropped` wraps, 2^32 of the rejected messages go missing for good. -/
theorem deficit_run {s t : Session} {actions : List Action} (h : s.Sound)
    (reached : run step s actions = some t) :
    s.deficit ≤ t.deficit ∧
      (t.deficit = s.deficit ↔ Along step (fun s a => ¬ Wraps s a) s actions) := by
  induction actions generalizing s with
  | nil =>
    obtain rfl := Option.some.inj reached
    exact ⟨le_rfl, iff_of_true rfl trivial⟩
  | cons a rest ih =>
    cases next : step s a with
    | none => simp [run, next] at reached
    | some u =>
      simp only [run, next, Option.bind_some] at reached
      obtain ⟨grows, later⟩ := ih (sound_step s a u h next) reached
      have now := deficit_step h next
      simp only [Along, next, Option.elim_some, ← later]
      by_cases wraps : Wraps s a
      · rw [if_pos wraps] at now
        exact ⟨by omega, iff_of_false (by omega) fun both => both.1 wraps⟩
      · rw [if_neg wraps] at now
        have same : u.deficit = s.deficit := by omega
        simp only [same] at grows ⊢
        exact ⟨grows, by simp [wraps]⟩

/-- A run is faithful just when no message is rejected while as many drops are
unreported as an `int` can count. -/
theorem faithful_iff (actions : List Action) (s : Session)
    (reached : run step start actions = some s) :
    Faithful s ↔ Along step (fun s a => ¬ Wraps s a) start actions := by
  have h := sound_run reached
  have counted := (deficit_run sound_start reached).2
  have none_ : start.deficit = 0 := rfl
  rw [none_] at counted
  rw [← counted, Session.deficit]
  constructor
  · intro faithful
    have := faithful.counted
    omega
  · intro zero
    exact ⟨h.ring.untouched, h.ordered, h.read, by omega⟩

/-- As long as the consumer does nothing, every message is put into the queue or
rejected. -/
theorem enqueues_run (msg : Parse.Text) (len : ℤ) (n : ℕ) (s : Session) :
    ∃ t, run step s (List.replicate n (.enqueue msg len)) = some t ∧ t.handed = s.handed ∧
      t.accepted.length + t.rejected = s.accepted.length + s.rejected + n := by
  induction n generalizing s with
  | zero => exact ⟨s, rfl, rfl, rfl⟩
  | succ n ih =>
    rw [List.replicate_succ, run, step]
    cases s.l.enqueueSlot with
    | none =>
      obtain ⟨t, reached, handed, count⟩ :=
        ih { s with l := enqueueMsg s.l msg len, rejected := s.rejected + 1 }
      exact ⟨t, reached, handed, by rw [count]; simp only; omega⟩
    | some i =>
      obtain ⟨t, reached, handed, count⟩ :=
        ih { s with l := enqueueMsg s.l msg len, accepted := s.accepted ++ [⟨msg, len⟩] }
      exact ⟨t, reached, handed, by rw [count, List.length_append, List.length_singleton]; simp only; omega⟩

/-- 1023 messages fit into the queue, and 2^31 rejected ones not into `dropped`. -/
theorem dropped_wraps :
    ∃ s, run step start (List.replicate (1023 + 2 ^ 31) (.enqueue ['x'] 1)) = some s ∧
      ¬ Faithful s := by
  obtain ⟨s, reached, handed, count⟩ := enqueues_run ['x'] 1 (1023 + 2 ^ 31) start
  refine ⟨s, reached, fun faithful => ?_⟩
  have h := sound_run reached
  have queue : s.accepted.length < msgQueueSz := by
    rw [h.ordered, handed]
    change ([] ++ s.l.queued).length < msgQueueSz
    simpa [Listener.queued, Ring.contents] using Ring.backlog_lt h.ring.head h.ring.tail
  have counted := faithful.counted
  have fits := h.ring.fits.2
  rw [handed] at counted
  simp only [start, reports, List.filterMap_nil, List.sum_nil, List.length_nil, intMax, msgQueueSz]
    at counted fits count queue
  omega

/-- A message is dropped, which the consumer is told of before it gets the rest. -/
def noticeRun : List Action :=
  [.enqueue ['a'] 1, .block] ++ List.replicate 1024 (.enqueue ['b'] 1) ++
    [.check, .write true, .block, .write true, .block]

theorem noticeRun_runs : (run step start noticeRun).isSome := by decide +kernel

def noticeState : Session := (run step start noticeRun).get noticeRun_runs

theorem faithful_iff_notice :
    (Faithful noticeState ↔ Along step (fun s a => ¬ Wraps s a) start noticeRun) ∧
      reports noticeState.handed = [1] :=
  ⟨faithful_iff noticeRun noticeState (Option.some_get _).symm, by decide +kernel⟩

end Libdank.LogListener
