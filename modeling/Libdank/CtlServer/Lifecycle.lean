import Libdank.Foundation.Transitions

/-! Starting and stopping the control server. Each event handler and each marshal
has a number of its own that is not given out again, and a ledger that counts how
often it has been destroyed. -/
namespace Libdank.CtlServer
open Transitions

structure Ledger where
  created : ℕ
  destroyed : ℕ → ℕ

def Ledger.empty : Ledger := ⟨0, fun _ => 0⟩

def Ledger.create (l : Ledger) : Ledger := { l with created := l.created + 1 }

/-- Nothing is destroyed through a null pointer. -/
def Ledger.destroy (l : Ledger) : Option ℕ → Ledger
  | none => l
  | some i => { l with destroyed := Function.update l.destroyed i (l.destroyed i + 1) }

/-- The variables of the file. The flags tell whether `listensn` is not NULL,
whether `listenfd` is open, and whether commands, threads and locks are there. -/
structure Ctlserver where
  listensn : Bool
  listenfd : Bool
  commands : Bool
  droneHorde : Bool
  srvrlock : Bool
  srvrcond : Bool
  ctlev : Option ℕ
  cmarsh : Option ℕ
  handlers : Ledger
  marshals : Ledger
  /-- An init has succeeded and no stop has followed. -/
  running : Bool

def idle : Ctlserver :=
  ⟨false, false, false, false, false, false, none, none, .empty, .empty, false⟩

/-- The steps of `init_ctlserver` that may fail, in their order. -/
inductive SetUp where
  | marshal | strdup | mutexInit | condInit | drones | listenLocal | fdFlags | regcommands
  | createEvthread | addFd
deriving DecidableEq, Repr

variable (s : Ctlserver)

def mainservClose : Ctlserver := { s with listensn := false, listenfd := false }

def destroyEvhandler : Ctlserver := { s with handlers := s.handlers.destroy s.ctlev }

def freeMarshal : Ctlserver := { s with marshals := s.marshals.destroy s.cmarsh }

def initErr : Ctlserver := freeMarshal { destroyEvhandler (mainservClose s) with ctlev := none }

def initLockerr : Ctlserver := initErr { s with srvrlock := false }

def initConderr : Ctlserver := initLockerr { s with srvrcond := false }

def initHerderr : Ctlserver := initConderr { s with droneHorde := false }

def initCmderr : Ctlserver := initHerderr { s with commands := false }

/-- Whether it succeeded; `fails` tells which of the steps do not. -/
def initCtlserver (fails : SetUp → Bool) : Bool × Ctlserver :=
  if fails .marshal then (false, initErr { s with cmarsh := none })
  else
    let s := { s with cmarsh := some s.marshals.created, marshals := s.marshals.create }
    if fails .strdup then (false, initErr { s with listensn := false })
    else
      let s := { s with listensn := true }
      if fails .mutexInit then (false, initErr s)
      else
        let s := { s with srvrlock := true }
        if fails .condInit then (false, initLockerr s)
        else
          let s := { s with srvrcond := true }
          if fails .drones then (false, initConderr s)
          else
            let s := { s with droneHorde := true }
            if fails .listenLocal then (false, initHerderr { s with listenfd := false })
            else
              let s := { s with listenfd := true }
              if fails .fdFlags then (false, initHerderr s)
              else if fails .regcommands then (false, initHerderr s)
              else
                let s := { s with commands := true }
                if fails .createEvthread then (false, initCmderr { s with ctlev := none })
                else
                  let s := { s with
                    ctlev := some s.handlers.created, handlers := s.handlers.create }
                  if fails .addFd then (false, initCmderr s) else (true, s)

def stopCtlserver (unclean : Bool) : ℤ × Ctlserver :=
  if s.ctlev = none then (-1, s)
  else
    let s := destroyEvhandler (mainservClose { s with commands := false })
    (if unclean then -1 else 0,
      freeMarshal { s with droneHorde := false, srvrlock := false, srvrcond := false })

inductive Call where
  | init (fails : SetUp → Bool)
  | stop (unclean : Bool)

/-- An init is called only when no server is running. -/
def call : Call → Option Ctlserver
  | .init fails =>
    if s.running then none
    else
      let (ok, s) := initCtlserver s fails
      some { s with running := ok }
  | .stop unclean => some { (stopCtlserver s unclean).2 with running := false }

def OnceEach (l : Ledger) (live : Option ℕ) : Prop :=
  ∀ i < l.created, l.destroyed i = if live = some i then 0 else 1

def Ctlserver.liveHandler : Option ℕ := if s.running then s.ctlev else none

def Ctlserver.liveMarshal : Option ℕ := if s.running then s.cmarsh else none

/-- What the call leaves: the server's own handler and marshal in use while it
runs, and every other destroyed once. A stop with nothing to stop says so and
destroys nothing. -/
structure Proper (c : Call) : Prop where
  settled : ∀ s', call s c = some s' →
    OnceEach s'.handlers s'.liveHandler ∧ OnceEach s'.marshals s'.liveMarshal
  refused : ∀ unclean, c = .stop unclean → s.running = false →
    (stopCtlserver s unclean).1 = -1 ∧ (stopCtlserver s unclean).2.handlers = s.handlers ∧
      (stopCtlserver s unclean).2.marshals = s.marshals

/-- `ctlev` still points to the handler of a server that has been stopped. -/
def Stale : Prop := s.running = false ∧ s.ctlev ≠ none

/-- The init gets as far as to overwrite `ctlev`. -/
def Reaches (fails : SetUp → Bool) : Prop :=
  ∀ step ∈ [SetUp.marshal, .strdup, .mutexInit, .condInit, .drones, .listenLocal, .fdFlags,
    .regcommands], fails step = false

/-- With a stale handler there is no stop, and no init that fails early. -/
def Careful (c : Call) : Prop :=
  Stale s → match c with
    | .init fails => Reaches fails
    | .stop _ => False

variable {s}

structure Balanced (l : Ledger) (live : Option ℕ) : Prop where
  once : OnceEach l live
  future : ∀ i, l.created ≤ i → l.destroyed i = 0
  made : ∀ i, live = some i → i < l.created

theorem balanced_empty : Balanced .empty none :=
  ⟨fun i lt => absurd lt (Nat.not_lt_zero i), fun _ _ => rfl, fun _ some_ => by simp at some_⟩

theorem Balanced.create {l : Ledger} (b : Balanced l none) : Balanced l.create (some l.created) := by
  refine ⟨fun i lt => ?_, fun i le => b.future i (Nat.le_of_succ_le le), fun i same => ?_⟩
  · change l.destroyed i = _
    rcases Nat.lt_succ_iff_lt_or_eq.mp lt with lt | rfl
    · rw [b.once i lt, if_neg (by simp), if_neg (by simpa using lt.ne')]
    · rw [b.future l.created le_rfl, if_pos rfl]
  · obtain rfl := Option.some.inj same
    exact Nat.lt_succ_self l.created

theorem Balanced.destroy {l : Ledger} {live : Option ℕ} (b : Balanced l live) :
    Balanced (l.destroy live) none := by
  cases live with
  | none => exact b
  | some j =>
    have lt := b.made j rfl
    refine ⟨fun i hi => ?_, fun i le => ?_, fun i same => by simp at same⟩
    · change Function.update l.destroyed j (l.destroyed j + 1) i = _
      by_cases here : i = j
      · subst here
        rw [Function.update_self, b.once i lt, if_pos rfl, if_neg (by simp)]
      · rw [Function.update_of_ne here, b.once i hi, if_neg (by simpa using Ne.symm here),
          if_neg (by simp)]
    · change l.created ≤ i at le
      change Function.update l.destroyed j (l.destroyed j + 1) i = 0
      rw [Function.update_of_ne (by omega), b.future i le]

theorem Balanced.twice {l : Ledger} (b : Balanced l none) {i : ℕ} (lt : i < l.created) :
    ¬ OnceEach (l.destroy (some i)) none := by
  intro once
  have here := once i lt
  rw [if_neg (by simp)] at here
  change Function.update l.destroyed i (l.destroyed i + 1) i = 1 at here
  rw [Function.update_self, b.once i lt, if_neg (by simp)] at here
  omega

/-- How an init ends: it fails early, and destroys whatever `ctlev` points to; it
fails late, and destroys what it has created; or it succeeds. -/
theorem initCtlserver_cases (s : Ctlserver) (fails : SetUp → Bool) :
    (¬ Reaches fails ∧ ∃ s', initCtlserver s fails = (false, s') ∧ s'.ctlev = none ∧
      s'.handlers = s.handlers.destroy s.ctlev ∧
      (s'.marshals = s.marshals ∨ s'.marshals = s.marshals.create.destroy (some s.marshals.created))) ∨
    (Reaches fails ∧ ∃ s', initCtlserver s fails = (false, s') ∧ s'.ctlev = none ∧
      (s'.handlers = s.handlers ∨ s'.handlers = s.handlers.create.destroy (some s.handlers.created)) ∧
      s'.marshals = s.marshals.create.destroy (some s.marshals.created)) ∨
    (Reaches fails ∧ ∃ s', initCtlserver s fails = (true, s') ∧
      s'.ctlev = some s.handlers.created ∧ s'.handlers = s.handlers.create ∧
      s'.cmarsh = some s.marshals.created ∧ s'.marshals = s.marshals.create) := by
  have early {step : SetUp} (fail : fails step = true) (mem : step ∈ [SetUp.marshal, .strdup,
      .mutexInit, .condInit, .drones, .listenLocal, .fdFlags, .regcommands]) : ¬ Reaches fails :=
    fun reaches => by simp [reaches step mem] at fail
  obtain ⟨q, hq⟩ : ∃ q, initCtlserver s fails = q := ⟨_, rfl⟩
  rw [hq]
  rw [initCtlserver] at hq
  by_cases h1 : fails .marshal = true
  · rw [if_pos h1] at hq
    exact .inl ⟨early h1 (by simp), _, hq.symm, rfl, rfl, .inl rfl⟩
  simp only [if_neg h1] at hq
  by_cases h2 : fails .strdup = true
  · rw [if_pos h2] at hq
    exact .inl ⟨early h2 (by simp), _, hq.symm, rfl, rfl, .inr rfl⟩
  simp only [if_neg h2] at hq
  by_cases h3 : fails .mutexInit = true
  · rw [if_pos h3] at hq
    exact .inl ⟨early h3 (by simp), _, hq.symm, rfl, rfl, .inr rfl⟩
  simp only [if_neg h3] at hq
  by_cases h4 : fails .condInit = true
  · rw [if_pos h4] at hq
    exact .inl ⟨early h4 (by simp), _, hq.symm, rfl, rfl, .inr rfl⟩
  simp only [if_neg h4] at hq
  by_cases h5 : fails .drones = true
  · rw [if_pos h5] at hq
    exact .inl ⟨early h5 (by simp), _, hq.symm, rfl, rfl, .inr rfl⟩
  simp only [if_neg h5] at hq
  by_cases h6 : fails .listenLocal = true
  · rw [if_pos h6] at hq
    exact .inl ⟨early h6 (by simp), _, hq.symm, rfl, rfl, .inr rfl⟩
  simp only [if_neg h6] at hq
  by_cases h7 : fails .fdFlags = true
  · rw [if_pos h7] at hq
    exact .inl ⟨early h7 (by simp), _, hq.symm, rfl, rfl, .inr rfl⟩
  simp only [if_neg h7] at hq
  by_cases h8 : fails .regcommands = true
  · rw [if_pos h8] at hq
    exact .inl ⟨early h8 (by simp), _, hq.symm, rfl, rfl, .inr rfl⟩
  simp only [if_neg h8] at hq
  have reaches : Reaches fails := by simp [Reaches, h1, h2, h3, h4, h5, h6, h7, h8]
  by_cases h9 : fails .createEvthread = true
  · rw [if_pos h9] at hq
    exact .inr (.inl ⟨reaches, _, hq.symm, rfl, .inl rfl, rfl⟩)
  simp only [if_neg h9] at hq
  by_cases h10 : fails .addFd = true
  · rw [if_pos h10] at hq
    exact .inr (.inl ⟨reaches, _, hq.symm, rfl, .inr rfl, rfl⟩)
  simp only [if_neg h10] at hq
  exact .inr (.inr ⟨reaches, _, hq.symm, rfl, rfl, rfl, rfl⟩)

structure Books (s : Ctlserver) : Prop where
  handlers : Balanced s.handlers s.liveHandler
  marshals : Balanced s.marshals s.liveMarshal
  known : ∀ h, s.ctlev = some h → h < s.handlers.created
  serving : s.running = true → s.ctlev ≠ none

theorem books_idle : Books idle :=
  ⟨balanced_empty, balanced_empty, fun _ some_ => by simp [idle] at some_, by simp [idle]⟩

theorem Books.resting {s : Ctlserver} (b : Books s) (rest : s.running = false) :
    Balanced s.handlers none ∧ Balanced s.marshals none := by
  have handlers := b.handlers
  have marshals := b.marshals
  rw [Ctlserver.liveHandler, rest] at handlers
  rw [Ctlserver.liveMarshal, rest] at marshals
  exact ⟨handlers, marshals⟩

theorem books_stopped {s : Ctlserver} (rest : s.running = false) (handlers : Balanced s.handlers none)
    (marshals : Balanced s.marshals none) (known : ∀ h, s.ctlev = some h → h < s.handlers.created) :
    Books s := by
  refine ⟨?_, ?_, known, by simp [rest]⟩
  · rw [Ctlserver.liveHandler, rest]
    exact handlers
  · rw [Ctlserver.liveMarshal, rest]
    exact marshals

theorem ctlev_of_not_stale {s : Ctlserver} (rest : s.running = false) (fresh : ¬ Stale s) :
    s.ctlev = none := by
  by_contra some_
  exact fresh ⟨rest, some_⟩

theorem books_init {s s' : Ctlserver} (b : Books s) {fails : SetUp → Bool}
    (careful : Careful s (.init fails)) (next : call s (.init fails) = some s') : Books s' := by
  have rest : s.running = false := by
    by_contra running
    simp [call, running] at next
  obtain ⟨handlers, marshals⟩ := b.resting rest
  rw [call, if_neg (by simp [rest])] at next
  have made := marshals.create.destroy
  rcases initCtlserver_cases s fails with ⟨short, t, eq, ctlev, handlers', marshals'⟩ |
    ⟨-, t, eq, ctlev, handlers', marshals'⟩ | ⟨-, t, eq, ctlev, handlers', cmarsh, marshals'⟩
  · rw [eq] at next
    obtain rfl := Option.some.inj next
    have fresh := ctlev_of_not_stale rest fun stale => short (careful stale)
    refine books_stopped rfl ?_ ?_ (by simp [ctlev])
    · change Balanced t.handlers none
      rw [handlers', fresh]
      exact handlers
    · change Balanced t.marshals none
      rcases marshals' with same | same
      · rwa [same]
      · rwa [same]
  · rw [eq] at next
    obtain rfl := Option.some.inj next
    refine books_stopped rfl ?_ ?_ (by simp [ctlev])
    · change Balanced t.handlers none
      rcases handlers' with same | same
      · rwa [same]
      · rw [same]
        exact handlers.create.destroy
    · change Balanced t.marshals none
      rwa [marshals']
  · rw [eq] at next
    obtain rfl := Option.some.inj next
    refine ⟨?_, ?_, fun h some_ => ?_, by simp [ctlev]⟩
    · change Balanced t.handlers t.ctlev
      rw [handlers', ctlev]
      exact handlers.create
    · change Balanced t.marshals t.cmarsh
      rw [marshals', cmarsh]
      exact marshals.create
    · change h < t.handlers.created
      rw [handlers']
      obtain rfl : s.handlers.created = h := Option.some.inj (ctlev.symm.trans some_)
      exact Nat.lt_succ_self _

theorem stopCtlserver_none {s : Ctlserver} (none_ : s.ctlev = none) (unclean : Bool) :
    stopCtlserver s unclean = (-1, s) := if_pos none_

theorem stopCtlserver_some {s : Ctlserver} (some_ : s.ctlev ≠ none) (unclean : Bool) :
    (stopCtlserver s unclean).2.ctlev = s.ctlev ∧
      (stopCtlserver s unclean).2.handlers = s.handlers.destroy s.ctlev ∧
      (stopCtlserver s unclean).2.marshals = s.marshals.destroy s.cmarsh := by
  rw [stopCtlserver, if_neg some_]
  exact ⟨rfl, rfl, rfl⟩

theorem books_stop {s s' : Ctlserver} (b : Books s) {unclean : Bool}
    (careful : Careful s (.stop unclean)) (next : call s (.stop unclean) = some s') : Books s' := by
  obtain rfl := Option.some.inj next
  by_cases running : s.running = true
  · obtain ⟨ctlev, handlers, marshals⟩ := stopCtlserver_some (b.serving running) unclean
    have bh := b.handlers
    have bm := b.marshals
    rw [Ctlserver.liveHandler, if_pos running] at bh
    rw [Ctlserver.liveMarshal, if_pos running] at bm
    refine books_stopped rfl ?_ ?_ fun h some_ => ?_
    · change Balanced (stopCtlserver s unclean).2.handlers none
      rw [handlers]
      exact bh.destroy
    · change Balanced (stopCtlserver s unclean).2.marshals none
      rw [marshals]
      exact bm.destroy
    · change h < (stopCtlserver s unclean).2.handlers.created
      change (stopCtlserver s unclean).2.ctlev = some h at some_
      rw [ctlev] at some_
      rw [handlers, some_]
      exact b.known h some_
  · have rest : s.running = false := by simpa using running
    have fresh := ctlev_of_not_stale rest fun stale => careful stale
    rw [stopCtlserver_none fresh]
    obtain ⟨handlers, marshals⟩ := b.resting rest
    exact books_stopped rfl handlers marshals b.known

theorem books_call {s s' : Ctlserver} (b : Books s) {c : Call} (careful : Careful s c)
    (next : call s c = some s') : Books s' := by
  cases c with
  | init fails => exact books_init b careful next
  | stop unclean => exact books_stop b careful next

theorem proper_iff {s : Ctlserver} (b : Books s) (c : Call) : Proper s c ↔ Careful s c := by
  constructor
  · intro proper stale
    obtain ⟨rest, some_⟩ := stale
    obtain ⟨h, ctlev⟩ := Option.ne_none_iff_exists'.mp some_
    have twice := (b.resting rest).1.twice (b.known h ctlev)
    cases c with
    | init fails =>
      rcases initCtlserver_cases s fails with ⟨-, t, eq, none_, handlers, -⟩ | ⟨reaches, -⟩ | ⟨reaches, -⟩
      · have next : call s (.init fails) = some { t with running := false } := by
          rw [call, if_neg (by simp [rest]), eq]
        have settled := (proper.settled _ next).1
        change OnceEach t.handlers none at settled
        rw [handlers, ctlev] at settled
        exact absurd settled twice
      · exact reaches
      · exact reaches
    | stop unclean =>
      have settled := (proper.settled _ rfl).1
      change OnceEach (stopCtlserver s unclean).2.handlers none at settled
      rw [(stopCtlserver_some some_ unclean).2.1, ctlev] at settled
      exact absurd settled twice
  · intro careful
    refine ⟨fun s' next => ?_, fun unclean same rest => ?_⟩
    · have books := books_call b careful next
      exact ⟨books.handlers.once, books.marshals.once⟩
    · subst same
      rw [stopCtlserver_none (ctlev_of_not_stale rest fun stale => careful stale)]
      exact ⟨rfl, rfl, rfl⟩

theorem along_iff {s : Ctlserver} (b : Books s) (calls : List Call) :
    Along call Proper s calls ↔ Along call Careful s calls :=
  along_congr (fun _ c b => proper_iff b c) (fun _ _ _ b careful next => books_call b careful next)
    b calls

/-- In a run of starts and stops each handler and each marshal is destroyed once,
just when no call of the run comes upon a stale handler. -/
theorem lifecycle_proper_iff (calls : List Call) :
    Along call Proper idle calls ↔ Along call Careful idle calls :=
  along_iff books_idle calls

/-- A second stop, and an init without memory after a stop, each destroy the handler
of the stopped server once more. -/
theorem lifecycle_destroys_twice :
    let up : Call := .init fun _ => false
    let down : Call := .stop false
    let short : Call := .init (· = .marshal)
    ¬ Along call Proper idle [up, down, down] ∧
      (run call idle [up, down, down]).map (fun s => (s.handlers.destroyed 0, s.marshals.destroyed 0)) =
        some (2, 2) ∧
      (run call idle [up, down, short]).map (fun s => s.handlers.destroyed 0) = some 2 := by
  refine ⟨fun proper => ?_, by decide, by decide⟩
  obtain ⟨-, -, careful, -⟩ := (along_iff books_idle _).mp proper
  exact careful ⟨rfl, by decide⟩

end Libdank.CtlServer
