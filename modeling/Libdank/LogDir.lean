import Libdank.Foundation.Holdings
import Libdank.Foundation.Transitions

/-! The streams that a program logs to, after `modules/logging/logdir.c` with `init_logging`,
`log_crash` and `stop_logging` of `modules/logging/logging.c` and the contexts of
`objects/logctx.c`. Any step may fail; `fails` tells which of them do in a call. -/
namespace Libdank.LogDir
open Requests Holdings Transitions

inductive Kind where
  | memory | stream
deriving DecidableEq, Repr

abbrev Thing := Item Kind

inductive Lfile where
  | null | stdout | stream (s : Thing)
deriving DecidableEq, Repr

def Lfile.streams : Lfile → List Thing
  | stream s => [s]
  | _ => []

/-- What a log context holds: `lfile`, and `out` and `err`, each a `ustring` with what it has grown. -/
structure Logctx where
  lfile : Lfile
  ustrings : List Thing
deriving DecidableEq, Repr

def Logctx.cleared : Logctx := ⟨.null, []⟩

def Logctx.things (lc : Logctx) : List Thing := lc.ustrings ++ lc.lfile.streams

section Streams

inductive OpenStep where
  | fopen | fileno | cloexec
deriving DecidableEq, Repr

def openLogfile (fails : OpenStep → Bool) : Holder Kind (Option Thing) := do
  if fails .fopen then pure none
  else
    let ret ← take .stream
    if fails .fileno then
      release ret
      pure none
    else if fails .cloexec then
      release ret
      pure none
    else pure (some ret)

inductive CrashStep where
  | kbyte | opened (step : OpenStep) | fwrite (i : ℕ)
deriving DecidableEq, Repr

def logKbytes : ℕ := 1024

/-- `crashLog` is whether there is a crash log already. -/
def reserveCrashLog (crashLog : Bool) (fails : CrashStep → Bool) : Holder Kind (Option Thing) := do
  if crashLog then pure none
  else if fails .kbyte then pure none
  else
    let kbyte ← take .memory
    match ← openLogfile fun step => fails (.opened step) with
    | none =>
      release kbyte
      pure none
    | some fp =>
      if (List.range logKbytes).any fun i => fails (.fwrite i) then
        release fp
        release kbyte
        pure none
      else
        release kbyte
        pure (some fp)

inductive DirStep where
  /-- The checks of `set_logdir_locked` and `try_logdir`. -/
  | tooLong | logdir | crashTooLong | mkdir
  | crash (step : CrashStep)
  /-- `open_thread_log` -/
  | name | main (step : OpenStep)
deriving DecidableEq, Repr

structure DirResult where
  lfile : Lfile
  logdir : Option Thing
  reserved : Option Thing
deriving DecidableEq, Repr

def openThreadLog (name : Bool) (fails : OpenStep → Bool) : Holder Kind Lfile := do
  if name then pure .null
  else
    match ← openLogfile fails with
    | none => pure .null
    | some ret => pure (.stream ret)

def setLogdirLocked (crashLog : Bool) (fails : DirStep → Bool) : Holder Kind DirResult := do
  if fails .tooLong then pure ⟨.null, none, none⟩
  else if fails .logdir then pure ⟨.null, none, none⟩
  else
    let logdir ← take .memory
    if fails .crashTooLong then pure ⟨.null, some logdir, none⟩
    else if fails .mkdir then pure ⟨.null, some logdir, none⟩
    else
      match ← reserveCrashLog crashLog fun step => fails (.crash step) with
      | none => pure ⟨.null, some logdir, none⟩
      | some fp =>
        let lfile ← openThreadLog (fails .name) fun step => fails (.main step)
        pure ⟨lfile, some logdir, some fp⟩

end Streams

inductive UstringStep where
  | out | err
deriving DecidableEq, Repr

def createLogctxUstrings (fails : UstringStep → Bool) : Holder Kind (List Thing) := do
  if fails .out then pure []
  else
    let out ← take .memory
    if fails .err then
      release out
      pure []
    else
      let err ← take .memory
      pure [out, err]

/-- The globals and the contexts of the threads that have one. `abandoned` is only a record of
what is left when the last pointer to it is overwritten. -/
structure Logging where
  ledger : Ledger Kind
  logdir : Option Thing
  useStdio : Bool
  crashLog : Option Thing
  availCrashLog : Option Thing
  contexts : List (ℕ × Logctx)
  abandoned : List Thing
deriving DecidableEq, Repr

def Logging.fresh : Logging := ⟨.empty, none, false, none, none, [], []⟩

inductive Destination where
  | stdio | dir (fails : DirStep → Bool) | ustrings (fails : UstringStep → Bool)

/-- The calls of a thread. `locked` is whether `pthread_mutex_trylock` gets the lock. -/
inductive Call where
  | initLogging (t : ℕ) (dest : Destination)
  /-- `init_thread_logctx` -/
  | startThread (t : ℕ) (name : Bool) (fails : OpenStep → Bool)
  /-- `free_logctx_wrapper` -/
  | endThread (t : ℕ)
  /-- `inner_vflog` where it cannot write to the log, or cannot truncate it. -/
  | writeFails (t : ℕ)
  | logCrash (t : ℕ) (locked : Bool)
  | stopLogging (t : ℕ) (locked fileno : Bool)

section Steps
variable (s : Logging) (t : ℕ)

def Logging.logctx : Logctx := (s.contexts.lookup t).getD .cleared

def Logging.lfile : Lfile := (s.logctx t).lfile

def Logging.become (lc : Logctx) : Logging := { s with contexts := put t lc s.contexts }

def Logging.point (f : Lfile) : Logging := s.become t { s.logctx t with lfile := f }

def Logging.abandon (lost : List Thing) : Logging := { s with abandoned := lost ++ s.abandoned }

def Logging.initPrivateLogctx : Logging := (s.become t .cleared).abandon (s.logctx t).things

def Logging.freeLogctx : Logging :=
  { s.become t .cleared with ledger := (releaseAll (s.logctx t).things s.ledger).2 }

def Logging.setLogdir (fails : DirStep → Bool) : Logging :=
  let (r, ledger) := setLogdirLocked s.crashLog.isSome fails s.ledger
  let s := if r.reserved.isSome then
      { s.abandon s.availCrashLog.toList with crashLog := r.reserved, availCrashLog := r.reserved }
    else s
  { s.point t r.lfile with ledger := ledger, logdir := r.logdir }

def Logging.initLogging (dest : Destination) : Logging :=
  let s := s.initPrivateLogctx t
  match dest with
  | .stdio =>
    if s.logdir = none ∧ s.useStdio = false then { s.point t .stdout with useStdio := true } else s
  | .dir fails => if s.logdir = none ∧ s.useStdio = false then s.setLogdir t fails else s
  | .ustrings fails =>
    let (made, ledger) := createLogctxUstrings fails s.ledger
    { s.become t ⟨s.lfile t, made⟩ with ledger := ledger }

def Logging.startThread (name : Bool) (fails : OpenStep → Bool) : Logging :=
  let s := s.initPrivateLogctx t
  if s.logdir = none then if s.useStdio then s.point t .stdout else s
  else
    let (lfile, ledger) := openThreadLog name fails s.ledger
    { s.point t lfile with ledger := ledger }

/-- `get_crash_log_locked`; the context's `lfile` becomes `crash_log`. -/
def Logging.logCrash : Logging :=
  match s.availCrashLog with
  | some avail =>
    let s := { s.initPrivateLogctx t with availCrashLog := none }
    match s.crashLog with
    | some crash => s.point t (.stream crash)
    | none => s.abandon [avail]
  | none => if s.useStdio then (s.initPrivateLogctx t).point t .stdout else s

def Logging.truncateCrashLog (fileno : Bool) : Logging :=
  match s.contexts.lookup t, s.crashLog with
  | some lc, some crash =>
    if s.availCrashLog.isSome then
      { s with availCrashLog := none, ledger := (release crash s.ledger).2 }
    else if lc.lfile ≠ .stream crash then s
    else if fileno then (s.point t .null).abandon [crash]
    else s
  | _, _ => s

def Logging.stopLogging (fileno : Bool) : Logging :=
  let s := { s.truncateCrashLog t fileno with crashLog := none }
  let s := if (s.contexts.lookup t).isSome then s.freeLogctx t else s
  { s with logdir := none, ledger := (releaseAll s.logdir.toList s.ledger).2 }

def Logging.step : Call → Option Logging
  | .initLogging t dest => some (s.initLogging t dest)
  | .startThread t name fails => some (s.startThread t name fails)
  | .endThread t =>
    if (s.contexts.lookup t).isSome then
      let s := s.freeLogctx t
      some { s with contexts := s.contexts.filter fun p => p.1 ≠ t }
    else none
  | .writeFails t =>
    if (s.contexts.lookup t).isSome then some ((s.point t .null).abandon (s.lfile t).streams) else none
  | .logCrash t locked => some (if locked then s.logCrash t else s)
  | .stopLogging t locked fileno => some (if locked then s.stopLogging t fileno else s)

end Steps

/-- A step after which no open stream and no `ustring` is out of reach. -/
def Tidy (s : Logging) : Call → Prop
  | .initLogging t _ => (s.logctx t).things = []
  | .startThread t _ _ => (s.logctx t).things = []
  | .endThread _ => True
  | .writeFails t => (s.lfile t).streams = []
  | .logCrash t locked => locked = true → s.availCrashLog.isSome ∨ s.useStdio = true → (s.logctx t).things = []
  | .stopLogging t locked fileno =>
    locked = true →
      s.availCrashLog = none ∧
          ¬ (fileno = true ∧ ∃ c ∈ s.crashLog, s.lfile t = .stream c) ∨
        s.availCrashLog.isSome ∧ (s.contexts.lookup t).isSome

variable {s : Logging} {t : ℕ}

def Logging.away (s : Logging) (t : ℕ) : Multiset Thing :=
  ↑s.logdir.toList + ↑s.availCrashLog.toList + shares Logctx.things (s.contexts.filter fun p => p.1 ≠ t) +
    ↑s.abandoned

def Logging.live (s : Logging) : Multiset Thing :=
  ↑s.logdir.toList + ↑s.availCrashLog.toList + shares Logctx.things s.contexts + ↑s.abandoned

structure Settled (s : Logging) : Prop where
  parties : (s.contexts.map Prod.fst).Nodup
  held : Held s.live s.ledger
  linked : ∀ c ∈ s.crashLog, ∀ a ∈ s.availCrashLog, a = c

theorem settled_fresh : Settled .fresh :=
  ⟨List.nodup_nil, held_empty, fun _ none_ => nomatch none_⟩

section Contexts

theorem logctx_become (lc : Logctx) : (s.become t lc).logctx t = lc := by
  rw [Logging.logctx, Logging.become, lookup_put]
  rfl

theorem live_become (lc : Logctx) : (s.become t lc).live = ↑lc.things + s.away t := by
  rw [Logging.live, Logging.become, shares_put, Logging.away]
  abel

theorem live_point (f : Lfile) :
    (s.point t f).live = ↑f.streams + (↑(s.logctx t).ustrings + s.away t) := by
  rw [Logging.point, live_become, Logctx.things, ← Multiset.coe_add]
  abel

theorem live_fresh (before : s.logctx t = .cleared) (f : Lfile) :
    (s.point t f).live = ↑f.streams + s.away t := by
  rw [live_point, before]
  exact congrArg _ (zero_add _)

theorem live_split (parties : (s.contexts.map Prod.fst).Nodup) (t : ℕ) :
    s.live = ↑(s.logctx t).things + s.away t := by
  have own : (s.contexts.lookup t).elim [] Logctx.things = (s.logctx t).things := by
    rw [Logging.logctx]
    cases s.contexts.lookup t <;> rfl
  rw [Logging.live, shares_split Logctx.things parties t, own, Logging.away]
  abel

theorem live_lfile (parties : (s.contexts.map Prod.fst).Nodup) (t : ℕ) :
    s.live = ↑(s.lfile t).streams + (↑(s.logctx t).ustrings + s.away t) := by
  rw [live_split parties t, Logctx.things, ← Multiset.coe_add, Logging.lfile]
  abel

end Contexts

section Opened

theorem openLogfile_holds (fails : OpenStep → Bool) :
    InHand 0 (openLogfile fails) fun r left => left = ↑r.toList := by
  refine inHand_ite (fun _ => inHand_pure rfl) fun _ => inHand_take fun ret _ => ?_
  refine inHand_ite (fun _ => inHand_release rfl (inHand_pure rfl)) fun _ => ?_
  exact inHand_ite (fun _ => inHand_release rfl (inHand_pure rfl)) fun _ => inHand_pure rfl

theorem openThreadLog_holds (name : Bool) (fails : OpenStep → Bool) :
    InHand 0 (openThreadLog name fails) fun f left => left = ↑f.streams := by
  refine inHand_ite (fun _ => inHand_pure rfl) fun _ => ?_
  refine inHand_bind (openLogfile_holds fails) fun r left is => ?_
  subst is
  cases r <;> exact inHand_pure rfl

theorem reserveCrashLog_holds (crashLog : Bool) (fails : CrashStep → Bool) :
    InHand 0 (reserveCrashLog crashLog fails) fun r left => left = ↑r.toList ∧ (crashLog = true → r = none) := by
  refine inHand_ite (fun _ => inHand_pure ⟨rfl, fun _ => rfl⟩) fun fresh => ?_
  refine inHand_ite (fun _ => inHand_pure ⟨rfl, fun _ => rfl⟩) fun _ => inHand_take fun kbyte _ => ?_
  refine inHand_frame (openLogfile_holds _) (zero_add _).symm fun r left is => ?_
  subst is
  cases r with
  | none => exact inHand_release (add_comm _ _) (inHand_pure ⟨rfl, fun _ => rfl⟩)
  | some fp =>
    refine inHand_ite (fun _ => ?_) fun _ => ?_
    · exact inHand_release rfl (inHand_release rfl (inHand_pure ⟨rfl, fun _ => rfl⟩))
    · exact inHand_release (add_comm _ _) (inHand_pure ⟨rfl, fun there => absurd there fresh⟩)

theorem setLogdirLocked_holds (crashLog : Bool) (fails : DirStep → Bool) :
    InHand 0 (setLogdirLocked crashLog fails) fun r left =>
      left = ↑r.logdir.toList + ↑r.reserved.toList + ↑r.lfile.streams ∧ (crashLog = true → r.reserved = none) := by
  refine inHand_ite (fun _ => inHand_pure ⟨rfl, fun _ => rfl⟩) fun _ => ?_
  refine inHand_ite (fun _ => inHand_pure ⟨rfl, fun _ => rfl⟩) fun _ => inHand_take fun logdir _ => ?_
  refine inHand_ite (fun _ => inHand_pure ⟨rfl, fun _ => rfl⟩) fun _ => ?_
  refine inHand_ite (fun _ => inHand_pure ⟨rfl, fun _ => rfl⟩) fun _ => ?_
  refine inHand_frame (reserveCrashLog_holds crashLog _) (zero_add _).symm fun r left ⟨is, once⟩ => ?_
  subst is
  cases r with
  | none => exact inHand_pure ⟨rfl, fun _ => rfl⟩
  | some fp =>
    refine inHand_frame (openThreadLog_holds _ _) (zero_add _).symm fun f left is => ?_
    subst is
    refine inHand_pure ⟨?_, fun there => nomatch once there⟩
    change _ = ({logdir} : Multiset Thing) + {fp} + ↑f.streams
    change (↑f.streams : Multiset Thing) + ({fp} + ({logdir} + 0)) = _
    abel

theorem createLogctxUstrings_holds (fails : UstringStep → Bool) :
    InHand 0 (createLogctxUstrings fails) fun made left => left = ↑made := by
  refine inHand_ite (fun _ => inHand_pure rfl) fun _ => inHand_take fun out _ => ?_
  refine inHand_ite (fun _ => inHand_release rfl (inHand_pure rfl)) fun _ => inHand_take fun err _ => ?_
  exact inHand_pure (Multiset.coe_eq_coe.mpr (List.Perm.swap _ _ _))

end Opened

section Kept

def InReach (s : Logging) : Prop := s.abandoned = [] ∧ (s.crashLog = none → s.availCrashLog = none)

theorem live_abandon (lost : List Thing) : (s.abandon lost).live = ↑lost + s.live := by
  simp only [Logging.live, Logging.abandon, ← Multiset.coe_add]
  abel

theorem inReach_init : InReach (s.initPrivateLogctx t) ↔ InReach s ∧ (s.logctx t).things = [] := by
  change (s.logctx t).things ++ s.abandoned = [] ∧ _ ↔ _
  rw [List.append_eq_nil_iff, InReach]
  tauto

theorem logctx_init : (s.initPrivateLogctx t).logctx t = .cleared := logctx_become .cleared

theorem settled_init (h : Settled s) : Settled (s.initPrivateLogctx t) := by
  refine ⟨parties_put h.parties, ?_, h.linked⟩
  have same : (s.initPrivateLogctx t).live = s.live := by
    rw [Logging.initPrivateLogctx, live_abandon, live_become, live_split h.parties t]
    exact congrArg _ (zero_add _)
  rw [same]
  exact h.held

theorem settled_become (h : Settled s) (before : s.logctx t = .cleared) {lc : Logctx} {l : Ledger Kind}
    (held : Held ((↑lc.things : Multiset Thing) + s.live) l) : Settled { s.become t lc with ledger := l } := by
  refine ⟨parties_put h.parties, ?_, h.linked⟩
  change Held (s.become t lc).live l
  rw [live_split h.parties t, before] at held
  rw [live_become]
  exact held

theorem settled_point (h : Settled s) (before : s.logctx t = .cleared) {f : Lfile} {l : Ledger Kind}
    (held : Held ((↑f.streams : Multiset Thing) + s.live) l) : Settled { s.point t f with ledger := l } := by
  rw [Logging.point, before]
  exact settled_become h before held

theorem settled_stdout (h : Settled s) (before : s.logctx t = .cleared) : Settled (s.point t .stdout) :=
  settled_point h before ((zero_add s.live).symm ▸ h.held)

theorem kept_setLogdir (h : Settled s) (before : s.logctx t = .cleared) (unset : s.logdir = none)
    (fails : DirStep → Bool) :
    Settled (s.setLogdir t fails) ∧ (InReach (s.setLogdir t fails) ↔ InReach s) := by
  obtain ⟨left, ⟨rfl, once⟩, held⟩ := (setLogdirLocked_holds s.crashLog.isSome fails).adds h.held
  rw [Logging.setLogdir]
  generalize setLogdirLocked s.crashLog.isSome fails s.ledger = made at once held
  obtain ⟨⟨lfile, logdir, reserved⟩, ledger⟩ := made
  simp only at once held ⊢
  rw [live_split h.parties t, before, Logging.away, unset] at held
  change Held (_ + (0 + _)) ledger at held
  have fresh (s' : Logging) (same : s'.contexts = s.contexts) :
      (s'.point t lfile).live = ↑lfile.streams + s'.away t :=
    live_fresh (by rw [Logging.logctx, same]; exact before) lfile
  cases reserved with
  | none =>
    refine ⟨⟨parties_put h.parties, ?_, h.linked⟩, Iff.rfl⟩
    change Held (Logging.point { s with logdir := logdir } t lfile).live ledger
    rw [fresh { s with logdir := logdir } rfl, Logging.away]
    convert held using 1
    simp only [Option.toList_none, Multiset.coe_nil]
    abel
  | some fp =>
    have none_ : s.crashLog = none := by
      cases crash : s.crashLog with
      | none => rfl
      | some c => exact nomatch once (by rw [crash]; rfl)
    refine ⟨⟨parties_put h.parties, ?_, ?_⟩, ?_⟩
    · change Held (Logging.point { s.abandon s.availCrashLog.toList with
        logdir := logdir, availCrashLog := some fp } t lfile).live ledger
      rw [fresh { s.abandon s.availCrashLog.toList with logdir := logdir, availCrashLog := some fp } rfl,
        Logging.away]
      convert held using 1
      simp only [Logging.abandon, Option.toList_none, Multiset.coe_nil, ← Multiset.coe_add]
      abel
    · intro c hc a ha
      exact (Option.some.inj ha).symm.trans (Option.some.inj hc)
    · change s.availCrashLog.toList ++ s.abandoned = [] ∧ (some fp = none → _) ↔ _
      rw [List.append_eq_nil_iff, InReach, Option.toList_eq_nil_iff, none_]
      simp [and_comm]

theorem kept_initLogging (h : Settled s) (dest : Destination) :
    Settled (s.initLogging t dest) ∧
      (InReach (s.initLogging t dest) ↔ InReach s ∧ (s.logctx t).things = []) := by
  have init := settled_init (t := t) h
  have empty : (s.initPrivateLogctx t).logctx t = .cleared := logctx_init
  rw [← inReach_init]
  unfold Logging.initLogging
  cases dest with
  | stdio =>
    simp only
    split_ifs
    · have out := settled_stdout init empty
      exact ⟨⟨out.parties, out.held, out.linked⟩, Iff.rfl⟩
    · exact ⟨init, Iff.rfl⟩
  | dir fails =>
    simp only
    split_ifs with unset
    · exact kept_setLogdir init empty unset.1 fails
    · exact ⟨init, Iff.rfl⟩
  | ustrings fails =>
    obtain ⟨left, rfl, held⟩ := (createLogctxUstrings_holds fails).adds init.held
    have null_ : (s.initPrivateLogctx t).lfile t = .null := by
      rw [Logging.lfile, empty]
      rfl
    simp only [null_]
    refine ⟨settled_become init empty ?_, Iff.rfl⟩
    change Held (((_ ++ [] : List Thing) : Multiset Thing) + _) _
    rw [List.append_nil]
    exact held

theorem kept_startThread (h : Settled s) (name : Bool) (fails : OpenStep → Bool) :
    Settled (s.startThread t name fails) ∧
      (InReach (s.startThread t name fails) ↔ InReach s ∧ (s.logctx t).things = []) := by
  have init := settled_init (t := t) h
  have empty : (s.initPrivateLogctx t).logctx t = .cleared := logctx_init
  rw [← inReach_init, Logging.startThread]
  simp only
  split_ifs
  · exact ⟨settled_stdout init empty, Iff.rfl⟩
  · exact ⟨init, Iff.rfl⟩
  · obtain ⟨left, rfl, held⟩ := (openThreadLog_holds name fails).adds init.held
    exact ⟨settled_point init empty held, Iff.rfl⟩

theorem kept_freeLogctx (h : Settled s) :
    Settled (s.freeLogctx t) ∧ (InReach (s.freeLogctx t) ↔ InReach s) := by
  refine ⟨⟨parties_put h.parties, ?_, h.linked⟩, Iff.rfl⟩
  change Held (s.become t .cleared).live _
  rw [live_become]
  exact held_releaseAll _ ((live_split h.parties t).trans (by exact congrArg _ (zero_add _).symm)) _ h.held

theorem kept_endThread (h : Settled s) (ends : (s.logctx t).things = []) :
    Settled { s with contexts := s.contexts.filter fun p => p.1 ≠ t } := by
  refine ⟨parties_others h.parties, ?_, h.linked⟩
  change Held (s.away t) s.ledger
  have held := h.held
  rwa [live_split h.parties t, ends, Multiset.coe_nil, zero_add] at held

theorem kept_writeFails (h : Settled s) :
    Settled ((s.point t .null).abandon (s.lfile t).streams) ∧
      (InReach ((s.point t .null).abandon (s.lfile t).streams) ↔ InReach s ∧ (s.lfile t).streams = []) := by
  have same : ((s.point t .null).abandon (s.lfile t).streams).live = s.live := by
    rw [live_abandon, live_point, live_lfile h.parties t]
    exact congrArg _ (zero_add _)
  refine ⟨⟨parties_put h.parties, by rw [same]; exact h.held, h.linked⟩, ?_⟩
  change (s.lfile t).streams ++ s.abandoned = [] ∧ _ ↔ _
  rw [List.append_eq_nil_iff, InReach]
  tauto

theorem live_avail {a : Thing} (avail : s.availCrashLog = some a) :
    s.live = {a} + ({ s with availCrashLog := none } : Logging).live := by
  rw [Logging.live, Logging.live, avail]
  change ↑s.logdir.toList + {a} + _ + _ = ({a} : Multiset Thing) + (↑s.logdir.toList + 0 + _ + _)
  abel

theorem kept_claim (h : Settled s) (before : s.logctx t = .cleared) {a c : Thing}
    (avail : s.availCrashLog = some a) (crash : s.crashLog = some c) :
    Settled (Logging.point { s with availCrashLog := none } t (.stream c)) ∧
      (InReach (Logging.point { s with availCrashLog := none } t (.stream c)) ↔ InReach s) := by
  obtain rfl := h.linked c crash a avail
  refine ⟨⟨parties_put h.parties, ?_, fun _ _ _ none_ => nomatch none_⟩, ?_⟩
  · have held := h.held
    have none_ : Logging.logctx { s with availCrashLog := none } t = .cleared := before
    rw [live_avail avail, @live_split { s with availCrashLog := none } h.parties t, none_] at held
    change Held (Logging.live _) s.ledger
    rw [live_point, none_]
    exact held
  · change s.abandoned = [] ∧ (s.crashLog = none → _) ↔ s.abandoned = [] ∧ (s.crashLog = none → _)
    simp [crash]

theorem kept_strand (h : Settled s) {a : Thing} (avail : s.availCrashLog = some a) (crash : s.crashLog = none) :
    Settled (Logging.abandon { s with availCrashLog := none } [a]) ∧
      (InReach (Logging.abandon { s with availCrashLog := none } [a]) ↔ InReach s) := by
  refine ⟨⟨h.parties, ?_, fun _ _ _ none_ => nomatch none_⟩, ?_⟩
  · change Held (Logging.live _) s.ledger
    rw [live_abandon]
    exact live_avail avail ▸ h.held
  · refine iff_of_false (fun reach => List.cons_ne_nil _ _ reach.1) fun reach => ?_
    exact Option.some_ne_none a (avail.symm.trans (reach.2 crash))

theorem kept_logCrash (h : Settled s) :
    Settled (s.logCrash t) ∧ (InReach (s.logCrash t) ↔
      InReach s ∧ (s.availCrashLog.isSome ∨ s.useStdio = true → (s.logctx t).things = [])) := by
  have init := settled_init (t := t) h
  have empty : (s.initPrivateLogctx t).logctx t = .cleared := logctx_init
  rw [Logging.logCrash]
  cases avail : s.availCrashLog with
  | none =>
    simp only
    split_ifs with stdio
    · refine ⟨settled_stdout init empty, ?_⟩
      simp only [stdio, or_true, true_imp_iff]
      exact inReach_init
    · refine ⟨h, ?_⟩
      simp [stdio]
  | some a =>
    have always (p : Prop) : ((some a).isSome = true ∨ s.useStdio = true → p) ↔ p :=
      imp_iff_right (Or.inl rfl)
    rw [always, ← inReach_init]
    simp only
    split
    · rename_i crash
      exact kept_claim init empty avail crash
    · rename_i crash
      exact kept_strand init avail crash

def Logging.done (s : Logging) (t : ℕ) : Logging :=
  let s := { s with crashLog := none }
  let s := if (s.contexts.lookup t).isSome then s.freeLogctx t else s
  { s with logdir := none, ledger := (releaseAll s.logdir.toList s.ledger).2 }

theorem kept_done (h : Settled s) :
    Settled (s.done t) ∧ (InReach (s.done t) ↔ s.abandoned = [] ∧ s.availCrashLog = none) := by
  have closed : Settled { s with crashLog := none } := ⟨h.parties, h.held, fun _ none_ => nomatch none_⟩
  have unset {s : Logging} (h : Settled s) :
      Settled { s with logdir := none, ledger := (releaseAll s.logdir.toList s.ledger).2 } := by
    refine ⟨h.parties, held_releaseAll _ ?_ _ h.held, h.linked⟩
    simp only [Logging.live, Option.toList_none, Multiset.coe_nil]
    abel
  have reach (s : Logging) (none_ : s.crashLog = none) :
      InReach s ↔ s.abandoned = [] ∧ s.availCrashLog = none := by rw [InReach, none_, imp_iff_right rfl]
  rw [Logging.done]
  simp only
  split_ifs
  · exact ⟨unset (kept_freeLogctx closed).1, reach _ rfl⟩
  · exact ⟨unset closed, reach _ rfl⟩

theorem kept_stopLogging (h : Settled s) (fileno : Bool) :
    Settled (s.stopLogging t fileno) ∧ (InReach (s.stopLogging t fileno) ↔ InReach s ∧
      Tidy s (.stopLogging t true fileno)) := by
  change Settled ((s.truncateCrashLog t fileno).done t) ∧ (InReach ((s.truncateCrashLog t fileno).done t) ↔ _)
  rw [Tidy, imp_iff_right rfl, Logging.truncateCrashLog]
  cases found : s.contexts.lookup t with
  | none =>
    have own : s.lfile t = .null := by rw [Logging.lfile, Logging.logctx, found]; rfl
    refine ⟨(kept_done h).1, (kept_done h).2.trans ?_⟩
    simp [InReach, own]
    tauto
  | some lc =>
    have own : s.lfile t = lc.lfile := by rw [Logging.lfile, Logging.logctx, found]; rfl
    cases crash : s.crashLog with
    | none =>
      refine ⟨(kept_done h).1, (kept_done h).2.trans ?_⟩
      rw [InReach, crash]
      simp
      tauto
    | some c =>
      simp only
      split_ifs with avail other fileno_
      · obtain ⟨a, avail⟩ := Option.isSome_iff_exists.mp avail
        obtain rfl := h.linked c crash a avail
        have closed : Settled { s with availCrashLog := none, ledger := (release a s.ledger).2 } :=
          ⟨h.parties, held_release (live_avail avail) _ h.held, fun _ _ _ none_ => nomatch none_⟩
        refine ⟨(kept_done closed).1, (kept_done closed).2.trans ?_⟩
        simp [InReach, crash, avail]
      · refine ⟨(kept_done h).1, (kept_done h).2.trans ?_⟩
        have none_ : s.availCrashLog = none := Option.not_isSome_iff_eq_none.mp avail
        simp [InReach, crash, none_, own, other]
      · rw [not_not.mp other] at own
        have left := (@kept_writeFails s t h).1
        rw [own, Lfile.streams] at left
        refine ⟨(kept_done left).1, (kept_done left).2.trans ?_⟩
        have none_ : s.availCrashLog = none := Option.not_isSome_iff_eq_none.mp avail
        simp [InReach, Logging.abandon, crash, none_, fileno_, own]
      · refine ⟨(kept_done h).1, (kept_done h).2.trans ?_⟩
        have none_ : s.availCrashLog = none := Option.not_isSome_iff_eq_none.mp avail
        simp [InReach, crash, none_, fileno_]

theorem kept_step {a : Call} {s' : Logging} (h : Settled s) (next : s.step a = some s') :
    Settled s' ∧ (InReach s' ↔ InReach s ∧ Tidy s a) := by
  cases a with
  | initLogging t dest =>
    obtain rfl := Option.some.inj next
    exact kept_initLogging h dest
  | startThread t name fails =>
    obtain rfl := Option.some.inj next
    exact kept_startThread h name fails
  | endThread t =>
    rw [Logging.step] at next
    split_ifs at next
    obtain rfl := Option.some.inj next
    have freed := kept_freeLogctx (t := t) h
    have none_ : ((s.freeLogctx t).logctx t).things = [] :=
      congrArg Logctx.things (@logctx_become s t .cleared)
    exact ⟨kept_endThread freed.1 none_, freed.2.trans (and_iff_left trivial).symm⟩
  | writeFails t =>
    rw [Logging.step] at next
    split_ifs at next
    obtain rfl := Option.some.inj next
    exact kept_writeFails h
  | logCrash t locked =>
    obtain rfl := Option.some.inj next
    cases locked with
    | false => exact ⟨h, (and_iff_left fun locked => nomatch locked).symm⟩
    | true => exact ⟨(kept_logCrash h).1, (kept_logCrash h).2.trans (by rw [Tidy, imp_iff_right rfl])⟩
  | stopLogging t locked fileno =>
    obtain rfl := Option.some.inj next
    cases locked with
    | false => exact ⟨h, (and_iff_left fun locked => nomatch locked).symm⟩
    | true => exact kept_stopLogging h fileno

end Kept

def crashRun : List Call :=
  [.initLogging 0 (.dir fun _ => false), .startThread 1 false fun _ => false, .writeFails 1,
    .logCrash 1 true, .endThread 0, .stopLogging 1 true true, .endThread 1]

end Libdank.LogDir
