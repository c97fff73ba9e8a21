import Mathlib.Data.List.Basic
import Mathlib.Tactic

/-! The reader of a signalfd, after `modules/events/signals.c`. The descriptor is registered
edge-triggered: what is left unread is not reported again. -/
namespace Libdank.Signals

inductive Errno where
  | eintr | eagain | other (code : ℕ)
deriving DecidableEq, Repr

/-- What a call of `read` comes to, with the errno that the handler leaves behind, or the
message about a short read, if they set one: a read that succeeds sets none. -/
inductive ReadResult where
  | record (signo : ℕ) (left : Option Errno)
  | short (bytes : ℕ) (left : Option Errno)
  | error (e : Errno)
deriving DecidableEq, Repr

/-- The signals given to `handle_evsource_read`, `errno` in the end, and what was not read. -/
@[ext] structure Demultiplexed where
  handled : List ℕ
  errno : Errno
  unread : List ReadResult
deriving DecidableEq, Repr

/-- `while(r >= 0 && errno != EINTR)` -/
def signalfdDemultiplexer (errno : Errno) : List ReadResult → Demultiplexed
  | [] => ⟨[], errno, []⟩
  | .record signo left :: results =>
    if left.getD errno ≠ .eintr then
      let d := signalfdDemultiplexer (left.getD errno) results
      { d with handled := signo :: d.handled }
    else ⟨[signo], .eintr, results⟩
  | .short _ left :: results =>
    if left.getD errno ≠ .eintr then signalfdDemultiplexer (left.getD errno) results
    else ⟨[], .eintr, results⟩
  | .error e :: results => ⟨[], e, results⟩

structure Reads where
  results : List ReadResult
  last : Errno
  interrupted : ∀ e, .error e ∈ results → e = .eintr
  ended : last ≠ .eintr

def Reads.all (reads : Reads) : List ReadResult := reads.results ++ [.error reads.last]

def ReadResult.signal : ReadResult → Option ℕ
  | .record signo _ => some signo
  | _ => none

/-- Each signal has been handled once, in order, and nothing is left to be read. -/
def Drains (errno : Errno) (reads : Reads) : Prop :=
  signalfdDemultiplexer errno reads.all = ⟨reads.results.filterMap ReadResult.signal, reads.last, []⟩

def ReadResult.Clean : ReadResult → Prop
  | .record _ left => left ≠ some .eintr
  | .short _ left => left ≠ some .eintr
  | .error _ => False

def ReadResult.Keeps : ReadResult → Prop
  | .record _ left => left = none
  | .short _ left => left = none
  | .error _ => False

instance : DecidablePred ReadResult.Clean
  | .record _ left => inferInstanceAs (Decidable (left ≠ some .eintr))
  | .short _ left => inferInstanceAs (Decidable (left ≠ some .eintr))
  | .error _ => inferInstanceAs (Decidable False)

instance : DecidablePred ReadResult.Keeps
  | .record _ left => inferInstanceAs (Decidable (left = none))
  | .short _ left => inferInstanceAs (Decidable (left = none))
  | .error _ => inferInstanceAs (Decidable False)

/-- No read is interrupted, no handler leaves EINTR behind, and an EINTR of before the call is
not still there after the first read. -/
def Uninterrupted (errno : Errno) (results : List ReadResult) : Prop :=
  (∀ r ∈ results, r.Clean) ∧ (errno = .eintr → ∀ r ∈ results.head?, ¬ r.Keeps)

theorem uninterrupted_nil (errno : Errno) : Uninterrupted errno [] :=
  ⟨fun _ none_ => absurd none_ List.not_mem_nil, fun _ r first => by cases first⟩

theorem uninterrupted_cons {errno : Errno} {r : ReadResult} {left : Option Errno}
    (clean : r.Clean ↔ left ≠ some .eintr) (keeps : r.Keeps ↔ left = none) (results : List ReadResult) :
    Uninterrupted errno (r :: results) ↔
      left.getD errno ≠ .eintr ∧ Uninterrupted (left.getD errno) results := by
  simp only [Uninterrupted, List.forall_mem_cons, clean, List.head?_cons, Option.mem_some_iff]
  cases left with
  | none =>
    simp only [Option.getD_none]
    constructor
    · rintro ⟨⟨-, later⟩, fresh⟩
      have other : errno ≠ .eintr := fun same => fresh same r rfl (keeps.mpr rfl)
      exact ⟨other, later, fun same => absurd same other⟩
    · rintro ⟨other, later, -⟩
      exact ⟨⟨nofun, later⟩, fun same => absurd same other⟩
  | some e =>
    simp only [Option.getD_some]
    constructor
    · rintro ⟨⟨here, later⟩, -⟩
      have other : e ≠ .eintr := fun same => here (congrArg some same)
      exact ⟨other, later, fun same => absurd same other⟩
    · rintro ⟨other, later, -⟩
      exact ⟨⟨fun same => other (Option.some.inj same), later⟩, fun _ r' same kept => by
        obtain rfl := same
        cases keeps.mp kept⟩

theorem unread_ne {handled : List ℕ} {e : Errno} {results : List ReadResult} {last : Errno}
    {d : Demultiplexed} (nothing : d.unread = []) : (⟨handled, e, results ++ [.error last]⟩ : Demultiplexed) ≠ d := by
  rintro rfl
  exact List.append_ne_nil_of_right_ne_nil _ (List.cons_ne_nil _ _) nothing

theorem demultiplexer_iff (errno : Errno) (results : List ReadResult) (last : Errno) :
    signalfdDemultiplexer errno (results ++ [.error last]) =
      ⟨results.filterMap ReadResult.signal, last, []⟩ ↔ Uninterrupted errno results := by
  induction results generalizing errno with
  | nil => exact iff_of_true rfl (uninterrupted_nil errno)
  | cons r rest ih =>
    cases r with
    | record signo left =>
      rw [uninterrupted_cons Iff.rfl Iff.rfl, List.cons_append, signalfdDemultiplexer]
      by_cases goes : left.getD errno ≠ .eintr
      · rw [if_pos goes, and_iff_right goes, ← ih]
        simp [ReadResult.signal, Demultiplexed.ext_iff]
      · rw [if_neg goes]
        exact iff_of_false (unread_ne rfl) fun h => goes h.1
    | short bytes left =>
      rw [uninterrupted_cons Iff.rfl Iff.rfl, List.cons_append, signalfdDemultiplexer]
      by_cases goes : left.getD errno ≠ .eintr
      · rw [if_pos goes, and_iff_right goes, ← ih]
        rfl
      · rw [if_neg goes]
        exact iff_of_false (unread_ne rfl) fun h => goes h.1
    | error e => exact iff_of_false (unread_ne rfl) fun h => h.1 _ List.mem_cons_self

/-- Everything is read and handled just when nothing of EINTR comes in between. -/
theorem drains_iff (errno : Errno) (reads : Reads) :
    Drains errno reads ↔ Uninterrupted errno reads.results :=
  demultiplexer_iff errno reads.results reads.last

def interruptedReads : Reads where
  results := [.error .eintr, .record 15 none]
  last := .eagain
  interrupted := by simp
  ended := by decide

def twoSignals : Reads where
  results := [.record 15 none, .record 1 none]
  last := .eagain
  interrupted := by simp
  ended := by decide

/-- An interrupted read ends the loop, and so does an errno that is still EINTR from before. -/
theorem interrupted_leaves_signal :
    ¬ Drains (.other 0) interruptedReads ∧ ¬ Drains .eintr twoSignals := by
  unfold Drains
  decide

end Libdank.Signals
