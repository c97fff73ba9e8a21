import Libdank.Foundation.Holdings
import Libdank.Foundation.Transitions

/-! The sockets that `utils/netio.c` and `utils/localsock.c` make. Any step may fail; `fails` tells
which of them do in a call. -/
namespace Libdank.Sockets
open Requests Holdings Transitions

abbrev Descriptor := Item Unit

inductive Step where
  | socket | nonblocking | linger | reuseaddr | rcvbuf | sndbuf | v6only | bind | listen
  /-- The path is too long for `sun_path`. -/
  | tooLong
  | connect | unlink | accept
deriving DecidableEq, Repr

section Calls
variable (fails : Step → Bool)

def socket : Holder Unit (Option Descriptor) := do
  if fails .socket then pure none
  else
    let sd ← take ()
    pure (some sd)

def makeTcpSocket : Holder Unit (Option Descriptor) := socket fails

def giveUp (sd : Descriptor) : Holder Unit (Option Descriptor) := do
  release sd
  pure none

def makeNblockTcpSocket : Holder Unit (Option Descriptor) := do
  match ← makeTcpSocket fails with
  | none => pure none
  | some sd => if fails .nonblocking then giveUp sd else pure (some sd)

def makeNlingerTcpSocket : Holder Unit (Option Descriptor) := do
  match ← makeTcpSocket fails with
  | none => pure none
  | some sd => if fails .linger then giveUp sd else pure (some sd)

def makeNblockNlingerTcpSocket : Holder Unit (Option Descriptor) := do
  match ← makeNblockTcpSocket fails with
  | none => pure none
  | some sd => if fails .linger then giveUp sd else pure (some sd)

/-- `inet6` is whether the address is of the family `AF_INET6`. -/
def makeListener (inet6 : Bool) (bufsz : ℤ) : Holder Unit (Option Descriptor) := do
  match ← makeTcpSocket fails with
  | none => pure none
  | some sd =>
    if fails .reuseaddr then giveUp sd
    else if bufsz ≠ 0 ∧ (fails .rcvbuf ∨ fails .sndbuf) then pure none
    else if inet6 ∧ fails .v6only then giveUp sd
    else if fails .bind then giveUp sd
    else if fails .listen then giveUp sd
    else pure (some sd)

def makeListeningSd (inet6 : Bool) (port : UInt32) (bufsz : ℤ) : Holder Unit (Option Descriptor) := do
  if 65535 < port then pure none else makeListener fails inet6 bufsz

def connectLocal : Holder Unit (Option Descriptor) := do
  match ← socket fails with
  | none => pure none
  | some sd =>
    if fails .tooLong then giveUp sd
    else if fails .connect then giveUp sd
    else pure (some sd)

def listenLocalCommon (sd : Descriptor) : Holder Unit Bool := do
  if fails .unlink then pure false
  else if fails .tooLong then
    release sd
    pure false
  else pure (!fails .bind)

def listenLocal : Holder Unit (Option Descriptor) := do
  match ← socket fails with
  | none => pure none
  | some sd =>
    match ← listenLocalCommon fails sd with
    | false => giveUp sd
    | true => if fails .listen then giveUp sd else pure (some sd)

def listenLocalDgram : Holder Unit (Option Descriptor) := do
  match ← socket fails with
  | none => pure none
  | some sd =>
    match ← listenLocalCommon fails sd with
    | false => giveUp sd
    | true => pure (some sd)

def acceptLocal : Holder Unit (Option Descriptor) := do
  if fails .accept then pure none
  else
    let sd ← take ()
    pure (some sd)

end Calls

inductive Call where
  | nblockTcp | nlingerTcp | nblockNlingerTcp
  | listener (inet6 : Bool) (bufsz : ℤ)
  | listeningSd (inet6 : Bool) (port : UInt32) (bufsz : ℤ)
  | connectLocal | listenLocal | listenLocalDgram | acceptLocal
deriving DecidableEq, Repr

def Call.make (fails : Step → Bool) : Call → Holder Unit (Option Descriptor)
  | nblockTcp => makeNblockTcpSocket fails
  | nlingerTcp => makeNlingerTcpSocket fails
  | nblockNlingerTcp => makeNblockNlingerTcpSocket fails
  | listener inet6 bufsz => makeListener fails inet6 bufsz
  | listeningSd inet6 port bufsz => makeListeningSd fails inet6 port bufsz
  | connectLocal => Sockets.connectLocal fails
  | listenLocal => Sockets.listenLocal fails
  | listenLocalDgram => Sockets.listenLocalDgram fails
  | acceptLocal => Sockets.acceptLocal fails

/-- The program's sockets: those it has been given and has not closed. -/
structure Program where
  ledger : Ledger Unit
  owned : List Descriptor
deriving DecidableEq, Repr

def Program.fresh : Program := ⟨.empty, []⟩

inductive Action where
  | make (c : Call) (fails : Step → Bool)
  | close (sd : Descriptor)

def Program.make (s : Program) (c : Call) (fails : Step → Bool) : Program :=
  ⟨(c.make fails s.ledger).2, (c.make fails s.ledger).1.toList ++ s.owned⟩

def Program.step (s : Program) : Action → Option Program
  | .make c fails => some (s.make c fails)
  | .close sd =>
    if sd ∈ s.owned then some ⟨(release sd s.ledger).2, s.owned.erase sd⟩ else none

/-- `make_listener` cannot set the size of a buffer: the socket stays open. -/
def Leaves (fails : Step → Bool) (bufsz : ℤ) : Prop :=
  fails .socket = false ∧ fails .reuseaddr = false ∧ bufsz ≠ 0 ∧ (fails .rcvbuf = true ∨ fails .sndbuf = true)

/-- A path is found to be too long after it has been unlinked: the socket is closed twice. -/
def Repeats (fails : Step → Bool) : Prop :=
  fails .socket = false ∧ fails .unlink = false ∧ fails .tooLong = true

def Tidy : Call → (Step → Bool) → Prop
  | .listener _ bufsz, fails => ¬ Leaves fails bufsz
  | .listeningSd _ port bufsz, fails => 65535 < port ∨ ¬ Leaves fails bufsz
  | .listenLocal, fails => ¬ Repeats fails
  | .listenLocalDgram, fails => ¬ Repeats fails
  | _, _ => True

section Outcomes

variable {l : Ledger Unit} {tidy : Prop} {fails : Step → Bool}

def fresh (l : Ledger Unit) : Descriptor := ⟨(), l.given.length⟩

def closed (l : Ledger Unit) (times : ℕ) : Ledger Unit :=
  ⟨fresh l :: l.given, List.replicate times (fresh l) ++ l.released⟩

/-- What a call with a new descriptor comes to: it is returned, or it is closed, once if `tidy`. -/
def Finishes (l : Ledger Unit) (tidy : Prop) (m : Holder Unit (Option Descriptor)) : Prop :=
  m (closed l 0) = (some (fresh l), closed l 0) ∧ tidy ∨ ∃ k, m (closed l 0) = (none, closed l k) ∧ (tidy ↔ k = 1)

def Outcome (l : Ledger Unit) (tidy : Prop) (m : Holder Unit (Option Descriptor)) : Prop :=
  m l = (none, l) ∧ tidy ∨ m l = (some (fresh l), closed l 0) ∧ tidy ∨ ∃ k, m l = (none, closed l k) ∧ (tidy ↔ k = 1)

theorem finishes_keep (now : tidy) : Finishes l tidy (pure (some (fresh l))) := .inl ⟨rfl, now⟩

theorem finishes_giveUp (now : tidy) : Finishes l tidy (giveUp (fresh l)) := .inr ⟨1, rfl, iff_of_true now rfl⟩

theorem finishes_leave (leaks : ¬ tidy) : Finishes l tidy (pure none) :=
  .inr ⟨0, rfl, iff_of_false leaks Nat.zero_ne_one⟩

theorem finishes_ite {c : Prop} [Decidable c] {m n : Holder Unit (Option Descriptor)}
    (yes : c → Finishes l tidy m) (no : ¬ c → Finishes l tidy n) : Finishes l tidy (if c then m else n) := by
  split_ifs with h
  · exact yes h
  · exact no h

theorem outcome_socket {f : Option Descriptor → Holder Unit (Option Descriptor)} (none_ : f none = pure none)
    (failed : fails .socket = true → tidy)
    (rest : fails .socket = false → Finishes l tidy (f (some (fresh l)))) :
    Outcome l tidy (socket fails >>= f) := by
  cases opens : fails .socket with
  | true =>
    have nothing : (socket fails >>= f) l = f none l := by rw [bind_apply, socket, opens]; rfl
    exact .inl ⟨by rw [nothing, none_]; rfl, failed opens⟩
  | false =>
    have first : (socket fails >>= f) l = f (some (fresh l)) (closed l 0) := by
      rw [bind_apply, socket, opens]
      rfl
    rcases rest opens with ⟨same, now⟩ | ⟨k, same, now⟩
    · exact .inr (.inl ⟨first.trans same, now⟩)
    · exact .inr (.inr ⟨k, first.trans same, now⟩)

theorem outcome_listener (inet6 : Bool) (bufsz : ℤ) :
    Outcome l (¬ Leaves fails bufsz) (makeListener fails inet6 bufsz) := by
  refine outcome_socket rfl (fun failed leaves => nomatch leaves.1.symm.trans failed) fun opens => ?_
  refine finishes_ite (fun reuse => finishes_giveUp fun leaves => nomatch leaves.2.1.symm.trans reuse) fun reuse => ?_
  refine finishes_ite (fun buffers => finishes_leave fun tidy => ?_) fun buffers => ?_
  · exact tidy ⟨opens, Bool.eq_false_iff.mpr reuse, buffers.1, buffers.2⟩
  have tidy : ¬ Leaves fails bufsz := fun leaves => buffers leaves.2.2
  refine finishes_ite (fun _ => finishes_giveUp tidy) fun _ => ?_
  refine finishes_ite (fun _ => finishes_giveUp tidy) fun _ => ?_
  exact finishes_ite (fun _ => finishes_giveUp tidy) fun _ => finishes_keep tidy

theorem finishes_listenLocalCommon {f : Bool → Holder Unit (Option Descriptor)} (opens : fails .socket = false)
    (no : f false = giveUp (fresh l)) (yes : ¬ Repeats fails → Finishes l (¬ Repeats fails) (f true)) :
    Finishes l (¬ Repeats fails) (listenLocalCommon fails (fresh l) >>= f) := by
  rw [Finishes, bind_apply, listenLocalCommon]
  cases unlink : fails .unlink with
  | true =>
    have tidy : ¬ Repeats fails := fun repeats => nomatch repeats.2.1.symm.trans unlink
    refine .inr ⟨1, ?_, iff_of_true tidy rfl⟩
    change f false (closed l 0) = _
    rw [no]
    rfl
  | false =>
    cases long : fails .tooLong with
    | true =>
      refine .inr ⟨2, ?_, iff_of_false (fun tidy => tidy ⟨opens, unlink, long⟩) (by decide)⟩
      change f false (closed l 1) = _
      rw [no]
      rfl
    | false =>
      have tidy : ¬ Repeats fails := fun repeats => nomatch long.symm.trans repeats.2.2
      cases bound : fails .bind with
      | true =>
        refine .inr ⟨1, ?_, iff_of_true tidy rfl⟩
        change f false (closed l 0) = _
        rw [no]
        rfl
      | false => exact yes tidy

theorem outcome_make (c : Call) (fails : Step → Bool) (l : Ledger Unit) :
    Outcome l (Tidy c fails) (c.make fails) := by
  cases c with
  | nblockTcp =>
    refine outcome_socket rfl (fun _ => trivial) fun _ => ?_
    exact finishes_ite (fun _ => finishes_giveUp trivial) fun _ => finishes_keep trivial
  | nlingerTcp =>
    refine outcome_socket rfl (fun _ => trivial) fun _ => ?_
    exact finishes_ite (fun _ => finishes_giveUp trivial) fun _ => finishes_keep trivial
  | nblockNlingerTcp =>
    have assoc : Call.nblockNlingerTcp.make fails = socket fails >>= fun r =>
        ((match r with
          | none => pure none
          | some sd => if fails .nonblocking then giveUp sd else pure (some sd)) >>= fun r =>
          match r with
          | none => pure none
          | some sd => if fails .linger then giveUp sd else pure (some sd)) := bind_assoc _ _ _
    rw [assoc]
    refine outcome_socket rfl (fun _ => trivial) fun _ => ?_
    cases fails .nonblocking
    · exact finishes_ite (fun _ => finishes_giveUp trivial) fun _ => finishes_keep trivial
    · exact .inr ⟨1, rfl, iff_of_true trivial rfl⟩
  | listener inet6 bufsz => exact outcome_listener inet6 bufsz
  | listeningSd inet6 port bufsz =>
    simp only [Call.make, makeListeningSd, Tidy]
    split_ifs with high
    · exact .inl ⟨rfl, .inl high⟩
    · simp only [high, false_or]
      exact outcome_listener inet6 bufsz
  | connectLocal =>
    refine outcome_socket rfl (fun _ => trivial) fun _ => ?_
    refine finishes_ite (fun _ => finishes_giveUp trivial) fun _ => ?_
    exact finishes_ite (fun _ => finishes_giveUp trivial) fun _ => finishes_keep trivial
  | listenLocal =>
    refine outcome_socket rfl (fun failed repeats => nomatch repeats.1.symm.trans failed) fun opens => ?_
    refine finishes_listenLocalCommon opens rfl fun tidy => ?_
    exact finishes_ite (fun _ => finishes_giveUp tidy) fun _ => finishes_keep tidy
  | listenLocalDgram =>
    refine outcome_socket rfl (fun failed repeats => nomatch repeats.1.symm.trans failed) fun opens => ?_
    exact finishes_listenLocalCommon opens rfl finishes_keep
  | acceptLocal =>
    change Outcome l True (Sockets.acceptLocal fails)
    rw [Outcome, Sockets.acceptLocal]
    cases fails .accept
    · exact .inr (.inl ⟨rfl, trivial⟩)
    · exact .inl ⟨rfl, trivial⟩

end Outcomes

section Runs

variable {s s' : Program}

structure Sound (s : Program) : Prop where
  numbered : ∀ d ∈ s.ledger.given, d.number < s.ledger.given.length
  released : ∀ d ∈ s.ledger.released, d ∈ s.ledger.given
  owned : ∀ d ∈ s.owned, d ∈ s.ledger.given
  nodup : s.owned.Nodup

/-- Each descriptor has been closed once, but for those that the program has. -/
def Settled (s : Program) : Prop :=
  ∀ d ∈ s.ledger.given, s.ledger.released.count d = if d ∈ s.owned then 0 else 1

def TidyAction : Action → Prop
  | .make c fails => Tidy c fails
  | .close _ => True

theorem fresh_not_mem (h : Sound s) : fresh s.ledger ∉ s.ledger.given :=
  fun mem => absurd (h.numbered _ mem) (Nat.lt_irrefl _)

theorem settled_new (h : Sound s) (times : ℕ) {has : List Descriptor} (new : has = [] ∨ has = [fresh s.ledger]) :
    Sound ⟨closed s.ledger times, has ++ s.owned⟩ ∧
      (Settled ⟨closed s.ledger times, has ++ s.owned⟩ ↔
        Settled s ∧ times = if fresh s.ledger ∈ has then 0 else 1) := by
  have unknown := fresh_not_mem h
  have unowned : fresh s.ledger ∉ s.owned := fun mem => unknown (h.owned _ mem)
  have only (d : Descriptor) (mem : d ∈ has) : d = fresh s.ledger := by
    rcases new with rfl | rfl
    · cases mem
    · exact List.mem_singleton.mp mem
  refine ⟨⟨fun d mem => ?_, fun d mem => ?_, fun d mem => ?_, ?_⟩, ?_⟩
  · change d.number < s.ledger.given.length + 1
    rcases List.mem_cons.mp mem with rfl | mem
    · exact Nat.lt_succ_self _
    · exact Nat.lt_succ_of_lt (h.numbered d mem)
  · rcases List.mem_append.mp mem with mem | mem
    · exact List.mem_cons.mpr (.inl (List.eq_of_mem_replicate mem))
    · exact List.mem_cons_of_mem _ (h.released d mem)
  · rcases List.mem_append.mp mem with mem | mem
    · exact List.mem_cons.mpr (.inl (only d mem))
    · exact List.mem_cons_of_mem _ (h.owned d mem)
  · refine List.nodup_append.mpr ⟨?_, h.nodup, fun d here d' there same => ?_⟩
    · rcases new with rfl | rfl
      · exact List.nodup_nil
      · exact List.nodup_singleton _
    · exact unowned (only d here ▸ same ▸ there)
  · rw [Settled, closed, List.forall_mem_cons, and_comm]
    refine and_congr (forall₂_congr fun d mem => ?_) ?_
    · have apart : d ≠ fresh s.ledger := fun same => unknown (same ▸ mem)
      have old : d ∉ has := fun mem => apart (only d mem)
      rw [List.count_append, List.count_replicate, beq_eq_false_iff_ne.mpr apart.symm]
      simp [old]
    · rw [List.count_append, List.count_replicate_self,
        List.count_eq_zero_of_not_mem fun mem => unknown (h.released _ mem)]
      simp [unowned]

theorem kept_step {a : Action} (h : Sound s) (next : s.step a = some s') :
    Sound s' ∧ (Settled s' ↔ Settled s ∧ TidyAction a) := by
  cases a with
  | make c fails =>
    obtain rfl := Option.some.inj next
    rw [Program.make, TidyAction]
    rcases outcome_make c fails s.ledger with ⟨same, tidy⟩ | ⟨same, tidy⟩ | ⟨k, same, tidy⟩
    · rw [same]
      exact ⟨h, (and_iff_left tidy).symm⟩
    · rw [same]
      have new := settled_new h 0 (.inr rfl)
      rw [if_pos (List.mem_singleton_self _), eq_self, and_true] at new
      exact ⟨new.1, new.2.trans (and_iff_left tidy).symm⟩
    · rw [same, tidy]
      have new := settled_new h k (.inl rfl)
      rwa [if_neg List.not_mem_nil] at new
  | close sd =>
    rw [Program.step] at next
    split_ifs at next with mine
    obtain rfl := Option.some.inj next
    refine ⟨⟨h.numbered, fun d mem => ?_, fun d mem => h.owned d (List.mem_of_mem_erase mem), h.nodup.erase sd⟩, ?_⟩
    · rcases List.mem_cons.mp mem with rfl | mem
      · exact h.owned d mine
      · exact h.released d mem
    · rw [TidyAction, and_true]
      refine forall₂_congr fun d _ => ?_
      change (sd :: s.ledger.released).count d = _ ↔ _
      rw [List.count_cons]
      by_cases here : d = sd
      · subst here
        simp [mine, h.nodup.mem_erase_iff]
      · simp [here, Ne.symm here, h.nodup.mem_erase_iff]

theorem sound_fresh : Sound .fresh := ⟨nofun, nofun, nofun, List.nodup_nil⟩

end Runs

/-- In every run, whatever calls are made and whatever of them fails, each socket that was opened is
closed once, unless the program has it, just when no `make_listener` failed to set the size of a
buffer and no listening path was found to be too long after it had been unlinked. -/
theorem sockets_settled_iff {actions : List Action} {s : Program}
    (ran : run Program.step .fresh actions = some s) :
    (∀ d ∈ s.ledger.given, s.ledger.released.count d = if d ∈ s.owned then 0 else 1) ↔
      ∀ a ∈ actions, TidyAction a := by
  have start : Settled .fresh := nofun
  have tidy := run_good_iff (fun _ _ _ h next => kept_step h next) sound_fresh ran
  exact tidy.trans ((and_iff_right start).trans (along_iff_forall ran))

def localRun : List Action :=
  [.make .listenLocal fun _ => false, .make .listenLocalDgram fun step => step = .tooLong, .close ⟨(), 0⟩]

theorem sockets_settled_iff_local : ∃ s, run Program.step .fresh localRun = some s ∧
    s.ledger.released = [⟨(), 0⟩, ⟨(), 1⟩, ⟨(), 1⟩] ∧ ¬ ∀ a ∈ localRun, TidyAction a := by
  have ran : run Program.step .fresh localRun = some ⟨⟨[⟨(), 1⟩, ⟨(), 0⟩], [⟨(), 0⟩, ⟨(), 1⟩, ⟨(), 1⟩]⟩, []⟩ := rfl
  refine ⟨_, ran, rfl, fun tidy => ?_⟩
  exact absurd ((sockets_settled_iff ran).mpr tidy) (by decide)

end Libdank.Sockets
