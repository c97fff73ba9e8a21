import Libdank.LogListener.Messages

/-! What is in a thread's log. The file starts over when it has reached its greatest size, the rest
of the round before being left behind what is written now; `free_logctx` cuts that off, after
`objects/logctx.c`. What is written to a stream is in its file at once. -/
namespace Libdank.LogListener
open Parse Buffers

structure File where
  bytes : Text
  pos : ℕ
deriving DecidableEq, Repr

def File.fwrite (f : File) (data : Text) : File := ⟨overwrite f.bytes f.pos data, f.pos + data.length⟩

def File.ftruncate (f : File) (len : ℕ) : File :=
  { f with bytes := f.bytes.take len ++ List.replicate (len - f.bytes.length) nul }

def File.rewind (f : File) : File := { f with pos := 0 }

variable (lc : Logctx)

def File.writeLfile (f : File) (text : Text) (written : ℕ) (truncated : Bool) : File :=
  match lc.lfile with
  | none => f
  | some .stdout => f
  | some .regular =>
    let f := f.fwrite (text.take written)
    if written < text.length then f
    else if logfileMaxSize < lc.lfileOffset + written ∧ truncated then
      (f.ftruncate logfileMaxSize).rewind
    else f

def log (s : Logctx × File) (c : Call) : Logctx × File :=
  match innerVflog s.1 c with
  | (none, lc) => (lc, s.2)
  | (some (text, len), lc) => (lc, s.2.writeLfile s.1 (text.take len) c.written c.truncated)

def logs (s : Logctx × File) (calls : List Call) : Logctx × File := calls.foldl log s

/-- `free_logctx`: what is left of the file under its name. `ends` is the line about the end of the
thread, which `lfile_offset` does not count. -/
def freeLogctx (f : File) (cleanup : Bool) (ends : Text) (truncated : Bool) : Option File :=
  match lc.lfile with
  | none => some f
  | some .stdout => some f
  | some .regular =>
    if cleanup then none
    else if truncated then some ((f.fwrite ends).ftruncate lc.lfileOffset)
    else none

def Honest (lc : Logctx) : List Call → Prop
  | [] => True
  | c :: calls => (∀ m ∈ (innerVflog lc c).1, c.written ≤ m.2) ∧ Honest (innerVflog lc c).2 calls

/-- Nothing is kept of what passes the greatest size. -/
def keep (kept m : Text) : Text := if logfileMaxSize < kept.length + m.length then [] else kept ++ m

def sincePassed (messages : List Text) : Text := messages.foldl keep []

variable {lc} {f : File}

theorem snprintf_lfile (at_ avail : ℕ) (out : Text) :
    (lc.snprintf at_ avail out).lfile = lc.lfile ∧ (lc.snprintf at_ avail out).lfileOffset = lc.lfileOffset := by
  rw [Logctx.snprintf]
  split <;> exact ⟨rfl, rfl⟩

theorem copyLeader_lfile (len avail : ℕ) (leader : Option Text) :
    (copyLeader lc len avail leader).2.lfile = lc.lfile ∧
      (copyLeader lc len avail leader).2.lfileOffset = lc.lfileOffset := by
  rw [copyLeader]
  split_ifs <;> exact ⟨rfl, rfl⟩

theorem printMessage_lfile (len avail : ℕ) (out : Text) :
    (printMessage lc len avail out).2.lfile = lc.lfile ∧
      (printMessage lc len avail out).2.lfileOffset = lc.lfileOffset := by
  rw [printMessage]
  split_ifs
  · exact snprintf_lfile len avail out
  · exact snprintf_lfile len avail out

theorem writeLfile_congr {lc' : Logctx} (lfile : lc'.lfile = lc.lfile)
    (offset : lc'.lfileOffset = lc.lfileOffset) (len written : ℕ) (truncated : Bool) :
    (writeLfile lc' len written truncated).lfile = (writeLfile lc len written truncated).lfile ∧
      (writeLfile lc' len written truncated).lfileOffset =
        (writeLfile lc len written truncated).lfileOffset := by
  rw [writeLfile, writeLfile, lfile]
  cases lc.lfile with
  | none => exact ⟨lfile, offset⟩
  | some k =>
    dsimp only
    rw [offset]
    split_ifs
    · exact ⟨rfl, rfl⟩
    · exact ⟨lfile, offset⟩
    · exact ⟨rfl, rfl⟩
    · exact ⟨rfl, rfl⟩
    · exact ⟨rfl, rfl⟩

theorem innerVflog_lfile (c : Call) :
    ((innerVflog lc c).1 = none ∧ (innerVflog lc c).2.lfile = lc.lfile ∧
      (innerVflog lc c).2.lfileOffset = lc.lfileOffset) ∨
    ∃ m, (innerVflog lc c).1 = some m ∧
      (innerVflog lc c).2.lfile = (writeLfile lc m.2 c.written c.truncated).lfile ∧
      (innerVflog lc c).2.lfileOffset = (writeLfile lc m.2 c.written c.truncated).lfileOffset := by
  rw [innerVflog]
  dsimp only
  split_ifs with long
  · exact .inl ⟨rfl, snprintf_lfile _ _ _⟩
  · refine .inr ⟨_, rfl, writeLfile_congr ?_ ?_ _ _ _⟩
    · rw [(printMessage_lfile _ _ _).1, (copyLeader_lfile _ _ _).1]
      exact (snprintf_lfile _ _ _).1
    · rw [(printMessage_lfile _ _ _).2, (copyLeader_lfile _ _ _).2]
      exact (snprintf_lfile _ _ _).2

theorem strlen_le {cells : Text} {n : ℕ} (length : strlen cells = some n) : n ≤ cells.length := by
  induction cells generalizing n with
  | nil => cases length
  | cons c cells ih =>
    rw [strlen] at length
    split at length
    · obtain rfl := Option.some.inj length
      exact Nat.zero_le _
    · obtain ⟨m, later, rfl⟩ := Option.map_eq_some_iff.mp length
      exact Nat.succ_le_succ (ih later)

def messageText (m : Text × ℕ) : Text := m.1.take m.2

theorem messageText_length {m : Text × ℕ} (copied : Copied m) : (messageText m).length = m.2 := by
  rw [messageText, List.length_take, min_eq_left (strlen_le copied.1)]

/-- What has been kept is in front, as far as the stream has come; behind it is what is left of the
round before. -/
structure Logged (s : Logctx × File) (kept : Text) : Prop where
  lfile : s.1.lfile = some .regular
  offset : s.1.lfileOffset = kept.length
  pos : s.2.pos = kept.length
  front : ∃ stale, s.2.bytes = kept ++ stale
  size : s.2.bytes.length ≤ logfileMaxSize + listenerMsgSz
  low : kept.length ≤ logfileMaxSize

theorem log_logged {s : Logctx × File} {kept text room : Text} (logged : Logged s kept)
    (laid : Laid s.1 text room) {c : Call} (honest : ∀ m ∈ (innerVflog s.1 c).1, c.written ≤ m.2)
    (open_ : (log s c).1.lfile = some .regular) :
    Logged (log s c) (((innerVflog s.1 c).1.toList.map messageText).foldl keep kept) := by
  have after := (innerVflog_laid laid c).2
  have told := @innerVflog_lfile s.1 c
  rw [log] at open_ ⊢
  rcases result : innerVflog s.1 c with ⟨handed, lc⟩
  rw [result] at honest after told open_
  obtain ⟨none_, lfile, offset⟩ | ⟨m, some_, lfile, offset⟩ := told
  · obtain rfl : handed = none := none_
    exact ⟨lfile.trans logged.lfile, offset.trans logged.offset, logged.pos, logged.front, logged.size,
      logged.low⟩
  · obtain rfl : handed = some m := some_
    obtain ⟨text', len⟩ := m
    have copied := after _ rfl
    have length : (messageText (text', len)).length = len := messageText_length copied
    have short : len + 1 ≤ listenerMsgSz := copied.2
    have most : c.written ≤ len := honest _ rfl
    obtain ⟨stale, bytes⟩ := logged.front
    simp only [writeLfile, logged.lfile, logged.offset] at lfile offset open_
    have whole : ¬ c.written < len := by
      intro less
      rw [if_pos less] at lfile
      simp [lfile] at open_
    have written : c.written = len := by omega
    rw [if_neg whole, if_neg (by decide), written] at lfile offset
    have all : (messageText (text', len)).take len = messageText (text', len) :=
      List.take_of_length_le (by rw [length])
    have now : s.2.writeLfile s.1 (messageText (text', len)) c.written c.truncated =
        if logfileMaxSize < kept.length + len ∧ c.truncated then
          ((s.2.fwrite (messageText (text', len))).ftruncate logfileMaxSize).rewind
        else s.2.fwrite (messageText (text', len)) := by
      rw [File.writeLfile, logged.lfile, logged.offset]
      simp only [written, length, Nat.lt_irrefl, if_false, all]
    change Logged (lc, s.2.writeLfile s.1 (messageText (text', len)) c.written c.truncated)
      (keep kept (messageText (text', len)))
    rw [now, keep, length]
    by_cases past : logfileMaxSize < kept.length + len
    · rw [if_pos past] at lfile offset
      cases able : c.truncated with
      | false =>
        rw [able] at lfile
        simp [lfile] at open_
      | true =>
        rw [able] at lfile offset
        rw [if_pos past, if_pos ⟨past, rfl⟩]
        refine ⟨lfile, offset, rfl, ⟨_, rfl⟩, ?_, Nat.zero_le _⟩
        simp only [File.rewind, File.ftruncate, List.length_append, List.length_take, List.length_replicate]
        omega
    · rw [if_neg past] at lfile offset
      rw [if_neg past, if_neg fun both => past both.1]
      refine ⟨lfile, ?_, ?_, ⟨(kept ++ stale).drop (kept.length + len), ?_⟩, ?_, ?_⟩
      · rw [offset, List.length_append, length]
      · rw [File.fwrite, logged.pos, List.length_append]
      · rw [File.fwrite, logged.pos, bytes, overwrite, List.take_left, length]
      · have size := logged.size
        simp only [File.fwrite, logged.pos, bytes, overwrite, List.length_append, List.length_take,
          List.length_drop, length] at size ⊢
        omega
      · rw [List.length_append, length]
        omega

theorem log_open {s : Logctx × File} {c : Call} (open_ : (log s c).1.lfile = some .regular) :
    s.1.lfile = some .regular := by
  have told := @innerVflog_lfile s.1 c
  rw [log] at open_
  rcases result : innerVflog s.1 c with ⟨handed, lc⟩
  rw [result] at told open_
  obtain ⟨none_, lfile, -⟩ | ⟨m, some_, lfile, -⟩ := told
  · obtain rfl : handed = none := none_
    exact lfile.symm.trans open_
  · obtain rfl : handed = some m := some_
    have kept := lfile.symm.trans open_
    rw [writeLfile] at kept
    cases before : s.1.lfile with
    | none => simp [before] at kept
    | some k =>
      simp only [before] at kept
      split_ifs at kept <;> simp_all

theorem logs_open {s : Logctx × File} {calls : List Call}
    (open_ : (logs s calls).1.lfile = some .regular) : s.1.lfile = some .regular := by
  induction calls generalizing s with
  | nil => exact open_
  | cons c calls ih => exact log_open (ih open_)

theorem log_lc (s : Logctx × File) (c : Call) : (log s c).1 = (innerVflog s.1 c).2 := by
  rw [log]
  rcases innerVflog s.1 c with ⟨_ | m, lc⟩ <;> rfl

theorem logs_logged {s : Logctx × File} {kept text room : Text} {calls : List Call} (logged : Logged s kept)
    (laid : Laid s.1 text room) (honest : Honest s.1 calls)
    (open_ : (logs s calls).1.lfile = some .regular) :
    Logged (logs s calls) (((innerVflogs s.1 calls).1.map messageText).foldl keep kept) := by
  induction calls generalizing s kept text room with
  | nil => exact logged
  | cons c calls ih =>
    have next := log_logged logged laid honest.1 (logs_open open_)
    obtain ⟨⟨text', room', laid'⟩, -⟩ := innerVflog_laid laid c
    rw [← log_lc] at laid'
    have later := ih next laid' (log_lc s c ▸ honest.2) open_
    rw [innerVflogs, List.map_append, List.foldl_append]
    rw [log_lc] at later
    exact later

/-- However a thread logs, as long as no write fails: its file never grows by more than a message
beyond the greatest size, and what is left in the end is what has been logged since that size was
last passed, and nothing else. The line about the end of the thread is cut off again. -/
theorem log_kept (calls : List Call) (honest : Honest (.cleared (some .regular)) calls)
    (open_ : (logs (.cleared (some .regular), ⟨[], 0⟩) calls).1.lfile = some .regular) (ends : Text) :
    (logs (.cleared (some .regular), ⟨[], 0⟩) calls).2.bytes.length ≤ logfileMaxSize + listenerMsgSz ∧
    (freeLogctx (logs (.cleared (some .regular), ⟨[], 0⟩) calls).1
        (logs (.cleared (some .regular), ⟨[], 0⟩) calls).2 false ends true).map File.bytes =
      some (sincePassed ((innerVflogs (.cleared (some .regular)) calls).1.map messageText)) := by
  have start : Logged (.cleared (some .regular), ⟨[], 0⟩) [] :=
    ⟨rfl, rfl, rfl, ⟨[], rfl⟩, Nat.zero_le _, Nat.zero_le _⟩
  have logged := logs_logged start (laid_cleared _) honest open_
  obtain ⟨stale, bytes⟩ := logged.front
  refine ⟨logged.size, ?_⟩
  rw [sincePassed]
  generalize ((innerVflogs (Logctx.cleared (some .regular)) calls).1.map messageText).foldl keep [] = kept
    at logged bytes
  rw [freeLogctx, logged.lfile]
  simp only [Bool.false_eq_true, if_false, if_true, Option.map_some, File.ftruncate, File.fwrite, logged.offset,
    logged.pos, bytes, overwrite, List.take_left, List.append_assoc, List.length_append, Option.some.injEq]
  rw [Nat.sub_eq_zero_of_le (by omega), List.replicate_zero, List.append_nil]

def twoLines : List Call :=
  [⟨none, ['a', '\n'], 4, true, nofun, by decide⟩, ⟨some ['b', ' '], ['c', '\n'], 6, true, by simp [nul], by decide⟩]

theorem twoLines_honest : Honest (.cleared (some .regular)) twoLines := by
  have first : (innerVflog (.cleared (some .regular)) (twoLines.get ⟨0, by decide⟩)).1.map Prod.snd = some 4 := by
    decide +kernel
  have second : (innerVflog (innerVflog (.cleared (some .regular)) (twoLines.get ⟨0, by decide⟩)).2
      (twoLines.get ⟨1, by decide⟩)).1.map Prod.snd = some 6 := by
    decide +kernel
  refine ⟨fun m here => ?_, fun m here => ?_, trivial⟩
  · have last : some m.2 = some 4 := (congrArg (Option.map Prod.snd) here).symm.trans first
    exact (Option.some.inj last).ge
  · have last : some m.2 = some 6 := (congrArg (Option.map Prod.snd) here).symm.trans second
    exact (Option.some.inj last).ge

theorem log_kept_two :
    (freeLogctx (logs (.cleared (some .regular), ⟨[], 0⟩) twoLines).1
        (logs (.cleared (some .regular), ⟨[], 0⟩) twoLines).2 false [] true).map File.bytes =
      some (sincePassed ((innerVflogs (.cleared (some .regular)) twoLines).1.map messageText)) :=
  (log_kept twoLines twoLines_honest (by decide +kernel) []).2

end Libdank.LogListener
