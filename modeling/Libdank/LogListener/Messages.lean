import Libdank.Foundation.Buffers
import Libdank.LogListener.Operations

/-! The message that goes to the listeners and to the log, put together in the `msg_buffer` of
a `logctx`. Its last byte is never written, and ends what was cut off. A conversion is its
output: what `vsnprintf` would print with room enough. -/
namespace Libdank.LogListener
open Parse Buffers

def nul : Char := Char.ofNat 0

def listenerMsgSz : ℕ := 4096

def logfileMaxSize : ℕ := 1024 * 1024

inductive Lfile where
  | stdout | regular
deriving DecidableEq, Repr

/-- `wild` if a byte was written outside of `msg_buffer`. -/
structure Logctx where
  lfile : Option Lfile
  lfileOffset : ℕ
  lineswritten : ℕ
  msgBuffer : Text
  wild : Bool
deriving DecidableEq, Repr

def Logctx.cleared (lfile : Option Lfile) : Logctx :=
  ⟨lfile, 0, 0, List.replicate listenerMsgSz nul, false⟩

/-- A call of `inner_vflog`, and what the system answers: how much `fwrite` has written, and
whether `ftruncate` has succeeded. -/
structure Call where
  leader : Option Text
  out : Text
  written : ℕ
  truncated : Bool
  /-- A string ends at its first NUL. -/
  leaderString : ∀ s ∈ leader, nul ∉ s
  outString : nul ∉ out

variable (lc : Logctx)

def Logctx.write (at_ : ℕ) (cells : Text) : Logctx :=
  { lc with
    msgBuffer := overwrite lc.msgBuffer at_ cells
    wild := lc.wild || decide (lc.msgBuffer.length < at_ + cells.length) }

def Logctx.snprintf (at_ avail : ℕ) (out : Text) : Logctx :=
  if avail = 0 then lc else lc.write at_ (out.take (avail - 1) ++ [nul])

/-- The leader, if it fits. Its length is kept in an `int`, and one that is negative is taken
for a large `size_t`. -/
def copyLeader (len avail : ℕ) (leader : Option Text) : ℕ × Logctx :=
  let leader := leader.getD []
  let z := leader.length % 2 ^ 32
  if z ≠ 0 then
    if z < avail then (z, lc.write len ((leader ++ [nul]).take (z + 1))) else (0, lc)
  else (0, lc)

/-- The message itself, with a newline at the end if it is cut off. -/
def printMessage (len avail : ℕ) (out : Text) : ℕ × Logctx :=
  let lc := lc.snprintf len avail out
  if avail ≤ out.length then (listenerMsgSz - 1, lc.write (listenerMsgSz - 1 - 1) ['\n'])
  else (len + out.length, lc)

def writeLfile (len written : ℕ) (truncated : Bool) : Logctx :=
  match lc.lfile with
  | none => lc
  | some lfile =>
    if written < len then { lc with lfile := none }
    else if lfile = .stdout then lc
    else
      let offset := lc.lfileOffset + written
      if logfileMaxSize < offset then
        if truncated then { lc with lfileOffset := 0 }
        else { lc with lfile := none, lfileOffset := offset }
      else { lc with lfileOffset := offset }

/-- What is handed on, if anything: the buffer, and the length of the message. -/
def innerVflog (c : Call) : Option (Text × ℕ) × Logctx :=
  let avail := listenerMsgSz - 1
  let number := Nat.toDigits 10 lc.lineswritten ++ ['|']
  let lc := lc.snprintf 0 avail number
  let lc := { lc with lineswritten := (lc.lineswritten + 1) % 2 ^ 64 }
  let len := number.length
  if avail ≤ len then (none, lc)
  else
    let avail := avail - len
    let (z, lc) := copyLeader lc len avail c.leader
    let (len, lc) := printMessage lc (len + z) (avail - z) c.out
    (some (lc.msgBuffer, len), writeLfile lc len c.written c.truncated)

def innerVflogs (lc : Logctx) : List Call → List (Text × ℕ) × Logctx
  | [] => ([], lc)
  | c :: calls =>
    let (handed, lc) := innerVflog lc c
    let (later, lc) := innerVflogs lc calls
    (handed.toList ++ later, lc)

/-- Where the array holds no NUL, `strlen` and `strcpy` run out of it. -/
def strlen : Text → Option ℕ
  | [] => none
  | c :: cells => if c = nul then some 0 else (strlen cells).map (· + 1)

theorem strlen_append {text : Text} (string : nul ∉ text) (rest : Text) :
    strlen (text ++ nul :: rest) = some text.length := by
  induction text with
  | nil => rfl
  | cons c text ih =>
    obtain ⟨other, later⟩ := not_or.mp (mt List.mem_cons.mpr string)
    rw [List.cons_append, strlen, if_neg (Ne.symm other), ih later]
    rfl

structure Laid (lc : Logctx) (text room : Text) : Prop where
  cells : lc.msgBuffer = text ++ (room ++ [nul])
  size : text.length + room.length = listenerMsgSz - 1
  tame : lc.wild = false

variable {lc} {text room : Text}

theorem laid_cleared (lfile : Option Lfile) :
    Laid (.cleared lfile) [] (List.replicate (listenerMsgSz - 1) nul) :=
  ⟨by rw [List.nil_append, ← List.replicate_succ']; rfl, by rw [List.length_replicate]; rfl, rfl⟩

theorem Laid.restart (laid : Laid lc text room) : Laid lc [] (text ++ room) :=
  ⟨by rw [laid.cells, List.nil_append, List.append_assoc],
    by rw [List.length_nil, List.length_append, Nat.zero_add, laid.size], laid.tame⟩

theorem Laid.write (laid : Laid lc text room) {cells : Text} (fits : cells.length ≤ room.length) (count : ℕ) :
    Laid (lc.write text.length cells) (text ++ cells.take count)
      (cells.drop count ++ room.drop cells.length) := by
  have size := laid.size
  refine ⟨?_, ?_, ?_⟩
  · change overwrite lc.msgBuffer text.length cells = _
    rw [laid.cells, overwrite, List.take_left, List.drop_length_add_append,
      List.drop_append_of_le_length fits]
    simp only [List.append_assoc]
    rw [← List.append_assoc (cells.take count), List.take_append_drop]
  · simp only [List.length_append, List.length_take, List.length_drop]
    omega
  · change (lc.wild || decide (lc.msgBuffer.length < text.length + cells.length)) = false
    rw [laid.tame, laid.cells, Bool.false_or, decide_eq_false_iff_not]
    simp only [List.length_append, List.length_singleton]
    omega

theorem Laid.snprintf (laid : Laid lc text room) (some_ : room ≠ []) (out : Text) :
    ∃ room', Laid (lc.snprintf text.length room.length out) (text ++ out.take (room.length - 1))
      (nul :: room') := by
  have positive := List.length_pos_iff.mpr some_
  have fits : (out.take (room.length - 1) ++ [nul]).length ≤ room.length := by
    rw [List.length_append, List.length_take, List.length_singleton]
    omega
  have written := laid.write fits (out.take (room.length - 1)).length
  rw [List.take_left, List.drop_left] at written
  rw [Logctx.snprintf, if_neg positive.ne']
  exact ⟨_, written⟩

theorem Laid.copyLeader (laid : Laid lc text room) (some_ : room ≠ []) {leader : Option Text}
    (string : ∀ s ∈ leader, nul ∉ s) :
    ∃ more room', (copyLeader lc text.length room.length leader).1 = more.length ∧ nul ∉ more ∧
      room' ≠ [] ∧
      Laid (LogListener.copyLeader lc text.length room.length leader).2 (text ++ more) room' := by
  have string' : nul ∉ leader.getD [] := by
    cases leader with
    | none => exact List.not_mem_nil
    | some s => exact string s rfl
  have none_ : ∃ more room', 0 = more.length ∧ nul ∉ more ∧ room' ≠ [] ∧ Laid lc (text ++ more) room' :=
    ⟨[], room, rfl, List.not_mem_nil, some_, by rwa [List.append_nil]⟩
  rw [LogListener.copyLeader]
  generalize leader.getD [] = s at string'
  have short : s.length % 2 ^ 32 ≤ s.length := Nat.mod_le _ _
  split_ifs with one fits
  · have length : ((s ++ [nul]).take (s.length % 2 ^ 32 + 1)).length = s.length % 2 ^ 32 + 1 := by
      rw [List.length_take, List.length_append, List.length_singleton]
      omega
    have written := laid.write (by omega : ((s ++ [nul]).take (s.length % 2 ^ 32 + 1)).length ≤ room.length)
      (s.length % 2 ^ 32)
    rw [List.take_take, min_eq_left (Nat.le_succ _), List.take_append_of_le_length short] at written
    refine ⟨_, _, ?_, fun mem => string' (List.mem_of_mem_take mem), ?_, written⟩
    · rw [List.length_take, min_eq_left short]
    · refine List.append_ne_nil_of_left_ne_nil (List.ne_nil_of_length_pos ?_) _
      rw [List.length_drop, length]
      omega
  · exact none_
  · exact none_

theorem Laid.strlen (laid : Laid lc text room) (string : nul ∉ text)
    (ends : (room ++ [nul]).head? = some nul) :
    strlen lc.msgBuffer = some text.length := by
  obtain ⟨rest, behind⟩ := List.head?_eq_some_iff.mp ends
  rw [laid.cells, behind, strlen_append string]

/-- However long the message is, there is a NUL where its length says. -/
theorem Laid.printMessage (laid : Laid lc text room) (some_ : room ≠ []) (string : nul ∉ text) {out : Text}
    (outString : nul ∉ out) :
    (∃ text' room', Laid (printMessage lc text.length room.length out).2 text' room') ∧
      LogListener.strlen (printMessage lc text.length room.length out).2.msgBuffer =
        some (printMessage lc text.length room.length out).1 ∧
      (printMessage lc text.length room.length out).1 < listenerMsgSz := by
  obtain ⟨room', written⟩ := laid.snprintf some_ out
  have size := laid.size
  have behind := written.size
  have positive := List.length_pos_iff.mpr some_
  have all : nul ∉ text ++ out.take (room.length - 1) := fun mem =>
    (List.mem_append.mp mem).elim string fun mem => outString (List.mem_of_mem_take mem)
  rw [List.length_append, List.length_take, List.length_cons] at behind
  rw [LogListener.printMessage]
  by_cases long : room.length ≤ out.length
  · have last : (text ++ out.take (room.length - 1)).length = listenerMsgSz - 1 - 1 := by
      rw [List.length_append, List.length_take]
      omega
    have cut := written.write (by simp : ['\n'].length ≤ (nul :: room').length) 1
    have nothing : room' = [] := List.length_eq_zero_iff.mp (by omega)
    rw [last, nothing] at cut
    rw [if_pos long]
    refine ⟨⟨_, _, cut⟩, (cut.strlen ?_ rfl).trans ?_,
      (by decide : listenerMsgSz - 1 < listenerMsgSz)⟩
    · exact fun mem => (List.mem_append.mp mem).elim all (by decide)
    · rw [List.length_append, last]
      rfl
  · rw [if_neg long]
    rw [List.take_of_length_le (by omega)] at written all
    refine ⟨⟨_, _, written⟩, (written.strlen all rfl).trans ?_, ?_⟩
    · rw [List.length_append]
    · change text.length + out.length < listenerMsgSz
      omega

theorem writeLfile_laid (laid : Laid lc text room) (len written : ℕ) (truncated : Bool) :
    Laid (writeLfile lc len written truncated) text room := by
  have same : (writeLfile lc len written truncated).msgBuffer = lc.msgBuffer ∧
      (writeLfile lc len written truncated).wild = lc.wild := by
    rw [writeLfile]
    cases lc.lfile with
    | none => exact ⟨rfl, rfl⟩
    | some lfile =>
      dsimp only
      split_ifs <;> exact ⟨rfl, rfl⟩
  exact ⟨same.1.trans laid.cells, laid.size, same.2.trans laid.tame⟩

def Copied (m : Text × ℕ) : Prop := strlen m.1 = some m.2 ∧ m.2 + 1 ≤ listenerMsgSz

theorem number_string (n : ℕ) : nul ∉ Nat.toDigits 10 n ++ ['|'] := fun mem =>
  (List.mem_append.mp mem).elim
    (fun mem => absurd (Nat.isDigit_of_mem_toDigits (by decide) (by decide) mem) (by decide)) (by decide)

theorem innerVflog_laid (laid : Laid lc text room) (c : Call) :
    (∃ text' room', Laid (innerVflog lc c).2 text' room') ∧ ∀ m ∈ (innerVflog lc c).1, Copied m := by
  have start := laid.restart
  have size := start.size
  rw [List.length_nil, Nat.zero_add] at size
  have room_ : text ++ room ≠ [] := List.ne_nil_of_length_pos (by rw [size]; decide)
  obtain ⟨room₁, numbered⟩ := start.snprintf room_ (Nat.toDigits 10 lc.lineswritten ++ ['|'])
  rw [size, List.length_nil, List.nil_append] at numbered
  rw [innerVflog]
  have string := number_string lc.lineswritten
  generalize Nat.toDigits 10 lc.lineswritten ++ ['|'] = number at numbered string
  have counted : Laid { lc.snprintf 0 (listenerMsgSz - 1) number with
      lineswritten := ((lc.snprintf 0 (listenerMsgSz - 1) number).lineswritten + 1) % 2 ^ 64 }
      (number.take (listenerMsgSz - 1 - 1)) (nul :: room₁) := ⟨numbered.cells, numbered.size, numbered.tame⟩
  dsimp only
  by_cases long : listenerMsgSz - 1 ≤ number.length
  · rw [if_pos long]
    exact ⟨⟨_, _, counted⟩, fun m none_ => by cases none_⟩
  · rw [if_neg long]
    rw [List.take_of_length_le (by omega)] at counted
    have left : (nul :: room₁).length = listenerMsgSz - 1 - number.length := by
      have := counted.size
      omega
    obtain ⟨more, room₂, length, moreString, some_, led⟩ :=
      counted.copyLeader (List.cons_ne_nil _ _) c.leaderString
    have behind : room₂.length = listenerMsgSz - 1 - number.length - more.length := by
      have := led.size
      rw [List.length_append] at this
      omega
    have both : nul ∉ number ++ more := fun mem => (List.mem_append.mp mem).elim string moreString
    obtain ⟨⟨text', room', printed⟩, terminated, short⟩ := led.printMessage some_ both c.outString
    rw [left] at length printed terminated short
    rw [List.length_append, behind, ← length] at printed terminated short
    exact ⟨⟨text', room', writeLfile_laid printed _ _ _⟩, fun m here => by
      obtain rfl := Option.some.inj here
      exact ⟨terminated, short⟩⟩

theorem innerVflogs_laid (laid : Laid lc text room) (calls : List Call) :
    (∃ text' room', Laid (innerVflogs lc calls).2 text' room') ∧
      ∀ m ∈ (innerVflogs lc calls).1, Copied m := by
  induction calls generalizing lc text room with
  | nil => exact ⟨⟨text, room, laid⟩, fun m none_ => absurd none_ List.not_mem_nil⟩
  | cons c calls ih =>
    obtain ⟨⟨text', room', next⟩, now⟩ := innerVflog_laid laid c
    obtain ⟨last, later⟩ := ih next
    refine ⟨last, fun m mem => ?_⟩
    rcases List.mem_append.mp mem with here | there
    · exact now m (Option.mem_toList.mp here)
    · exact later m there

/-- Whatever is logged, nothing is written outside of the buffer, and each message that is
handed on has the length it is said to have and fits a listener's slot with its NUL. -/
theorem innerVflogs_copied (lfile : Option Lfile) (calls : List Call) :
    (innerVflogs (.cleared lfile) calls).2.wild = false ∧
      ∀ m ∈ (innerVflogs (.cleared lfile) calls).1, strlen m.1 = some m.2 ∧ m.2 + 1 ≤ listenerMsgSz := by
  obtain ⟨⟨text, room, laid⟩, copied⟩ := innerVflogs_laid (laid_cleared lfile) calls
  exact ⟨laid.tame, copied⟩

end Libdank.LogListener
