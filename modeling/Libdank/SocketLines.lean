import Libdank.Foundation.Requests

/-! Lines of any length read from a socket, after `suck_sd_line` and `read_socket_dynline` in
`utils/netio.c`. What is logged leaves `errno` alone. -/
namespace Libdank.SocketLines
open Requests

inductive ReadResult where
  | byte (c : UInt8)
  | eof
  | eintr
  | error (code : ℕ)
deriving DecidableEq, Repr

def newline : UInt8 := 10

def eintrCode : ℕ := 4

structure Bufsiz where
  size : ℕ
  pos : 0 < size
  is_int : size < 2 ^ 31

/-- What `suck_sd_line` returns (`none` for -1), what it stored, `errno`, and the reads to come. -/
structure Piece where
  ret : Option ℕ
  stored : List UInt8
  errno : ℕ
  rest : List ReadResult
deriving DecidableEq, Repr

def Piece.prepend (cs : List UInt8) (p : Piece) : Piece := { p with stored := cs ++ p.stored }

/-- `while(len < s)`; `none` where it is still waiting for a byte. -/
def suckSdLine (s len errno : ℕ) : List ReadResult → Option Piece
  | [] => if len < s then none else some ⟨none, [], errno, []⟩
  | r :: results =>
    if len < s then
      match r with
      | .eof => some ⟨some len, [0], errno, results⟩
      | .eintr => suckSdLine s len eintrCode results
      | .error code => some ⟨none, [], code, results⟩
      | .byte c =>
        if c = newline ∨ c = 0 then some ⟨some len, [0], errno, results⟩
        else (suckSdLine s (len + 1) errno results).map (Piece.prepend [c])
    else some ⟨none, [], errno, r :: results⟩

structure Outcome where
  ok : Bool
  buf : Option (List UInt8)
deriving DecidableEq, Repr

def failed : Outcome := ⟨false, none⟩

/-- The loop of `read_socket_dynline`, with `len` bytes allocated so far and `text` in them. -/
def readLoop (bufsiz : Bufsiz) :
    ℕ → ℕ → List UInt8 → Heap → List ReadResult → Option Outcome
  | 0, _, _, _, _ => none
  | fuel + 1, len, text, heap, results =>
    let (served, heap) := allocate (len + bufsiz.size) heap
    if served then do
      let piece ← suckSdLine bufsiz.size 0 0 results
      match piece.ret with
      | some 0 => pure failed
      | some _ => pure ⟨true, some (text ++ piece.stored)⟩
      | none =>
        if piece.errno = 0 then
          readLoop bufsiz fuel (len + bufsiz.size) (text ++ piece.stored) heap piece.rest
        else pure failed
    else some failed

def readSocketDynline (bufsiz : Bufsiz) (fuel : ℕ) (heap : Heap) (results : List ReadResult) :
    Option Outcome := readLoop bufsiz fuel 0 [] heap results

inductive Ending where
  | newline | nul | eof
deriving DecidableEq, Repr

def Ending.result : Ending → ReadResult
  | newline => .byte SocketLines.newline
  | nul => .byte 0
  | eof => .eof

structure Arrival where
  interrupts : ℕ
  byte : UInt8
deriving DecidableEq, Repr

def Arrival.results (a : Arrival) : List ReadResult :=
  List.replicate a.interrupts .eintr ++ [.byte a.byte]

def Inside (arrivals : List Arrival) : Prop := ∀ a ∈ arrivals, ¬ (a.byte = newline ∨ a.byte = 0)

/-- A line as it arrives, with what is read after it. -/
structure Delivery where
  arrivals : List Arrival
  interrupts : ℕ
  ending : Ending
  later : List ReadResult
  nonempty : arrivals ≠ []
  inside : Inside arrivals

def bytes (arrivals : List Arrival) : List UInt8 := arrivals.map Arrival.byte

def close (interrupts : ℕ) (ending : Ending) (later : List ReadResult) : List ReadResult :=
  List.replicate interrupts .eintr ++ ending.result :: later

def Delivery.results (d : Delivery) : List ReadResult :=
  d.arrivals.flatMap Arrival.results ++ close d.interrupts d.ending d.later

def Delivery.line (d : Delivery) : List UInt8 := bytes d.arrivals

def Gives (bufsiz : Bufsiz) (heap : Heap) (d : Delivery) : Prop :=
  ∃ fuel, readSocketDynline bufsiz fuel heap d.results = some ⟨true, some (d.line ++ [0])⟩

def interrupted (errno : ℕ) : ℕ → ℕ
  | 0 => errno
  | _ + 1 => eintrCode

theorem interrupted_eintr (k : ℕ) : interrupted eintrCode k = eintrCode := by cases k <;> rfl

theorem suck_interrupts {s len : ℕ} (room : len < s) (k errno : ℕ) (results : List ReadResult) :
    suckSdLine s len errno (List.replicate k .eintr ++ results) =
      suckSdLine s len (interrupted errno k) results := by
  induction k generalizing errno with
  | zero => rfl
  | succ k ih =>
    rw [List.replicate_succ, List.cons_append, suckSdLine, if_pos room, ih, interrupted_eintr]
    rfl

def errnoAfter (errno : ℕ) (arrivals : List Arrival) : ℕ :=
  arrivals.foldl (fun e a => interrupted e a.interrupts) errno

theorem errnoAfter_eq_zero (errno : ℕ) (arrivals : List Arrival) :
    errnoAfter errno arrivals = 0 ↔ errno = 0 ∧ ∀ a ∈ arrivals, a.interrupts = 0 := by
  induction arrivals generalizing errno with
  | nil => simp [errnoAfter]
  | cons a arrivals ih =>
    have step : errnoAfter errno (a :: arrivals) = errnoAfter (interrupted errno a.interrupts) arrivals := rfl
    rw [step, ih, List.forall_mem_cons, ← and_assoc]
    refine and_congr_left fun _ => ?_
    cases a.interrupts with
    | zero => exact (and_iff_left rfl).symm
    | succ k => exact iff_of_false (Nat.succ_ne_zero 3) (fun both => absurd both.2 (Nat.succ_ne_zero k))

theorem suck_arrivals {arrivals : List Arrival} (inside : Inside arrivals) {s len : ℕ}
    (room : len + arrivals.length ≤ s) (errno : ℕ) (results : List ReadResult) :
    suckSdLine s len errno (arrivals.flatMap Arrival.results ++ results) =
      (suckSdLine s (len + arrivals.length) (errnoAfter errno arrivals) results).map
        (Piece.prepend (bytes arrivals)) := by
  induction arrivals generalizing len errno with
  | nil => exact (congrFun Option.map_id _).symm
  | cons a arrivals ih =>
    rw [List.length_cons] at room
    have here := inside a List.mem_cons_self
    have later : Inside arrivals := fun b seen => inside b (List.mem_cons_of_mem _ seen)
    rw [List.flatMap_cons, Arrival.results, List.append_assoc, List.append_assoc,
      suck_interrupts (by omega), List.singleton_append, suckSdLine, if_pos (by omega)]
    simp only [if_neg here]
    rw [ih later (by omega), Option.map_map, List.length_cons, Nat.add_right_comm, Nat.add_assoc]
    rfl

theorem suck_full {arrivals : List Arrival} (inside : Inside arrivals) {s : ℕ}
    (full : arrivals.length = s) (results : List ReadResult) :
    suckSdLine s 0 0 (arrivals.flatMap Arrival.results ++ results) =
      some ⟨none, bytes arrivals, errnoAfter 0 arrivals, results⟩ := by
  have stop : suckSdLine s s (errnoAfter 0 arrivals) results =
      some ⟨none, [], errnoAfter 0 arrivals, results⟩ := by
    cases results <;> simp [suckSdLine]
  rw [suck_arrivals inside (by omega), Nat.zero_add, full, stop]
  simp [Piece.prepend]

theorem suck_last {arrivals : List Arrival} (inside : Inside arrivals) {s : ℕ}
    (short : arrivals.length < s) (interrupts : ℕ) (ending : Ending) (later : List ReadResult) :
    ∃ errno, suckSdLine s 0 0 (arrivals.flatMap Arrival.results ++ close interrupts ending later) =
      some ⟨some arrivals.length, bytes arrivals ++ [0], errno, later⟩ := by
  refine ⟨interrupted (errnoAfter 0 arrivals) interrupts, ?_⟩
  have stop : suckSdLine s arrivals.length (errnoAfter 0 arrivals) (close interrupts ending later) =
      some ⟨some arrivals.length, [0], interrupted (errnoAfter 0 arrivals) interrupts, later⟩ := by
    rw [close, suck_interrupts short]
    cases ending <;> simp [Ending.result, suckSdLine, short]
  rw [suck_arrivals inside (by omega), Nat.zero_add, stop]
  rfl

/-- What the loop needs: a last piece that is not empty, and no interruption in any other. -/
def Undisturbed (bufsiz : Bufsiz) (arrivals : List Arrival) : Prop :=
  ¬ bufsiz.size ∣ arrivals.length ∧
    ∀ a ∈ arrivals.take (bufsiz.size * (arrivals.length / bufsiz.size)), a.interrupts = 0

theorem undisturbed_short {bufsiz : Bufsiz} {arrivals : List Arrival}
    (short : arrivals.length < bufsiz.size) : Undisturbed bufsiz arrivals ↔ arrivals ≠ [] := by
  unfold Undisturbed
  rw [Nat.div_eq_of_lt short, Nat.mul_zero, List.take_zero, Nat.dvd_iff_mod_eq_zero,
    Nat.mod_eq_of_lt short, List.length_eq_zero_iff]
  exact and_iff_left nofun

theorem undisturbed_long {bufsiz : Bufsiz} {arrivals : List Arrival}
    (long : bufsiz.size ≤ arrivals.length) : Undisturbed bufsiz arrivals ↔
      (∀ a ∈ arrivals.take bufsiz.size, a.interrupts = 0) ∧
        Undisturbed bufsiz (arrivals.drop bufsiz.size) := by
  have pos := bufsiz.pos
  have pieces : bufsiz.size * (arrivals.length / bufsiz.size) =
      bufsiz.size + bufsiz.size * ((arrivals.length - bufsiz.size) / bufsiz.size) := by
    rw [Nat.div_eq_sub_div pos long, Nat.mul_succ, Nat.add_comm]
  unfold Undisturbed
  rw [List.length_drop, pieces, List.take_add, List.forall_mem_append,
    Nat.dvd_sub_iff_left long (dvd_refl _)]
  exact and_left_comm

theorem readLoop_served (bufsiz : Bufsiz) {heap : Heap} (served : Served heap) (len : ℕ) :
    ∃ heap', Served heap' ∧ ∀ fuel text results,
      readLoop bufsiz (fuel + 1) len text heap results =
        (suckSdLine bufsiz.size 0 0 results).bind fun piece =>
          match piece.ret with
          | some 0 => some failed
          | some _ => some ⟨true, some (text ++ piece.stored)⟩
          | none =>
            if piece.errno = 0 then
              readLoop bufsiz fuel (len + bufsiz.size) (text ++ piece.stored) heap' piece.rest
            else some failed := by
  have more : len + bufsiz.size ≠ 0 := by
    have := bufsiz.pos
    omega
  obtain ⟨ok, still⟩ := allocate_served more heap served
  rcases answer : allocate (len + bufsiz.size) heap with ⟨granted, heap'⟩
  rw [answer] at ok still
  obtain rfl : granted = true := ok
  refine ⟨heap', still, fun fuel text results => ?_⟩
  rw [readLoop, answer]
  rfl

/-- The loop reads the rest of a line behind what it has of it. -/
theorem readLoop_iff {bufsiz : Bufsiz} (interrupts : ℕ) (ending : Ending) (later : List ReadResult)
    (n : ℕ) : ∀ arrivals : List Arrival, arrivals.length = n → Inside arrivals →
      ∀ heap : Heap, Served heap → ∀ (len : ℕ) (text : List UInt8),
      (∃ fuel, readLoop bufsiz fuel len text heap
          (arrivals.flatMap Arrival.results ++ close interrupts ending later) =
        some ⟨true, some (text ++ (bytes arrivals ++ [0]))⟩) ↔ Undisturbed bufsiz arrivals := by
  have pos := bufsiz.pos
  induction n using Nat.strong_induction_on with
  | _ n ih =>
    intro arrivals length inside heap served len text
    obtain ⟨heap', still, step⟩ := readLoop_served bufsiz served len
    rw [← Nat.or_exists_add_one, or_iff_right nofun]
    simp only [step]
    rcases Nat.lt_or_ge arrivals.length bufsiz.size with short | long
    · obtain ⟨errno, last⟩ := suck_last inside short interrupts ending later
      rw [undisturbed_short short]
      simp only [last, Option.bind_some]
      cases arrivals with
      | nil => exact iff_of_false nofun (fun some_ => some_ rfl)
      | cons a arrivals => exact iff_of_true ⟨0, rfl⟩ (List.cons_ne_nil _ _)
    · have first : arrivals.flatMap Arrival.results =
          (arrivals.take bufsiz.size).flatMap Arrival.results ++
            (arrivals.drop bufsiz.size).flatMap Arrival.results := by
        rw [← List.flatMap_append, List.take_append_drop]
      have text_split : bytes arrivals =
          bytes (arrivals.take bufsiz.size) ++ bytes (arrivals.drop bufsiz.size) := by
        rw [bytes, bytes, bytes, ← List.map_append, List.take_append_drop]
      have head : Inside (arrivals.take bufsiz.size) := fun a seen => inside a (List.mem_of_mem_take seen)
      have tail : Inside (arrivals.drop bufsiz.size) := fun a seen => inside a (List.mem_of_mem_drop seen)
      rw [undisturbed_long long]
      simp only [first, List.append_assoc, suck_full head (List.length_take_of_le long),
        Option.bind_some]
      have clean := errnoAfter_eq_zero 0 (arrivals.take bufsiz.size)
      by_cases quiet : errnoAfter 0 (arrivals.take bufsiz.size) = 0
      · have rest := ih (n - bufsiz.size) (by omega) (arrivals.drop bufsiz.size)
          (by rw [List.length_drop, length]) tail heap' still (len + bufsiz.size)
          (text ++ bytes (arrivals.take bufsiz.size))
        rw [and_iff_right (clean.mp quiet).2, ← rest, text_split]
        simp only [quiet, if_true, List.append_assoc]
      · refine iff_of_false ?_ (fun both => quiet (clean.mpr ⟨rfl, both.1⟩))
        simp only [if_neg quiet]
        rintro ⟨fuel, done⟩
        cases done

/-- A line comes out as it came in, unless its length is a multiple of BUFSIZ or `read` is
interrupted before a byte of a piece that it fills. -/
theorem readSocketDynline_iff (bufsiz : Bufsiz) (heap : Heap) (served : Served heap)
    (d : Delivery) : Gives bufsiz heap d ↔ ¬ bufsiz.size ∣ d.line.length ∧
      ∀ a ∈ d.arrivals.take (bufsiz.size * (d.line.length / bufsiz.size)), a.interrupts = 0 := by
  rw [Delivery.line, bytes, List.length_map]
  exact readLoop_iff d.interrupts d.ending d.later _ d.arrivals rfl d.inside heap served 0 []

def threeLetters : Delivery where
  arrivals := [⟨0, 97⟩, ⟨0, 98⟩, ⟨1, 99⟩]
  interrupts := 0
  ending := .newline
  later := []
  nonempty := nofun
  inside := by
    unfold Inside
    decide

theorem readSocketDynline_iff_pieces : Gives ⟨2, by decide, by decide⟩ ⟨[], false⟩ threeLetters ↔
    ¬ 2 ∣ 3 ∧ ∀ a ∈ threeLetters.arrivals.take (2 * (3 / 2)), a.interrupts = 0 :=
  readSocketDynline_iff ⟨2, by decide, by decide⟩ ⟨[], false⟩ rfl threeLetters

def twoLetters : Delivery where
  arrivals := [⟨0, 97⟩, ⟨0, 98⟩]
  interrupts := 0
  ending := .newline
  later := []
  nonempty := nofun
  inside := by
    unfold Inside
    decide

/-- A line that fills its pieces is refused. -/
theorem readSocketDynline_full : ¬ Gives ⟨2, by decide, by decide⟩ ⟨[], false⟩ twoLetters := by
  intro gives
  have undisturbed := (readLoop_iff twoLetters.interrupts twoLetters.ending twoLetters.later _
    twoLetters.arrivals rfl twoLetters.inside ⟨[], false⟩ rfl 0 []).mp gives
  exact undisturbed.1 (by decide)

end Libdank.SocketLines
