import Mathlib.Data.Option.Basic
import Mathlib.Tactic

/-! Differences of times, after `utils/time.c`. A signed sum, difference or product that does
not fit its type has no defined value. -/
namespace Libdank.Times

abbrev Signed (w : ℕ) := {x : ℤ // -2 ^ (w - 1) ≤ x ∧ x < 2 ^ (w - 1)}

def signed (w : ℕ) (x : ℤ) : Option (Signed w) :=
  if fits : -2 ^ (w - 1) ≤ x ∧ x < 2 ^ (w - 1) then some ⟨x, fits⟩ else none

theorem signed_eq_some {w : ℕ} {x : ℤ} {y : Signed w} : signed w x = some y ↔ (y : ℤ) = x := by
  unfold signed
  split
  case isTrue fits =>
    rw [Option.some.injEq, Subtype.ext_iff]
    exact eq_comm
  case isFalse fits =>
    constructor
    · nofun
    · rintro rfl
      exact absurd y.2 fits

theorem signed_bind_eq_some {w : ℕ} {x : ℤ} {α : Type} {f : Signed w → Option α} {r : α} :
    (signed w x >>= f) = some r ↔ ∃ y : Signed w, (y : ℤ) = x ∧ f y = some r := by
  simp only [Option.bind_eq_bind, Option.bind_eq_some_iff, signed_eq_some]

/-- What an `int` keeps of a wider value. -/
def toInt (x : ℤ) : ℤ := x.bmod (2 ^ 32)

structure Timeval where
  sec : Signed 64
  usec : Signed 64
deriving DecidableEq

/-- The first correction of `timeval_subtract`, where microseconds are borrowed. -/
def borrow (elapsed subtrahend : Timeval) : Option Timeval :=
  if (elapsed.usec : ℤ) < subtrahend.usec then do
    let less ← signed 64 (subtrahend.usec - elapsed.usec)
    let nsec := toInt ((less : ℤ).tdiv 100000 + 1)
    let more ← signed 32 (1000000 * nsec)
    let usec ← signed 64 (elapsed.usec + more)
    let sec ← signed 64 (elapsed.sec - nsec)
    pure ⟨sec, usec⟩
  else pure elapsed

/-- The second correction, where whole seconds are given back. -/
def giveBack (elapsed subtrahend : Timeval) : Option Timeval := do
  let more ← signed 64 (elapsed.usec - subtrahend.usec)
  if 1000000 < (more : ℤ) then do
    let nsec := toInt ((more : ℤ).tdiv 1000000)
    let less ← signed 32 (1000000 * nsec)
    let usec ← signed 64 (elapsed.usec - less)
    let sec ← signed 64 (elapsed.sec + nsec)
    pure ⟨sec, usec⟩
  else pure elapsed

def timevalSubtract (minuend subtrahend : Timeval) : Option Timeval := do
  let elapsed ← borrow minuend subtrahend
  let elapsed ← giveBack elapsed subtrahend
  let sec ← signed 64 (elapsed.sec - subtrahend.sec)
  let usec ← signed 64 (elapsed.usec - subtrahend.usec)
  pure ⟨sec, usec⟩

def timevalSubtractUsec (minuend subtrahend : Timeval) : Option (Signed 64) := do
  let result ← timevalSubtract minuend subtrahend
  let usec ← signed 64 (result.sec * 1000000)
  signed 64 (usec + result.usec)

def Timeval.Normalised (t : Timeval) : Prop := 0 ≤ (t.usec : ℤ) ∧ (t.usec : ℤ) < 1000000

instance : DecidablePred Timeval.Normalised := fun t =>
  inferInstanceAs (Decidable (0 ≤ (t.usec : ℤ) ∧ (t.usec : ℤ) < 1000000))

def Timeval.micros (t : Timeval) : ℤ := t.sec * 1000000 + t.usec

def borrowed (a b : Timeval) : ℤ :=
  if (a.usec : ℤ) < b.usec then ((b.usec : ℤ) - a.usec) / 100000 + 1 else 0

def givenBack (a b : Timeval) : ℤ := if (a.usec : ℤ) < b.usec then borrowed a b - 1 else 0

theorem toInt_small {x : ℤ} (low : 0 ≤ x) (high : x < 1000) : toInt x = x := by
  rw [toInt, Int.bmod_eq_of_le] <;> omega

theorem borrowed_bounds {a b : Timeval} (ha : a.Normalised) (hb : b.Normalised) :
    0 ≤ borrowed a b ∧ borrowed a b ≤ 10 := by
  obtain ⟨a0, a1⟩ := ha
  obtain ⟨b0, b1⟩ := hb
  unfold borrowed
  split <;> omega

theorem timeval_eq {r : Timeval} {sec usec : Signed 64} :
    (pure ⟨sec, usec⟩ : Option Timeval) = some r ↔ (r.sec : ℤ) = sec ∧ (r.usec : ℤ) = usec := by
  obtain ⟨rs, ru⟩ := r
  rw [Option.pure_def, Option.some.injEq, Timeval.mk.injEq, Subtype.ext_iff, Subtype.ext_iff]
  exact and_congr eq_comm eq_comm

theorem borrow_eq_some {a b r : Timeval} (ha : a.Normalised) (hb : b.Normalised) :
    borrow a b = some r ↔
      (r.sec : ℤ) = a.sec - borrowed a b ∧ (r.usec : ℤ) = a.usec + 1000000 * borrowed a b := by
  obtain ⟨a0, a1⟩ := ha
  obtain ⟨b0, b1⟩ := hb
  unfold borrow borrowed
  split
  case isFalse later =>
    rw [timeval_eq]
    omega
  case isTrue earlier =>
    simp only [signed_bind_eq_some, timeval_eq]
    have whole : ((b.usec : ℤ) - a.usec).tdiv 100000 = (b.usec - a.usec) / 100000 :=
      Int.tdiv_eq_ediv_of_nonneg (by omega)
    have small : toInt (((b.usec : ℤ) - a.usec).tdiv 100000 + 1) = (b.usec - a.usec) / 100000 + 1 := by
      rw [whole, toInt_small] <;> omega
    constructor
    · rintro ⟨less, hless, more, hmore, usec, husec, sec, hsec, hs, hu⟩
      rw [hless, small] at hmore hsec
      omega
    · rintro ⟨hs, hu⟩
      refine ⟨⟨b.usec - a.usec, by omega, by omega⟩, rfl,
        ⟨1000000 * ((b.usec - a.usec) / 100000 + 1), by omega, by omega⟩, ?_, r.usec, hu, r.sec, ?_, rfl, rfl⟩
      · exact congrArg (1000000 * ·) small.symm
      · rw [hs, small]

theorem surplus {a b : Timeval} (ha : a.Normalised) (hb : b.Normalised) :
    ∃ d : ℤ, d = a.usec + 1000000 * borrowed a b - b.usec ∧ 0 ≤ d ∧ d ≤ 10000000 ∧
      givenBack a b = if 1000000 < d then d / 1000000 else 0 := by
  obtain ⟨a0, a1⟩ := ha
  obtain ⟨b0, b1⟩ := hb
  refine ⟨_, rfl, ?_⟩
  unfold givenBack borrowed
  split
  case isTrue earlier => split <;> omega
  case isFalse later =>
    rw [if_neg (by omega)]
    omega

theorem giveBack_eq_some {a b e r : Timeval} (ha : a.Normalised) (hb : b.Normalised)
    (usec : (e.usec : ℤ) = a.usec + 1000000 * borrowed a b) :
    giveBack e b = some r ↔ (r.sec : ℤ) = e.sec + givenBack a b ∧
      (r.usec : ℤ) = e.usec - 1000000 * givenBack a b := by
  obtain ⟨d, hd, low, high, given⟩ := surplus ha hb
  have rest : (e.usec : ℤ) - b.usec = d := by omega
  unfold giveBack
  rw [signed_bind_eq_some, rest, given]
  split
  case isFalse less =>
    constructor
    · rintro ⟨_, rfl, done⟩
      rw [if_neg less, timeval_eq] at done
      omega
    · rintro ⟨hs, hu⟩
      refine ⟨⟨d, by omega, by omega⟩, rfl, ?_⟩
      rw [if_neg less, timeval_eq]
      omega
  case isTrue more =>
    have small : toInt (d.tdiv 1000000) = d / 1000000 := by
      rw [Int.tdiv_eq_ediv_of_nonneg low, toInt_small] <;> omega
    constructor
    · rintro ⟨_, rfl, done⟩
      rw [if_pos more] at done
      simp only [signed_bind_eq_some, timeval_eq, small] at done
      obtain ⟨less, hless, usec', husec, sec, hsec, hs, hu⟩ := done
      omega
    · rintro ⟨hs, hu⟩
      refine ⟨⟨d, by omega, by omega⟩, rfl, ?_⟩
      rw [if_pos more]
      simp only [signed_bind_eq_some, timeval_eq, small]
      exact ⟨⟨1000000 * (d / 1000000), by omega, by omega⟩, rfl, r.usec, hu, r.sec, hs, rfl, rfl⟩

/-- The seconds never leave the range of their type. -/
def SecondsFit (a b : Timeval) : Prop :=
  -2 ^ 63 ≤ (a.sec : ℤ) - borrowed a b ∧
    -2 ^ 63 ≤ (a.micros - b.micros) / 1000000 ∧ (a.micros - b.micros) / 1000000 < 2 ^ 63

def MicrosFit (a b : Timeval) : Prop :=
  -2 ^ 63 ≤ (a.micros - b.micros) / 1000000 * 1000000 ∧ a.micros - b.micros < 2 ^ 63

theorem givenBack_nonneg {a b : Timeval} (ha : a.Normalised) (hb : b.Normalised) :
    0 ≤ givenBack a b := by
  obtain ⟨d, -, low, -, given⟩ := surplus ha hb
  rw [given]
  split <;> omega

theorem borrowed_sub_givenBack (a b : Timeval) :
    borrowed a b - givenBack a b = if (a.usec : ℤ) < b.usec then 1 else 0 := by
  unfold borrowed givenBack borrowed
  split <;> omega

theorem timevalSubtract_eq_some {a b r : Timeval} (ha : a.Normalised) (hb : b.Normalised) :
    timevalSubtract a b = some r ↔ -2 ^ 63 ≤ (a.sec : ℤ) - borrowed a b ∧ r.Normalised ∧
      r.micros = a.micros - b.micros := by
  obtain ⟨some_, few⟩ := borrowed_bounds ha hb
  have net := borrowed_sub_givenBack a b
  have back : borrowed a b - givenBack a b ≤ 1 ∧ 0 ≤ borrowed a b - givenBack a b := by
    rw [net]
    split <;> omega
  obtain ⟨a0, a1⟩ := ha
  obtain ⟨b0, b1⟩ := hb
  simp only [timevalSubtract, Option.bind_eq_bind, Option.bind_eq_some_iff, signed_eq_some,
    borrow_eq_some ⟨a0, a1⟩ ⟨b0, b1⟩, timeval_eq]
  unfold Timeval.Normalised Timeval.micros
  constructor
  · rintro ⟨e, ⟨esec, eusec⟩, e', given, sec, hsec, usec, husec, hs, hu⟩
    obtain ⟨esec', eusec'⟩ := (giveBack_eq_some ⟨a0, a1⟩ ⟨b0, b1⟩ eusec).mp given
    have := e.sec.2.1
    split at net <;> omega
  · rintro ⟨room, ⟨r0, r1⟩, exact⟩
    have asec := a.sec.2
    have rsec : (r.sec : ℤ) = a.sec - b.sec - (borrowed a b - givenBack a b) := by
      rw [net]
      split <;> omega
    have rusec : (r.usec : ℤ) = a.usec - b.usec + 1000000 * (borrowed a b - givenBack a b) := by
      omega
    have pos := givenBack_nonneg ⟨a0, a1⟩ ⟨b0, b1⟩
    refine ⟨⟨⟨a.sec - borrowed a b, by omega, by omega⟩, ⟨a.usec + 1000000 * borrowed a b, by omega,
      by omega⟩⟩, ⟨rfl, rfl⟩, ⟨⟨a.sec - borrowed a b + givenBack a b, by omega, by omega⟩,
      ⟨a.usec + 1000000 * borrowed a b - 1000000 * givenBack a b, by omega, by omega⟩⟩, ?_,
      r.sec, ?_, r.usec, ?_, rfl, rfl⟩
    · exact (giveBack_eq_some ⟨a0, a1⟩ ⟨b0, b1⟩ rfl).mpr ⟨rfl, rfl⟩
    · rw [rsec]
      ring
    · rw [rusec]
      ring

theorem timevalSubtract_isSome {a b : Timeval} (ha : a.Normalised) (hb : b.Normalised) :
    (timevalSubtract a b).isSome ↔ SecondsFit a b := by
  rw [Option.isSome_iff_exists]
  simp only [timevalSubtract_eq_some ha hb, SecondsFit]
  constructor
  · rintro ⟨r, room, ⟨r0, r1⟩, exact⟩
    have sec := r.sec.2
    rw [← exact]
    unfold Timeval.micros
    omega
  · rintro ⟨room, low, high⟩
    refine ⟨⟨⟨(a.micros - b.micros) / 1000000, low, high⟩,
      ⟨(a.micros - b.micros) % 1000000, by omega, by omega⟩⟩, room, ⟨?_, ?_⟩, ?_⟩
    · exact Int.emod_nonneg _ (by decide)
    · exact Int.emod_lt_of_pos _ (by decide)
    · change (a.micros - b.micros) / 1000000 * 1000000 + (a.micros - b.micros) % 1000000 = _
      omega

theorem timevalSubtractUsec_eq_some {a b : Timeval} {d : Signed 64} (ha : a.Normalised)
    (hb : b.Normalised) : timevalSubtractUsec a b = some d ↔
      SecondsFit a b ∧ MicrosFit a b ∧ (d : ℤ) = a.micros - b.micros := by
  rw [← timevalSubtract_isSome ha hb, Option.isSome_iff_exists]
  simp only [timevalSubtractUsec, Option.bind_eq_bind, Option.bind_eq_some_iff, signed_eq_some]
  constructor
  · rintro ⟨r, done, usec, husec, hd⟩
    obtain ⟨-, ⟨r0, r1⟩, exact⟩ := (timevalSubtract_eq_some ha hb).mp done
    have usec_fits := usec.2
    have d_fits := d.2
    refine ⟨⟨r, done⟩, ?_, ?_⟩ <;> unfold MicrosFit at * <;> rw [← exact] <;> unfold Timeval.micros <;>
      omega
  · rintro ⟨⟨r, done⟩, ⟨low, high⟩, hd⟩
    obtain ⟨-, ⟨r0, r1⟩, exact⟩ := (timevalSubtract_eq_some ha hb).mp done
    rw [← exact] at low high hd
    unfold Timeval.micros at low high hd
    exact ⟨r, done, ⟨r.sec * 1000000, by omega, by omega⟩, rfl, hd⟩

/-- The difference is normalised and exact wherever it is defined, and so is the number of
microseconds. -/
theorem timevalSubtract_exact (a b : Timeval) (ha : a.Normalised) (hb : b.Normalised) :
    ((timevalSubtract a b).isSome ↔ SecondsFit a b) ∧
      (∀ r ∈ timevalSubtract a b, r.Normalised ∧ r.micros = a.micros - b.micros) ∧
      ((timevalSubtractUsec a b).isSome ↔ SecondsFit a b ∧ MicrosFit a b) ∧
      ∀ d ∈ timevalSubtractUsec a b, (d : ℤ) = a.micros - b.micros := by
  refine ⟨timevalSubtract_isSome ha hb, fun r done => ((timevalSubtract_eq_some ha hb).mp done).2, ?_,
    fun d done => ((timevalSubtractUsec_eq_some ha hb).mp done).2.2⟩
  rw [Option.isSome_iff_exists]
  simp only [timevalSubtractUsec_eq_some ha hb]
  constructor
  · rintro ⟨d, fit, small, -⟩
    exact ⟨fit, small⟩
  · rintro ⟨fit, small⟩
    have low : -2 ^ 63 ≤ a.micros - b.micros := by
      unfold MicrosFit at small
      omega
    exact ⟨⟨_, low, small.2⟩, fit, small, rfl⟩

def earlierTime : Timeval := ⟨⟨0, by decide, by decide⟩, ⟨0, by decide, by decide⟩⟩

def laterTime : Timeval := ⟨⟨1, by decide, by decide⟩, ⟨999999, by decide, by decide⟩⟩

theorem timevalSubtract_exact_negative :
    ∃ d, timevalSubtractUsec earlierTime laterTime = some d ∧ (d : ℤ) = -1999999 := by
  obtain ⟨-, -, defined, exact⟩ :=
    timevalSubtract_exact earlierTime laterTime (by decide) (by decide)
  have fit : SecondsFit earlierTime laterTime := ⟨by decide, by decide⟩
  have small : MicrosFit earlierTime laterTime := ⟨by decide, by decide⟩
  obtain ⟨d, done⟩ := Option.isSome_iff_exists.mp (defined.mpr ⟨fit, small⟩)
  exact ⟨d, done, exact d done⟩

end Libdank.Times
