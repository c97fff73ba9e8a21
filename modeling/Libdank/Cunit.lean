import Libdank.Lexers

/-! The runner of unit tests, after `cunit.c`. A test runs in a child process, once, or again and
again with `-b`, or with each allocation failing in turn with `-f`. -/
namespace Libdank.Cunit
open Parse

def EXIT_TESTSUCCESS : ℕ := 0x01
def EXIT_TESTFAILED : ℕ := 0x02
def EXIT_MEMLEAK : ℕ := 0x04
def EXIT_NEEDMORERAM : ℕ := 0x08
def EXIT_MCHECKHACK : ℕ := 0x10
def EXIT_INTERNALEXIT : ℕ := 0x20
def EXIT_HACKTESTSUCCESS : ℕ := 0x7c
def EXIT_SIGNAL : ℕ := 0x80
def EXIT_MCHECK : ℕ := 0xff

inductive Ending where
  /-- `ok` is whether it returned 0, `balanced` whether as many allocations are outstanding as before. -/
  | returned (ok balanced : Bool)
  /-- It called `exit` itself. -/
  | exited (code : ℤ)
  /-- A signal, that of the alarm among them. -/
  | killed (signal : ℕ)
deriving DecidableEq, Repr

/-- What `waitpid` tells of a child. -/
inductive Status where
  | exited (code : ℕ)
  | signaled (signal : ℕ)
deriving DecidableEq, Repr

/-- Of `exit`'s argument eight bits are left. -/
def exit (code : ℤ) : Status := .exited (code % 256).toNat

structure DeclaredTest where
  disabled : Bool
  name : Text
  expectedResult : ℕ
  mbRequired : ℕ
  secRequired : ℕ
deriving DecidableEq, Repr

/-- All that the runner meets with while it runs one test. -/
structure Trial where
  forked : Bool
  waited : Bool
  /-- The child's own `sigaction` and `setpgid`. -/
  sigaction : Bool
  setpgid : Bool
  limited : Bool
  /-- Its standard output, sent to `/dev/null`. -/
  redirected : Bool
  /-- The function's runs in this child. -/
  runs : ℕ → Ending
  /-- `Chdir` to the directory of `-c` and back. -/
  entered : Bool
  restored : Bool

def strcasecmp (a b : Text) : Bool := a.map Char.toLower = b.map Char.toLower

structure Options where
  faillocTests : ℕ
  benchmarkTests : ℕ
  runAllTests : ℕ
deriving DecidableEq, Repr

inductive Arg where
  | f
  | b (optarg : Option Text)
  | a
  | invalid
deriving DecidableEq, Repr

def handleArg (o : Options) : Arg → Option Options
  | .f => if o.faillocTests ≠ 0 ∨ o.benchmarkTests ≠ 0 then none else some { o with faillocTests := 1 }
  | .b optarg =>
    if o.benchmarkTests ≠ 0 ∨ o.faillocTests ≠ 0 then none
    else
      match optarg with
      | none => some { o with benchmarkTests := 1000 }
      | some arg =>
        match Lexers.lexUint 32 0 arg with
        | .error _ => none
        | .ok (n, _) => if n ≤ 1 then none else some { o with benchmarkTests := n }
  | .a => if o.runAllTests ≠ 0 then none else some { o with runAllTests := 1 }
  | .invalid => none

/-- How the reading of the command line ends. -/
inductive Handled where
  /-- It returns -1, or exits with failure where `Getcwd` fails. -/
  | refused
  /-- `help` is among the names. The tests are listed, and it exits with success. -/
  | listed
  | accepted (o : Options)
deriving DecidableEq, Repr

def handleArgs (cwd : Bool) (args : List Arg) (names : List Text) : Handled :=
  if ¬ cwd then .refused
  else
    match args.foldlM handleArg ⟨0, 0, 0⟩ with
    | none => .refused
    | some o => if names.any fun name => strcasecmp name ['h', 'e', 'l', 'p'] then .listed else .accepted o

def runTestContext (ok balanced : Bool) : ℕ :=
  let ret := if ok then EXIT_HACKTESTSUCCESS else EXIT_TESTFAILED
  if balanced then ret else EXIT_MEMLEAK ||| ret &&& EXIT_TESTFAILED

/-- Where the child is in its loop: the runs behind it, and its two counters. -/
structure Loop where
  ran : ℕ
  failloc : ℕ
  benchmarks : ℕ
deriving DecidableEq, Repr

section Child
variable (o : Options) (t : Trial)

def afterRun (l : Loop) (ret : ℕ) : Except Status Loop :=
  let l := { l with ran := l.ran + 1 }
  if l.failloc ≠ 0 then
    if ret = EXIT_TESTFAILED then .ok { l with failloc := l.failloc + 1 } else .ok { l with failloc := 0 }
  else if l.benchmarks ≠ 0 then
    if ret ≠ EXIT_HACKTESTSUCCESS then .error (exit ret) else .ok { l with benchmarks := l.benchmarks - 1 }
  else if o.faillocTests ≠ 0 ∧ ret ≠ EXIT_TESTFAILED then .ok { l with failloc := o.faillocTests }
  else if o.benchmarkTests ≠ 0 ∧ ret ≠ EXIT_TESTFAILED then
    if t.redirected then .ok { l with benchmarks := o.benchmarkTests } else .error (exit EXIT_INTERNALEXIT)
  else .ok l

def childLoop : ℕ → Loop → Option Status
  | 0, _ => none
  | fuel + 1, l =>
    match t.runs l.ran with
    | .exited code => some (exit code)
    | .killed signal => some (.signaled signal)
    | .returned ok balanced =>
      let ret := runTestContext ok balanced
      match afterRun o t l ret with
      | .error status => some status
      | .ok l =>
        if l.failloc ≠ 0 ∨ l.benchmarks ≠ 0 then childLoop fuel l
        else some (exit (if ret = EXIT_TESTSUCCESS then EXIT_HACKTESTSUCCESS else ret))

def child (fuel : ℕ) : Option Status :=
  if ¬ t.sigaction then some (exit EXIT_INTERNALEXIT)
  else if ¬ t.setpgid then some (exit EXIT_INTERNALEXIT)
  else if ¬ t.limited then some (exit EXIT_NEEDMORERAM)
  else childLoop o t fuel ⟨0, 0, 0⟩

def interpret : Status → ℕ
  | .exited s =>
    if s = EXIT_HACKTESTSUCCESS then EXIT_TESTSUCCESS
    else if s &&& EXIT_MEMLEAK = 0 ∧ s &&& EXIT_TESTFAILED = 0 then EXIT_INTERNALEXIT
    else s
  | .signaled signal => EXIT_SIGNAL + signal

def trampolineTest (fuel : ℕ) : Option ℕ :=
  if ¬ t.forked then some EXIT_TESTFAILED
  else (child o t fuel).map fun status => if t.waited then interpret status else EXIT_TESTFAILED

/-- Its messages left out. -/
def runTest (fuel : ℕ) : Option ℕ :=
  (trampolineTest o t fuel).map fun ret =>
    if ret = EXIT_TESTSUCCESS then ret
    else if EXIT_SIGNAL ≤ ret then ret
    else if ret = EXIT_MCHECK then EXIT_MCHECKHACK
    else ret

end Child

def TEST_RUNTIME_MAX : ℕ := 10
def TEST_MEGABYTE_MAX : ℕ := 64

def testShouldRun (o : Options) (names : List Text) (test : DeclaredTest) : Bool :=
  if names = [] then
    if o.runAllTests = 0 ∧ TEST_RUNTIME_MAX < test.secRequired then false
    else if o.runAllTests = 0 ∧ TEST_MEGABYTE_MAX < test.mbRequired then false
    else ¬ test.disabled
  else names.any fun name => strcasecmp name test.name

def won (expected ret : ℕ) : Bool :=
  if EXIT_SIGNAL ≤ ret ∨ ret &&& EXIT_NEEDMORERAM = 0 then ret &&& expected = ret else true

structure Counts where
  wins : ℕ
  tests : ℕ
  disabled : ℕ
deriving DecidableEq, Repr

section Suites
variable (o : Options) (names : List Text) (fuel : ℕ)

def runTestsuites (c : Counts) : List (DeclaredTest × Trial) → Option (Bool × Counts)
  | [] => some (true, c)
  | (test, t) :: suite =>
    if ¬ testShouldRun o names test then runTestsuites { c with disabled := c.disabled + 1 } suite
    else
      let c := { c with tests := c.tests + 1 }
      if ¬ t.entered then some (false, c)
      else
        (runTest o t fuel).bind fun ret =>
          if won test.expectedResult ret then
            let c := { c with wins := c.wins + 1 }
            if t.restored then runTestsuites c suite else some (false, c)
          else some (false, c)

def runTests (c : Counts) : List (List (DeclaredTest × Trial)) → Option Counts
  | [] => some c
  | suite :: suites =>
    (runTestsuites o names fuel c suite).bind fun (on, c) => if on then runTests c suites else some c

end Suites

/-- What `main` does besides reading its arguments before it runs a test, and whether it succeeds. -/
structure Startup where
  libdankVercheck : Bool
  initLogging : Bool
  initNcurses : Bool
  getcwd : Bool
  idCpu : Bool
  handleSignals : Bool

def verdict (names : List Text) (c : Counts) : Bool :=
  if names ≠ [] ∧ c.tests ≠ names.length then false
  else if c.tests = 0 then false
  else c.wins = c.tests

def failure : Option (Bool × ℕ) := some (false, 0)

/-- Whether the runner exits with success, and how many tests it started. -/
def main (s : Startup) (args : List Arg) (names : List Text) (fuel : ℕ)
    (suites : List (List (DeclaredTest × Trial))) : Option (Bool × ℕ) :=
  if ¬ s.libdankVercheck then failure
  else if ¬ s.initLogging then failure
  else if ¬ s.initNcurses then failure
  else
    match handleArgs s.getcwd args names with
    | .refused => failure
    | .listed => some (true, 0)
    | .accepted o =>
      if ¬ s.idCpu then failure
      else if ¬ s.handleSignals then failure
      else
        (runTests o names fuel ⟨0, 0, 0⟩ suites).map fun c => (verdict names c, c.tests)

section Verdicts
variable {o : Options} {t : Trial} {k : ℕ}

def Ending.wins : Ending → Bool
  | .returned ok balanced => ok && balanced
  | .exited code => code % 256 = EXIT_HACKTESTSUCCESS
  | .killed _ => false

def Ending.returns : Ending → Bool
  | .returned _ _ => true
  | _ => false

def Ending.failsCleanly : Ending → Bool
  | .returned ok balanced => !ok && balanced
  | _ => false

theorem exit_succeeds {code : ℤ} :
    exit code = .exited EXIT_HACKTESTSUCCESS ↔ code % 256 = EXIT_HACKTESTSUCCESS := by
  rw [exit, Status.exited.injEq]
  have := Int.emod_nonneg code (show (256 : ℤ) ≠ 0 by decide)
  omega

theorem childLoop_failloc_succ (fuel : ℕ) {failloc : ℕ} (on : failloc ≠ 0) :
    childLoop o t (fuel + 1) ⟨k, failloc, 0⟩ = some (.exited EXIT_HACKTESTSUCCESS) ↔
      (t.runs k).wins ∨ (t.runs k).failsCleanly ∧
        childLoop o t fuel ⟨k + 1, failloc + 1, 0⟩ = some (.exited EXIT_HACKTESTSUCCESS) := by
  rw [childLoop]
  cases run : t.runs k with
  | exited code => simp [Ending.wins, Ending.failsCleanly, exit_succeeds]
  | killed signal => simp [Ending.wins, Ending.failsCleanly]
  | returned ok balanced =>
    cases ok <;> cases balanced <;>
      simp [runTestContext, afterRun, on, Ending.wins, Ending.failsCleanly, exit, EXIT_TESTFAILED,
        EXIT_HACKTESTSUCCESS, EXIT_MEMLEAK, EXIT_TESTSUCCESS]

theorem childLoop_failloc {failloc : ℕ} (on : failloc ≠ 0) :
    (∃ fuel, childLoop o t fuel ⟨k, failloc, 0⟩ = some (.exited EXIT_HACKTESTSUCCESS)) ↔
      ∃ n, (∀ i < n, (t.runs (k + i)).failsCleanly) ∧ (t.runs (k + n)).wins := by
  constructor
  · rintro ⟨fuel, done⟩
    induction fuel generalizing k failloc with
    | zero => cases done
    | succ fuel ih =>
      rcases (childLoop_failloc_succ fuel on).mp done with wins | ⟨clean, later⟩
      · exact ⟨0, nofun, wins⟩
      · obtain ⟨n, before, wins⟩ := ih failloc.succ_ne_zero later
        refine ⟨n + 1, fun i hi => ?_, by rwa [Nat.add_right_comm] at wins⟩
        cases i with
        | zero => exact clean
        | succ i => rw [← Nat.add_assoc, Nat.add_right_comm]; exact before i (Nat.lt_of_succ_lt_succ hi)
  · rintro ⟨n, before, wins⟩
    induction n generalizing k failloc with
    | zero => exact ⟨1, (childLoop_failloc_succ 0 on).mpr (.inl wins)⟩
    | succ n ih =>
      obtain ⟨fuel, later⟩ := ih (k := k + 1) failloc.succ_ne_zero
        (fun i hi => by rw [Nat.add_right_comm]; exact before (i + 1) (Nat.succ_lt_succ hi))
        (by rwa [Nat.add_right_comm])
      exact ⟨fuel + 1, (childLoop_failloc_succ fuel on).mpr (.inr ⟨before 0 n.succ_pos, later⟩)⟩

theorem childLoop_benchmark_succ (fuel m : ℕ) :
    childLoop o t (fuel + 1) ⟨k, 0, m + 1⟩ = some (.exited EXIT_HACKTESTSUCCESS) ↔
      (t.runs k).wins ∧ ((t.runs k).returns → m = 0 ∨
        childLoop o t fuel ⟨k + 1, 0, m⟩ = some (.exited EXIT_HACKTESTSUCCESS)) := by
  rw [childLoop]
  cases run : t.runs k with
  | exited code => simp [Ending.wins, Ending.returns, exit_succeeds]
  | killed signal => simp [Ending.wins]
  | returned ok balanced =>
    cases ok <;> cases balanced <;> cases m <;>
      simp [runTestContext, afterRun, Ending.wins, Ending.returns, exit, EXIT_TESTFAILED, EXIT_HACKTESTSUCCESS,
        EXIT_MEMLEAK, EXIT_TESTSUCCESS]

theorem childLoop_benchmark (m : ℕ) :
    (∃ fuel, childLoop o t fuel ⟨k, 0, m + 1⟩ = some (.exited EXIT_HACKTESTSUCCESS)) ↔
      ∀ i ≤ m, (∀ j < i, (t.runs (k + j)).returns) → (t.runs (k + i)).wins := by
  constructor
  · rintro ⟨fuel, done⟩
    induction fuel generalizing k m with
    | zero => cases done
    | succ fuel ih =>
      obtain ⟨wins, later⟩ := (childLoop_benchmark_succ fuel m).mp done
      intro i hi before
      cases i with
      | zero => exact wins
      | succ i =>
        obtain ⟨m, rfl⟩ := Nat.exists_eq_add_one.mpr (Nat.lt_of_lt_of_le i.succ_pos hi)
        rw [← Nat.add_assoc, Nat.add_right_comm]
        refine ih m ((later (before 0 i.succ_pos)).resolve_left m.succ_ne_zero) i (Nat.le_of_succ_le_succ hi)
          fun j hj => ?_
        rw [Nat.add_right_comm]
        exact before (j + 1) (Nat.succ_lt_succ hj)
  · intro each
    induction m generalizing k with
    | zero => exact ⟨1, (childLoop_benchmark_succ 0 0).mpr ⟨each 0 le_rfl nofun, fun _ => .inl rfl⟩⟩
    | succ m ih =>
      by_cases on : (t.runs k).returns
      · obtain ⟨fuel, later⟩ := ih (k := k + 1) fun i hi before => by
          rw [Nat.add_right_comm]
          refine each (i + 1) (Nat.succ_le_succ hi) fun j hj => ?_
          cases j with
          | zero => exact on
          | succ j => rw [← Nat.add_assoc, Nat.add_right_comm]; exact before j (Nat.lt_of_succ_lt_succ hj)
        exact ⟨fuel + 1, (childLoop_benchmark_succ fuel (m + 1)).mpr
          ⟨each 0 (Nat.zero_le _) nofun, fun _ => .inr later⟩⟩
      · exact ⟨1, (childLoop_benchmark_succ 0 (m + 1)).mpr
          ⟨each 0 (Nat.zero_le _) nofun, fun returns => absurd returns on⟩⟩

/-- What the runs in the child must be for the test to succeed. With `-f` and `-b` the first run may
leak, or both fail and leak. -/
def Passes (o : Options) (t : Trial) : Prop :=
  if o.faillocTests = 0 ∧ o.benchmarkTests = 0 then (t.runs 0).wins = true
  else if (t.runs 0).returns = false then (t.runs 0).wins = true
  else (t.runs 0).failsCleanly = false ∧
    if o.faillocTests ≠ 0 then ∃ n, (∀ i < n, (t.runs (1 + i)).failsCleanly) ∧ (t.runs (1 + n)).wins
    else t.redirected = true ∧
      ∀ i < o.benchmarkTests, (∀ j < i, (t.runs (1 + j)).returns) → (t.runs (1 + i)).wins

theorem childLoop_zero_succ (fuel : ℕ) :
    childLoop o t (fuel + 1) ⟨0, 0, 0⟩ = some (.exited EXIT_HACKTESTSUCCESS) ↔
      if o.faillocTests = 0 ∧ o.benchmarkTests = 0 ∨ (t.runs 0).returns = false then (t.runs 0).wins = true
      else (t.runs 0).failsCleanly = false ∧
        if o.faillocTests ≠ 0 then
          childLoop o t fuel ⟨1, o.faillocTests, 0⟩ = some (.exited EXIT_HACKTESTSUCCESS)
        else t.redirected = true ∧
          childLoop o t fuel ⟨1, 0, o.benchmarkTests⟩ = some (.exited EXIT_HACKTESTSUCCESS) := by
  rw [childLoop]
  cases run : t.runs 0 with
  | exited code => simp [Ending.wins, Ending.returns, exit_succeeds]
  | killed signal => simp [Ending.wins, Ending.returns]
  | returned ok balanced =>
    by_cases failloc : o.faillocTests = 0 <;> by_cases benchmark : o.benchmarkTests = 0 <;>
      cases redirected : t.redirected <;> cases ok <;> cases balanced <;>
      simp [runTestContext, afterRun, failloc, benchmark, redirected, Ending.wins, Ending.returns,
        Ending.failsCleanly, exit, EXIT_TESTFAILED, EXIT_HACKTESTSUCCESS, EXIT_MEMLEAK, EXIT_TESTSUCCESS,
        EXIT_INTERNALEXIT]

theorem childLoop_passes :
    (∃ fuel, childLoop o t fuel ⟨0, 0, 0⟩ = some (.exited EXIT_HACKTESTSUCCESS)) ↔ Passes o t := by
  have first : (∃ fuel, childLoop o t fuel ⟨0, 0, 0⟩ = some (.exited EXIT_HACKTESTSUCCESS)) ↔
      ∃ fuel, childLoop o t (fuel + 1) ⟨0, 0, 0⟩ = some (.exited EXIT_HACKTESTSUCCESS) := by
    refine ⟨fun ⟨fuel, done⟩ => ?_, fun ⟨fuel, done⟩ => ⟨fuel + 1, done⟩⟩
    cases fuel with
    | zero => cases done
    | succ fuel => exact ⟨fuel, done⟩
  simp only [first, childLoop_zero_succ]
  rw [Passes]
  by_cases plain : o.faillocTests = 0 ∧ o.benchmarkTests = 0
  · simp only [if_pos plain, if_pos (Or.inl plain : _ ∨ (t.runs 0).returns = false), exists_const]
  · rw [if_neg plain]
    by_cases stops : (t.runs 0).returns = false
    · simp only [if_pos stops, if_pos (Or.inr stops : _ ∨ _), exists_const]
    · simp only [if_neg stops, if_neg (not_or.mpr ⟨plain, stops⟩), exists_and_left]
      refine and_congr_right fun _ => ?_
      by_cases failloc : o.faillocTests = 0
      · obtain ⟨m, benchmark⟩ := Nat.exists_eq_succ_of_ne_zero fun none_ => plain ⟨failloc, none_⟩
        simp only [failloc, ne_eq, not_true_eq_false, if_false, exists_and_left, benchmark, Nat.succ_eq_add_one,
          childLoop_benchmark, Nat.lt_succ_iff]
      · simp only [ne_eq, failloc, not_false_eq_true, if_true, childLoop_failloc failloc]

theorem interpret_eq_success {status : Status} :
    interpret status = EXIT_TESTSUCCESS ↔ status = .exited EXIT_HACKTESTSUCCESS := by
  cases status with
  | exited s =>
    rw [interpret, Status.exited.injEq]
    by_cases hack : s = EXIT_HACKTESTSUCCESS
    · simp only [hack, if_true]
    · refine iff_of_false ?_ hack
      rw [if_neg hack]
      split_ifs with bits
      · decide
      · rintro rfl
        exact bits (by decide)
  | signaled signal =>
    rw [interpret]
    exact iff_of_false (by unfold EXIT_SIGNAL EXIT_TESTSUCCESS; omega) nofun

/-- A test succeeds just when its child gets as far as to run it and its runs pass. -/
theorem trampolineTest_succeeds_iff (o : Options) (t : Trial) :
    (∃ fuel, trampolineTest o t fuel = some EXIT_TESTSUCCESS) ↔
      (t.forked ∧ t.waited ∧ t.sigaction ∧ t.setpgid ∧ t.limited) ∧ Passes o t := by
  rw [← childLoop_passes]
  have failed : EXIT_TESTFAILED ≠ EXIT_TESTSUCCESS := by decide
  have internal : exit EXIT_INTERNALEXIT ≠ .exited EXIT_HACKTESTSUCCESS := by decide
  have more : exit EXIT_NEEDMORERAM ≠ .exited EXIT_HACKTESTSUCCESS := by decide
  unfold trampolineTest child
  cases t.forked <;> cases t.waited <;> cases t.sigaction <;> cases t.setpgid <;> cases t.limited <;>
    simp [Option.map_eq_some_iff, interpret_eq_success, failed, internal, more]

def leaky : Trial :=
  ⟨true, true, true, true, true, true, fun ran => .returned true (ran ≠ 0), true, true⟩

example : trampolineTest ⟨0, 0, 0⟩ leaky 1 = some EXIT_MEMLEAK ∧
    trampolineTest ⟨1, 0, 0⟩ leaky 2 = some EXIT_TESTSUCCESS := by decide

end Verdicts

section Runs
variable {o : Options} {names : List Text}

theorem childLoop_mono {t : Trial} {fuel fuel' : ℕ} {l : Loop} {status : Status} (le : fuel ≤ fuel')
    (done : childLoop o t fuel l = some status) : childLoop o t fuel' l = some status := by
  induction fuel generalizing fuel' l with
  | zero => cases done
  | succ fuel ih =>
    obtain ⟨fuel', rfl⟩ := Nat.exists_eq_add_one.mpr (Nat.lt_of_lt_of_le fuel.succ_pos le)
    rw [childLoop] at done ⊢
    cases run : t.runs l.ran with
    | exited code => rwa [run] at done
    | killed signal => rwa [run] at done
    | returned ok balanced =>
      rw [run] at done
      simp only at done ⊢
      cases next : afterRun o t l (runTestContext ok balanced) with
      | error status => rwa [next] at done
      | ok l' =>
        rw [next] at done
        simp only at done ⊢
        by_cases on : l'.failloc ≠ 0 ∨ l'.benchmarks ≠ 0
        · rw [if_pos on] at done ⊢
          exact ih (Nat.le_of_succ_le_succ le) done
        · rwa [if_neg on] at done ⊢

theorem runTest_eq (t : Trial) (fuel : ℕ) : runTest o t fuel = trampolineTest o t fuel := by
  have same : (fun ret => if ret = EXIT_TESTSUCCESS then ret else if EXIT_SIGNAL ≤ ret then ret
      else if ret = EXIT_MCHECK then EXIT_MCHECKHACK else ret) = id := by
    funext ret
    split_ifs with _ below here
    · rfl
    · rfl
    · exact absurd (here ▸ by decide : EXIT_SIGNAL ≤ ret) below
    · rfl
  rw [runTest, same, Option.map_id_apply]

theorem trampolineTest_mono {t : Trial} {fuel fuel' ret : ℕ} (le : fuel ≤ fuel')
    (done : trampolineTest o t fuel = some ret) : trampolineTest o t fuel' = some ret := by
  unfold trampolineTest child at done ⊢
  split_ifs at done ⊢ <;> first
    | exact done
    | obtain ⟨status, ended, result⟩ := Option.map_eq_some_iff.mp done
      rw [childLoop_mono le ended, Option.map_some, result]

section Cons
variable {fuel : ℕ} {c : Counts} {test : DeclaredTest} {t : Trial} {suite : List (DeclaredTest × Trial)}

theorem runTestsuites_skips (skip : testShouldRun o names test = false) :
    runTestsuites o names fuel c ((test, t) :: suite) =
      runTestsuites o names fuel { c with disabled := c.disabled + 1 } suite := by
  rw [runTestsuites, if_pos (by rw [skip]; exact Bool.false_ne_true)]

theorem runTestsuites_out (should : testShouldRun o names test = true) (out : t.entered = false) :
    runTestsuites o names fuel c ((test, t) :: suite) = some (false, { c with tests := c.tests + 1 }) := by
  rw [runTestsuites, if_neg (not_not.mpr should)]
  exact if_pos (by rw [out]; exact Bool.false_ne_true)

theorem runTestsuites_runs (should : testShouldRun o names test = true) (entered : t.entered = true) :
    runTestsuites o names fuel c ((test, t) :: suite) = (trampolineTest o t fuel).bind fun ret =>
      if won test.expectedResult ret then
        if t.restored then runTestsuites o names fuel ⟨c.wins + 1, c.tests + 1, c.disabled⟩ suite
        else some (false, ⟨c.wins + 1, c.tests + 1, c.disabled⟩)
      else some (false, { c with tests := c.tests + 1 }) := by
  rw [runTestsuites, if_neg (not_not.mpr should), ← runTest_eq]
  exact if_neg (not_not.mpr entered)

end Cons

theorem runTestsuites_mono {fuel fuel' : ℕ} {c : Counts} {suite : List (DeclaredTest × Trial)} {r : Bool × Counts}
    (le : fuel ≤ fuel') (done : runTestsuites o names fuel c suite = some r) :
    runTestsuites o names fuel' c suite = some r := by
  induction suite generalizing c with
  | nil => exact done
  | cons p suite ih =>
    obtain ⟨test, t⟩ := p
    cases should : testShouldRun o names test with
    | false =>
      rw [runTestsuites_skips should] at done ⊢
      exact ih done
    | true =>
      cases entered : t.entered with
      | false => rwa [runTestsuites_out should entered] at done ⊢
      | true =>
        rw [runTestsuites_runs should entered] at done ⊢
        obtain ⟨ret, ended, result⟩ := Option.bind_eq_some_iff.mp done
        rw [trampolineTest_mono le ended, Option.bind_some]
        split_ifs at result ⊢
        · exact ih result
        · exact result
        · exact result

def AsExpected (o : Options) (p : DeclaredTest × Trial) : Prop :=
  p.2.entered ∧ ∃ fuel ret, trampolineTest o p.2 fuel = some ret ∧ won p.1.expectedResult ret

/-- Those that are started if all come out as expected. -/
def started : List (DeclaredTest × Trial) → List (DeclaredTest × Trial)
  | [] => []
  | p :: rest => p :: if p.2.restored then started rest else []

def selected (o : Options) (names : List Text) (suite : List (DeclaredTest × Trial)) :
    List (DeclaredTest × Trial) := suite.filter fun p => testShouldRun o names p.1

theorem runTestsuites_append (fuel : ℕ) (c : Counts) (suite rest : List (DeclaredTest × Trial)) :
    runTestsuites o names fuel c (suite ++ rest) = (runTestsuites o names fuel c suite).bind fun r =>
      if r.1 then runTestsuites o names fuel r.2 rest else some r := by
  induction suite generalizing c with
  | nil => rfl
  | cons p suite ih =>
    obtain ⟨test, t⟩ := p
    rw [List.cons_append]
    cases should : testShouldRun o names test with
    | false =>
      rw [runTestsuites_skips should, runTestsuites_skips should]
      exact ih _
    | true =>
      cases entered : t.entered with
      | false =>
        rw [runTestsuites_out should entered, runTestsuites_out should entered]
        rfl
      | true =>
        rw [runTestsuites_runs should entered, runTestsuites_runs should entered, Option.bind_assoc]
        congr 1
        funext ret
        split_ifs
        · exact ih _
        · rfl
        · rfl

/-- To the end of the suites it is as if they were one. -/
theorem runTests_eq (fuel : ℕ) (c : Counts) (suites : List (List (DeclaredTest × Trial))) :
    runTests o names fuel c suites = (runTestsuites o names fuel c suites.flatten).map Prod.snd := by
  induction suites generalizing c with
  | nil => rfl
  | cons suite suites ih =>
    rw [List.flatten_cons, runTestsuites_append, runTests, Option.map_bind]
    congr 1
    funext r
    obtain ⟨on, c⟩ := r
    cases on with
    | true => exact ih c
    | false => rfl

/-- No test lost: it takes that all that are started come out as expected. -/
theorem runTestsuites_wins (suite : List (DeclaredTest × Trial)) (c : Counts) (even : c.wins = c.tests) (n : ℕ) :
    (∃ fuel r, runTestsuites o names fuel c suite = some r ∧ r.2.wins = r.2.tests ∧ r.2.tests = n) ↔
      (∀ p ∈ started (selected o names suite), AsExpected o p) ∧
        c.tests + (started (selected o names suite)).length = n := by
  induction suite generalizing c with
  | nil => simp [runTestsuites, selected, started, even]
  | cons p suite ih =>
    obtain ⟨test, t⟩ := p
    cases should : testShouldRun o names test with
    | false =>
      have here : selected o names ((test, t) :: suite) = selected o names suite :=
        List.filter_cons_of_neg (by rw [should]; exact Bool.false_ne_true)
      simp only [runTestsuites_skips should, here]
      exact ih _ even
    | true =>
      have here : selected o names ((test, t) :: suite) = (test, t) :: selected o names suite :=
        List.filter_cons_of_pos should
      rw [here, started, List.forall_mem_cons, List.length_cons]
      cases entered : t.entered with
      | false =>
        refine iff_of_false ?_ fun ⟨⟨now, _⟩, _⟩ => by simp [AsExpected, entered] at now
        rintro ⟨fuel, r, done, wins, -⟩
        rw [runTestsuites_out should entered] at done
        obtain rfl := Option.some.inj done
        exact absurd (even.symm.trans wins) c.tests.succ_ne_self.symm
      | true =>
        simp only [runTestsuites_runs should entered]
        constructor
        · rintro ⟨fuel, r, done, wins, count⟩
          obtain ⟨ret, ended, result⟩ := Option.bind_eq_some_iff.mp done
          by_cases out : won test.expectedResult ret
          · have now : AsExpected o (test, t) := ⟨entered, fuel, ret, ended, out⟩
            rw [if_pos out] at result
            cases restored : t.restored with
            | true =>
              rw [restored, if_pos rfl] at result
              obtain ⟨all, count⟩ := (ih ⟨c.wins + 1, c.tests + 1, c.disabled⟩ (congrArg (· + 1) even)).mp
                ⟨fuel, r, result, wins, count⟩
              exact ⟨⟨now, all⟩, by simpa [Nat.add_assoc, Nat.add_comm] using count⟩
            | false =>
              rw [restored, if_neg Bool.false_ne_true] at result
              obtain rfl := Option.some.inj result
              exact ⟨⟨now, nofun⟩, by simpa using count⟩
          · rw [if_neg out] at result
            obtain rfl := Option.some.inj result
            exact absurd (even.symm.trans wins) c.tests.succ_ne_self.symm
        · rintro ⟨⟨⟨-, fuel, ret, ended, out⟩, all⟩, count⟩
          cases restored : t.restored with
          | true =>
            rw [restored] at all count
            obtain ⟨fuel', r, done, wins, tests⟩ :=
              (ih ⟨c.wins + 1, c.tests + 1, c.disabled⟩ (congrArg (· + 1) even)).mpr
                ⟨all, by simpa [Nat.add_assoc, Nat.add_comm] using count⟩
            refine ⟨max fuel fuel', r, ?_, wins, tests⟩
            rw [trampolineTest_mono (le_max_left fuel fuel') ended, Option.bind_some, if_pos out, if_pos rfl]
            exact runTestsuites_mono (le_max_right fuel fuel') done
          | false =>
            rw [restored] at count
            refine ⟨fuel, (false, ⟨c.wins + 1, c.tests + 1, c.disabled⟩), ?_, congrArg (· + 1) even,
              by simpa using count⟩
            rw [ended, Option.bind_some, if_pos out, if_neg Bool.false_ne_true]

/-- The runs of the tests as they must be for the runner to succeed: some is started, as many as were
named if any were, and all that are come out as expected. -/
structure Succeeds (o : Options) (names : List Text) (tests : List (DeclaredTest × Trial)) : Prop where
  some_ : tests ≠ []
  named : names = [] ∨ tests.length = names.length
  expected : ∀ p ∈ tests, AsExpected o p

theorem verdict_iff {c : Counts} :
    verdict names c ↔ (names = [] ∨ c.tests = names.length) ∧ c.tests ≠ 0 ∧ c.wins = c.tests := by
  rw [verdict]
  split_ifs with odd none_
  · exact iff_of_false id fun ⟨named, _⟩ => named.elim odd.1 odd.2
  · exact iff_of_false id fun ⟨_, some_, _⟩ => some_ none_
  · rw [decide_eq_true_iff]
    have named : names = [] ∨ c.tests = names.length := by tauto
    exact ⟨fun even => ⟨named, none_, even⟩, fun ⟨_, _, even⟩ => even⟩

theorem runTests_succeeds (suites : List (List (DeclaredTest × Trial))) (n : ℕ) :
    (∃ fuel c, runTests o names fuel ⟨0, 0, 0⟩ suites = some c ∧ verdict names c ∧ c.tests = n) ↔
      Succeeds o names (started (selected o names suites.flatten)) ∧
        (started (selected o names suites.flatten)).length = n := by
  have wins := @runTestsuites_wins o names suites.flatten ⟨0, 0, 0⟩ rfl
  simp only [Nat.zero_add] at wins
  constructor
  · rintro ⟨fuel, c, done, success, rfl⟩
    rw [runTests_eq, Option.map_eq_some_iff] at done
    obtain ⟨r, done, rfl⟩ := done
    obtain ⟨named, some_, even⟩ := verdict_iff.mp success
    obtain ⟨all, length⟩ := (wins r.2.tests).mp ⟨fuel, r, done, even, rfl⟩
    rw [← length] at named some_
    exact ⟨⟨List.length_pos_iff_ne_nil.mp (Nat.pos_of_ne_zero some_), named, all⟩, length⟩
  · rintro ⟨⟨some_, named, all⟩, rfl⟩
    obtain ⟨fuel, r, done, even, count⟩ := (wins _).mpr ⟨all, rfl⟩
    refine ⟨fuel, r.2, by rw [runTests_eq, done, Option.map_some], verdict_iff.mpr ?_, count⟩
    rw [count]
    exact ⟨named, Nat.ne_of_gt (List.length_pos_iff_ne_nil.mpr some_), count ▸ even⟩

def Startup.Ready (s : Startup) : Prop := s.libdankVercheck ∧ s.initLogging ∧ s.initNcurses ∧ s.getcwd

end Runs

end Libdank.Cunit
