import Libdank.Magic.Sieve

/-! What `find_coprime` returns where the vector of factors was filled with zeros. The last factor
stored may be composite; it is the modulus then, and the first number tried is the answer. -/
namespace Libdank.Magic
open Requests

structure Sieved (m : Leftover) (n sqr last : ℕ) (s : Sieve) : Prop where
  sieving : Sieving m n last s
  finished : sqr < last ∨ s.n = 1
  near : last ≤ sqr + 1

def Active (m : Leftover) (n last p : ℕ) : Prop :=
  p.Prime ∧ p < last ∧ m.factor (place p) + BitVec.ofNat 32 (n.factorization p) ≠ 0

section Sieved
variable {m : Leftover} {n sqr last : ℕ} {s : Sieve}

theorem Sieving.blocks_iff (h : Sieving m n last s) (x : ℕ) :
    s.blocks x = true ↔ ∃ p, Active m n last p ∧ p ∣ x := by
  unfold Sieve.blocks
  rw [List.any_eq_true]
  constructor
  · rintro ⟨i, inside, blocks⟩
    rw [List.mem_range, h.count] at inside
    obtain ⟨p, prime, below, rfl⟩ := exists_prime_place inside
    rw [h.stored p prime below, h.factor p prime below, decide_eq_true_eq] at blocks
    exact ⟨p, ⟨prime, below, blocks.1⟩, Nat.dvd_of_mod_eq_zero blocks.2⟩
  · rintro ⟨p, ⟨prime, below, counts⟩, divides⟩
    refine ⟨place p, ?_, ?_⟩
    · rw [List.mem_range, h.count]
      exact place_lt prime below
    · rw [h.stored p prime below, h.factor p prime below, decide_eq_true_eq]
      exact ⟨counts, Nat.mod_eq_zero_of_dvd divides⟩

theorem blocks_push (s : Sieve) (sqr prime rest x : ℕ) :
    (s.push sqr prime rest 1).blocks x = true ↔ s.blocks x = true ∨ prime ∣ x := by
  unfold Sieve.blocks Sieve.push
  simp only [List.any_eq_true, List.mem_range, Nat.exists_lt_succ_right, Function.update_self,
    decide_eq_true_eq]
  refine or_congr (exists_congr fun i => and_congr_right fun below => ?_) ?_
  · rw [Function.update_of_ne below.ne, Function.update_of_ne below.ne]
  · rw [and_iff_right (by decide), Nat.dvd_iff_mod_eq_zero]

theorem Sieved.blocks_iff (h : Sieved m n sqr last s) (x : ℕ) :
    (s.finish sqr).blocks x = true ↔ (∃ p, Active m n last p ∧ p ∣ x) ∨ 1 < s.n ∧ s.n ∣ x := by
  unfold Sieve.finish
  split
  case isTrue more => rw [blocks_push, h.sieving.blocks_iff, and_iff_right more]
  case isFalse none_ => rw [h.sieving.blocks_iff, or_iff_left (fun both => none_ both.1)]

theorem Sieved.tame (h : Sieved m n sqr last s) (pos : 0 < sqr) :
    (s.finish sqr).wild = false ∧ (s.finish sqr).curprimes ≤ sqr := by
  have few : place (sqr + 1) + 2 ≤ sqr + 1 := place_add_two_le (by omega)
  have less : place last ≤ place (sqr + 1) := Nat.count_monotone _ h.near
  have count := h.sieving.count
  unfold Sieve.finish
  split
  · refine ⟨?_, ?_⟩
    · rw [Sieve.push, h.sieving.tame, Bool.false_or, decide_eq_false_iff_not]
      omega
    · rw [Sieve.push]
      dsimp only
      omega
  · exact ⟨h.sieving.tame, by omega⟩

theorem select_pos (s : Sieve) (sqr n : ℕ) : 1 ≤ s.select sqr n := by
  have last : ∀ ret : ℕ, 1 ≤ if ret = 0 then 1 else ret := by
    intro ret
    split <;> omega
  exact last _

theorem select_first {s : Sieve} (pos : 0 < sqr) {r : ℕ}
    (first : (List.range' sqr (n - sqr)).find? (fun cur => !s.blocks cur) = some r) :
    s.select sqr n = r := by
  have inside := List.mem_range'_1.mp (List.mem_of_find?_eq_some first)
  have some_ : r ≠ 0 := by omega
  unfold Sieve.select
  simp only [first, Option.getD_some, if_neg some_]

theorem select_free {s : Sieve} (pos : 0 < sqr) {x : ℕ} (above : sqr ≤ x) (below : x < n)
    (free : s.blocks x = false) : s.blocks (s.select sqr n) = false := by
  obtain ⟨r, first⟩ : ∃ r, (List.range' sqr (n - sqr)).find? (fun cur => !s.blocks cur) = some r := by
    rw [← Option.isSome_iff_exists, List.find?_isSome]
    refine ⟨x, List.mem_range'_1.mpr (by omega), ?_⟩
    rw [free]
    rfl
  rw [select_first pos first]
  simpa using List.find?_some first

theorem select_sqr {s : Sieve} (pos : 0 < sqr) (below : sqr < n) (free : s.blocks sqr = false) :
    s.select sqr n = sqr := by
  apply select_first pos
  obtain ⟨k, more⟩ := Nat.exists_eq_add_one.mpr (Nat.sub_pos_of_lt below)
  rw [more, List.range'_succ, List.find?_cons, free]
  rfl

/-- A last factor that is composite is the modulus, which no prime up to `sqr` divides. -/
theorem composite_whole (h : Sieved m n (root n) last s) (pos : 0 < n) (more : 1 < s.n)
    (composite : ¬ s.n.Prime) : s.n = n ∧ last = root n + 1 := by
  have past : last = root n + 1 := by
    have := h.finished
    have := h.near
    omega
  have divisor := Nat.minFac_prime more.ne'
  have above := ((h.sieving.dvd_left pos divisor).mp s.n.minFac_dvd).1
  have square : (root n + 1) ^ 2 ≤ s.n :=
    le_trans (Nat.pow_le_pow_left (past ▸ above) 2) (Nat.minFac_sq_le_self h.sieving.pos composite)
  have bound := lt_root_succ_sq pos
  obtain ⟨k, whole⟩ := h.sieving.left_dvd pos
  have one : k = 1 := by
    have kpos : 0 < k := Nat.pos_of_mul_pos_left (whole ▸ pos)
    by_contra other
    have twice : s.n * 2 ≤ s.n * k := Nat.mul_le_mul_left _ (by omega)
    omega
  rw [one, mul_one] at whole
  exact ⟨whole.symm, past⟩

end Sieved

section Zeros
variable {m : Leftover} {n sqr last : ℕ} {s : Sieve} (zero : ∀ i, m.factor i = 0) (fits : n < 2 ^ 32)
include zero fits

theorem active_iff (pos : 0 < n) (p : ℕ) : Active m n last p ↔ p.Prime ∧ p < last ∧ p ∣ n := by
  refine and_congr_right fun prime => and_congr_right fun _ => ?_
  have less := Nat.factorization_lt p pos.ne'
  have none_ : BitVec.ofNat 32 (n.factorization p) = 0 ↔ n.factorization p = 0 := by
    rw [← BitVec.toNat_inj, BitVec.toNat_ofNat, Nat.mod_eq_of_lt (by omega)]
    rfl
  have plain : m.factor (place p) + BitVec.ofNat 32 (n.factorization p) =
      BitVec.ofNat 32 (n.factorization p) := by
    rw [zero]
    exact BitVec.zero_add _
  rw [plain, prime.dvd_iff_one_le_factorization pos.ne', ne_eq, none_]
  omega

/-- A number that is not blocked has no prime in common with the modulus, but perhaps one of a last
factor that is composite. -/
theorem coprime_or (h : Sieved m n sqr last s) (pos : 0 < n) {r : ℕ}
    (free : (s.finish sqr).blocks r = false) : Nat.Coprime r n ∨ 1 < s.n ∧ ¬ s.n.Prime := by
  have unblocked := mt (h.blocks_iff r).mpr (Bool.eq_false_iff.mp free)
  rw [not_or] at unblocked
  by_contra none_
  rw [not_or, not_and_or, not_not] at none_
  obtain ⟨p, prime, pr, pn⟩ := Nat.Prime.not_coprime_iff_dvd.mp none_.1
  rcases Nat.lt_or_ge p last with below | above
  · exact unblocked.1 ⟨p, (active_iff zero fits pos p).mpr ⟨prime, below, pn⟩, pr⟩
  · have divides := (h.sieving.dvd_left pos prime).mpr ⟨above, pn⟩
    have more : 1 < s.n := lt_of_lt_of_le prime.one_lt (Nat.le_of_dvd h.sieving.pos divides)
    have cprime := none_.2.resolve_left (not_not.mpr more)
    obtain rfl := (Nat.prime_dvd_prime_iff_eq prime cprime).mp divides
    exact unblocked.2 ⟨more, pr⟩

theorem pred_free (h : Sieved m n sqr last s) (two : 2 ≤ n) :
    (s.finish sqr).blocks (n - 1) = false := by
  have consecutive : Nat.Coprime (n - 1) n := by
    have next := Nat.coprime_self_add_right (m := n - 1) (n := 1)
    rw [Nat.sub_add_cancel (by omega)] at next
    exact next.mpr (Nat.coprime_one_right _)
  rw [Bool.eq_false_iff, Ne, h.blocks_iff]
  rintro (⟨p, active, divides⟩ | ⟨more, divides⟩)
  · obtain ⟨prime, -, pn⟩ := (active_iff zero fits (by omega) p).mp active
    exact Nat.not_coprime_of_dvd_of_dvd prime.one_lt divides pn consecutive
  · exact Nat.not_coprime_of_dvd_of_dvd more divides (h.sieving.left_dvd (by omega)) consecutive

theorem select_coprime (h : Sieved m n (root n) last s) (two : 2 ≤ n) :
    Nat.Coprime ((s.finish (root n)).select (root n) n) n := by
  have pos : 0 < n := by omega
  have rpos := root_pos pos
  have half := two_mul_root_le two
  by_cases hard : 1 < s.n ∧ ¬ s.n.Prime
  · obtain ⟨whole, past⟩ := composite_whole h pos hard.1 hard.2
    have none_ : ∀ p, p.Prime → p < last → ¬ p ∣ n := by
      intro p prime below divides
      rw [← whole] at divides
      exact absurd ((h.sieving.dvd_left pos prime).mp divides).1 (Nat.not_le.mpr below)
    have free : (s.finish (root n)).blocks (root n) = false := by
      rw [Bool.eq_false_iff, Ne, h.blocks_iff]
      rintro (⟨p, active, -⟩ | ⟨-, divides⟩)
      · obtain ⟨prime, below, pn⟩ := (active_iff zero fits pos p).mp active
        exact none_ p prime below pn
      · rw [whole] at divides
        have := Nat.le_of_dvd rpos divides
        omega
    rw [select_sqr rpos (by omega) free]
    apply Nat.coprime_of_dvd
    intro p prime divides
    apply none_ p prime
    have := Nat.le_of_dvd rpos divides
    omega
  · have above : root n ≤ n - 1 := by omega
    have free := select_free rpos above (Nat.sub_lt pos one_pos) (pred_free zero fits h two)
    exact (coprime_or zero fits h pos free).resolve_right hard

end Zeros

theorem sieve_runs {n sqr width : ℕ} (pos : 0 < n) (fits : n < 2 ^ width) (spos : 0 < sqr) (m : Leftover) :
    ∃ last s, Sieved m n sqr last s ∧
      ∀ fuel, (∀ s', sieve sqr fuel 2 (startSieve m n) = some s' → s' = s) ∧
        (sqr + width + 1 ≤ fuel → sieve sqr fuel 2 (startSieve m n) = some s) := by
  obtain ⟨last, s, ends, sieving, finished, near⟩ :=
    sieve_ends pos fits sqr (le_refl 2) (by omega : sqr + 1 - 2 ≤ sqr) (sieving_start pos) (le_refl (sqr + width + 1))
  refine ⟨last, s, ⟨sieving, finished, by omega⟩, fun fuel => ⟨fun s' ended => ?_, fun enough => ?_⟩⟩
  · have more := sieve_mono (le_max_left fuel (sqr + width + 1)) ended
    rw [sieve_mono (le_max_right fuel (sqr + width + 1)) ends] at more
    exact (Option.some.inj more).symm
  · exact sieve_mono enough ends

theorem allocate_vectors {bytes : ℕ} (some_ : bytes ≠ 0) {heap : Heap} (served : Served heap) :
    ∃ heap' heap'', allocate bytes heap = (true, heap') ∧ allocate bytes heap' = (true, heap'') := by
  obtain ⟨first, served'⟩ := allocate_served some_ heap served
  obtain ⟨second, -⟩ := allocate_served some_ (allocate bytes heap).2 served'
  exact ⟨_, _, Prod.ext first rfl, Prod.ext second rfl⟩

section Run
variable {n : ℕ} (pos : 0 < n) (fits : n < 2 ^ 32) {heap : Heap} (served : Served heap)
include pos fits served

theorem findCoprime_eq (m : Leftover) (fuel : ℕ) : findCoprime fuel m n heap =
    (sieve (root n) fuel 2 (startSieve m n)).map fun s => ⟨(s.finish (root n)).select (root n) n,
      (s.finish (root n)).wild || decide (root n < (s.finish (root n)).curprimes)⟩ := by
  have sqr : (sqrtu32 (UInt32.ofNat n)).toNat = root n := by
    rw [toNat_sqrtu32, UInt32.toNat_ofNat_of_lt' fits]
    rfl
  have rpos := root_pos pos
  have bytes : 4 * root n ≠ 0 := by omega
  obtain ⟨_, _, one, two⟩ := allocate_vectors bytes served
  simp only [findCoprime, sqr, one, two, if_true]

theorem findCoprime_runs (m : Leftover) : ∃ last s, Sieved m n (root n) last s ∧
    ∀ fuel f, (findCoprime fuel m n heap = some f → f = ⟨(s.finish (root n)).select (root n) n, false⟩) ∧
      (root n + 33 ≤ fuel →
        findCoprime fuel m n heap = some ⟨(s.finish (root n)).select (root n) n, false⟩) := by
  have rpos := root_pos pos
  obtain ⟨last, s, sieved, ran⟩ := sieve_runs pos fits rpos m
  obtain ⟨tame, bounded⟩ := sieved.tame rpos
  have unfolded := findCoprime_eq pos fits served m
  have value : ∀ fuel, sieve (root n) fuel 2 (startSieve m n) = some s →
      findCoprime fuel m n heap = some ⟨(s.finish (root n)).select (root n) n, false⟩ := by
    intro fuel ended
    rw [unfolded, ended, Option.map_some, tame, Bool.false_or, decide_eq_false (Nat.not_lt.mpr bounded)]
  refine ⟨last, s, sieved, fun fuel f => ⟨fun ended => ?_, fun enough => value fuel ((ran fuel).2 enough)⟩⟩
  obtain ⟨s', ended', -⟩ := Option.map_eq_some_iff.mp ((unfolded fuel).symm.trans ended)
  obtain rfl := (ran fuel).1 s' ended'
  rw [value fuel ended'] at ended
  exact (Option.some.inj ended).symm

end Run

/-- With zeros to count from, the result is coprime to the modulus, and the vectors are long
enough. -/
theorem findCoprime_coprime (m : Leftover) (zero : ∀ i, m.factor i = 0) (n : ℕ) (pos : 1 ≤ n)
    (fits : n < 2 ^ 32) (heap : Heap) (served : Served heap) :
    ∃ fuel r, findCoprime fuel m n heap = some ⟨r, false⟩ ∧ 1 ≤ r ∧ Nat.gcd r n = 1 := by
  obtain ⟨last, s, sieved, runs⟩ := findCoprime_runs pos fits served m
  refine ⟨root n + 33, _, (runs _ ⟨0, false⟩).2 (le_refl _), select_pos _ _ _, ?_⟩
  rcases Nat.lt_or_ge n 2 with one | two
  · obtain rfl : n = 1 := by omega
    exact Nat.gcd_one_right _
  · exact select_coprime zero fits sieved two

theorem findCoprime_coprime_six : ∃ fuel r,
    findCoprime fuel ⟨fun _ => 0, fun _ => 0⟩ 6 ⟨[], false⟩ = some ⟨r, false⟩ ∧ 1 ≤ r ∧ Nat.gcd r 6 = 1 :=
  findCoprime_coprime _ (fun _ => rfl) 6 (by decide) (by decide) _ rfl

end Libdank.Magic
