import Libdank.Magic.Coprimes

/-! What `find_coprime` makes of memory that was not filled with zeros. The exponents are counted
from what the vector happens to hold, so a prime stored counts as a factor or not as that has it. -/
namespace Libdank.Magic
open Requests

/-- What the vectors hold before makes no difference to the value returned. -/
def Independent (n : ℕ) (heap : Heap) : Prop :=
  ∀ (m m' : Leftover) (fuel fuel' : ℕ) (f f' : Found), findCoprime fuel m n heap = some f →
    findCoprime fuel' m' n heap = some f' → f.ret = f'.ret

/-- Counts that the sieve brings to 0, but to 1 for the prime `q` if there is one. -/
noncomputable def countdown (n : ℕ) (q : Option ℕ) : Leftover where
  primes := fun _ => 0
  factor := fun i => (if q = some (Nat.nth Nat.Prime i) then 1 else 0) -
    BitVec.ofNat 32 (n.factorization (Nat.nth Nat.Prime i))

theorem active_countdown {n last p : ℕ} {q : Option ℕ} :
    Active (countdown n q) n last p ↔ p.Prime ∧ p < last ∧ q = some p := by
  refine and_congr_right fun prime => and_congr_right fun _ => ?_
  have self : Nat.nth Nat.Prime (place p) = p := Nat.nth_count prime
  unfold countdown
  dsimp only
  rw [self, BitVec.sub_add_cancel]
  split
  case isTrue same => exact iff_of_true (by decide) same
  case isFalse other => exact iff_of_false (not_not.mpr rfl) other

section Sieved
variable {m : Leftover} {n last : ℕ} {s : Sieve}

theorem root_lt_left (h : Sieved m n (root n) last s) (pos : 0 < n) (more : 1 < s.n) :
    root n < s.n := by
  have divisor := Nat.minFac_prime more.ne'
  have above := ((h.sieving.dvd_left pos divisor).mp s.n.minFac_dvd).1
  have small := Nat.minFac_le h.sieving.pos
  have := h.finished
  omega

theorem stored_of_le (h : Sieved m n (root n) last s) (pos : 0 < n) {p q : ℕ} (prime : p.Prime)
    (divides : p ∣ n) (le : q ≤ p) (small : q ≤ root n) : q < last := by
  rcases h.finished with past | one
  · omega
  · have none_ := (h.sieving.dvd_left pos prime).not.mp (by
      rw [one]
      exact prime.one_lt.not_ge ∘ Nat.le_of_dvd one_pos)
    rw [not_and] at none_
    have : ¬ last ≤ p := fun above => none_ above divides
    omega

theorem root_free (h : Sieved m n (root n) last s) (pos : 0 < n)
    (free : ∀ p, Active m n last p → ¬ p ∣ root n) :
    (s.finish (root n)).blocks (root n) = false := by
  rw [Bool.eq_false_iff, Ne, h.blocks_iff]
  rintro (⟨p, active, divides⟩ | ⟨more, divides⟩)
  · exact free p active divides
  · have large := root_lt_left h pos more
    have small := Nat.le_of_dvd (root_pos pos) divides
    omega

theorem select_root (h : Sieved m n (root n) last s) (pos : 0 < n)
    (free : ∀ p, Active m n last p → ¬ p ∣ root n) :
    (s.finish (root n)).select (root n) n = root n := by
  rcases Nat.lt_or_ge n 2 with one | two
  · obtain rfl : n = 1 := by omega
    have same : root 1 = 1 := by decide
    rw [same]
    rfl
  · have := root_pos pos
    have := two_mul_root_le two
    exact select_sqr (root_pos pos) (by omega) (root_free h pos free)

theorem exists_free (h : Sieved m n (root n) last s) (pos : 0 < n) {q : ℕ} (prime : q.Prime)
    (divides : q ∣ root n) (only : ∀ p, Active m n last p → p = q) :
    ∃ x, root n ≤ x ∧ x < n ∧ (s.finish (root n)).blocks x = false := by
  have some_ := Nat.le_of_dvd (root_pos pos) divides
  have two := prime.two_le
  have half := two_mul_root_le (le_trans two (le_trans some_ (Nat.div_le_self _ _)))
  have free : ∀ x, ¬ q ∣ x → ¬ (1 < s.n ∧ s.n ∣ x) → (s.finish (root n)).blocks x = false := by
    intro x other rest
    rw [Bool.eq_false_iff, Ne, h.blocks_iff]
    rintro (⟨p, active, px⟩ | both)
    · exact other (only p active ▸ px)
    · exact rest both
  have step : ∀ d, ¬ q ∣ d → ¬ q ∣ root n + d := fun d other => mt (Nat.dvd_add_right divides).mp other
  by_cases next : s.n = root n + 1
  case neg =>
    refine ⟨root n + 1, by omega, by omega, free _ (step 1 prime.not_dvd_one) fun both => next ?_⟩
    have large := root_lt_left h pos both.1
    have small := Nat.le_of_dvd (Nat.succ_pos _) both.2
    omega
  case pos =>
    -- what is left divides the modulus, which is then twice as large, but not the numbers that follow
    have more : 2 * (root n + 1) ≤ n := by
      obtain ⟨k, whole⟩ := h.sieving.left_dvd pos
      rw [next] at whole
      have many : 2 ≤ k := by
        by_contra few
        have at_most : (root n + 1) * k ≤ (root n + 1) * 1 := Nat.mul_le_mul_left _ (by omega)
        omega
      calc 2 * (root n + 1) = (root n + 1) * 2 := Nat.mul_comm _ _
        _ ≤ (root n + 1) * k := Nat.mul_le_mul_left _ many
        _ = n := whole.symm
    have rest : ∀ d, 0 < d → d ≤ 2 → ¬ (1 < s.n ∧ s.n ∣ root n + 1 + d) := by
      rintro d dpos small ⟨-, left⟩
      rw [next] at left
      have := Nat.le_of_dvd dpos ((Nat.dvd_add_right (dvd_refl _)).mp left)
      omega
    by_cases even : q = 2
    · exact ⟨root n + 3, by omega, by omega, free _ (step 3 (by subst even; decide)) (rest 2 (by decide) (le_refl 2))⟩
    · refine ⟨root n + 2, by omega, by omega, free _ (step 2 fun twice => even ?_) (rest 1 one_pos (by decide))⟩
      exact (Nat.prime_dvd_prime_iff_eq prime Nat.prime_two).mp twice

theorem select_ne_root (h : Sieved m n (root n) last s) (pos : 0 < n) {q : ℕ} (divides : q ∣ root n)
    (active : Active m n last q) (only : ∀ p, Active m n last p → p = q) :
    (s.finish (root n)).select (root n) n ≠ root n := by
  obtain ⟨x, above, below, free⟩ := exists_free h pos active.1 divides only
  have unblocked := select_free (root_pos pos) above below free
  intro same
  rw [same, (h.blocks_iff (root n)).mpr (.inl ⟨q, active, divides⟩)] at unblocked
  cases unblocked

end Sieved

/-- What the vectors hold before makes no difference just where all primes of the modulus are smaller
than those of its root. -/
theorem findCoprime_independent_iff (n : ℕ) (pos : 1 ≤ n) (fits : n < 2 ^ 32) (heap : Heap)
    (served : Served heap) :
    Independent n heap ↔ ∀ p q, p.Prime → q.Prime → p ∣ n →
      q ∣ (sqrtu32 (UInt32.ofNat n)).toNat → p < q := by
  have sqr : (sqrtu32 (UInt32.ofNat n)).toNat = root n := by
    rw [toNat_sqrtu32, UInt32.toNat_ofNat_of_lt' fits]
    rfl
  rw [sqr]
  constructor
  · intro independent p q pp qp divides inside
    by_contra large
    -- one run finds that no prime counts, the other that `q` alone does
    obtain ⟨last, s, sieved, runs⟩ := findCoprime_runs pos fits served (countdown n none)
    obtain ⟨last', s', sieved', runs'⟩ := findCoprime_runs pos fits served (countdown n (some q))
    have first : (s.finish (root n)).select (root n) n = root n := by
      apply select_root sieved pos
      intro p active
      cases (active_countdown.mp active).2.2
    have second : (s'.finish (root n)).select (root n) n ≠ root n := by
      have stored := stored_of_le sieved' pos pp divides (Nat.not_lt.mp large)
        (Nat.le_of_dvd (root_pos pos) inside)
      refine select_ne_root sieved' pos inside (active_countdown.mpr ⟨qp, stored, rfl⟩) fun p active => ?_
      exact (Option.some.inj (active_countdown.mp active).2.2).symm
    have same := independent _ _ _ _ _ _ ((runs _ ⟨0, false⟩).2 (le_refl _))
      ((runs' _ ⟨0, false⟩).2 (le_refl _))
    exact second (same.symm.trans first)
  · intro smaller
    have value : ∀ m fuel f, findCoprime fuel m n heap = some f → f.ret = root n := by
      intro m fuel f ended
      obtain ⟨last, s, sieved, runs⟩ := findCoprime_runs pos fits served m
      rw [(runs fuel f).1 ended]
      apply select_root sieved pos
      intro p active inside
      obtain ⟨q, prime, divides, le⟩ := sieved.sieving.reached p active.1 active.2.1
      exact absurd (smaller q p prime active.1 divides inside) (Nat.not_lt.mpr le)
    intro m m' fuel fuel' f f' ended ended'
    rw [value m fuel f ended, value m' fuel' f' ended']

/-- Only 2 and 3 divide 108, and the root is 13. -/
theorem findCoprime_independent_iff_108 : Independent 108 ⟨[], false⟩ ↔ ∀ p q : ℕ, p.Prime → q.Prime →
    p ∣ 108 → q ∣ (sqrtu32 (UInt32.ofNat 108)).toNat → p < q :=
  findCoprime_independent_iff 108 (by decide) (by decide) _ rfl

/-- For 4, a vector that holds -2 hides the factor 2, and 2 is returned in the place of 3. -/
theorem findCoprime_leftover : ¬ Independent 4 ⟨[], false⟩ := by
  intro independent
  have clear : findCoprime 40 ⟨fun _ => 0, fun _ => 0⟩ 4 ⟨[], false⟩ = some ⟨3, false⟩ := by decide
  have dirty : findCoprime 40 ⟨fun _ => 0, fun _ => 0xfffffffe⟩ 4 ⟨[], false⟩ = some ⟨2, false⟩ := by decide
  exact absurd (independent _ _ _ _ _ _ clear dirty) (by decide)

end Libdank.Magic
