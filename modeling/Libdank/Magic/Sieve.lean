import Libdank.Foundation.Requests
import Libdank.Magic.SquareRoots
import Mathlib.NumberTheory.PrimeCounting

/-! The search for a coprime modulus of `utils/magic.c`, and what its sieve finds out. The sieve
stores the primes one after the other, with how often each of them divides the modulus. -/
namespace Libdank.Magic
open Requests

structure Leftover where
  primes : ℕ → ℕ
  factor : ℕ → BitVec 32

/-- What is left of the modulus, and the two vectors; `wild` records a store past their end. -/
structure Sieve where
  n : ℕ
  curprimes : ℕ
  primes : ℕ → ℕ
  factor : ℕ → BitVec 32
  wild : Bool

def startSieve (m : Leftover) (n : ℕ) : Sieve := ⟨n, 0, m.primes, m.factor, false⟩

def Sieve.divides (s : Sieve) (cur : ℕ) : Bool :=
  (List.range s.curprimes).any fun prit => cur % s.primes prit = 0

def Sieve.push (s : Sieve) (sqr prime n : ℕ) (count : BitVec 32) : Sieve where
  n := n
  curprimes := s.curprimes + 1
  primes := Function.update s.primes s.curprimes prime
  factor := Function.update s.factor s.curprimes count
  wild := s.wild || decide (sqr ≤ s.curprimes)

/-- `do{ ++factor[curprimes]; n /= cur; }while((n > 1) && (n % cur == 0))` -/
def strip (cur : ℕ) : ℕ → ℕ → BitVec 32 → Option (ℕ × BitVec 32)
  | 0, _, _ => none
  | fuel + 1, n, count =>
    if 1 < n / cur ∧ n / cur % cur = 0 then strip cur fuel (n / cur) (count + 1)
    else some (n / cur, count + 1)

/-- `for(cur = 2 ; cur <= sqr && n > 1 ; ++cur)` -/
def sieve (sqr : ℕ) : ℕ → ℕ → Sieve → Option Sieve
  | 0, _, _ => none
  | fuel + 1, cur, s =>
    if cur ≤ sqr ∧ 1 < s.n then
      if s.divides cur then sieve sqr fuel (cur + 1) s
      else if s.n % cur = 0 then do
        let (n, count) ← strip cur fuel s.n (s.factor s.curprimes)
        sieve sqr fuel (cur + 1) (s.push sqr cur n count)
      else sieve sqr fuel (cur + 1) (s.push sqr cur s.n (s.factor s.curprimes))
    else some s

def Sieve.finish (s : Sieve) (sqr : ℕ) : Sieve := if 1 < s.n then s.push sqr s.n 1 1 else s

def Sieve.blocks (s : Sieve) (cur : ℕ) : Bool :=
  (List.range s.curprimes).any fun i => s.factor i ≠ 0 ∧ cur % s.primes i = 0

/-- The two searches, upwards from `sqr` and downwards from below it. -/
def Sieve.select (s : Sieve) (sqr modulus : ℕ) : ℕ :=
  let ret := ((List.range' sqr (modulus - sqr)).find? fun cur => !s.blocks cur).getD 0
  let ret :=
    if ret = 0 then
      if ((List.range' 2 (sqr - 2)).reverse.find? fun cur => !s.blocks cur).isSome then s.curprimes
      else ret
    else ret
  if ret = 0 then 1 else ret

/-- The value returned, and whether an index was not below the length of the vectors; the scans
read what is below `curprimes`. -/
structure Found where
  ret : ℕ
  wild : Bool
deriving DecidableEq, Repr

def findCoprime (fuel : ℕ) (m : Leftover) (n : ℕ) (heap : Heap) : Option Found :=
  let sqr := (sqrtu32 (UInt32.ofNat n)).toNat
  let (granted, heap) := allocate (4 * sqr) heap
  if granted then
    let (granted, _) := allocate (4 * sqr) heap
    if granted then
      (sieve sqr fuel 2 (startSieve m n)).map fun s =>
        ⟨(s.finish sqr).select sqr n, (s.finish sqr).wild || decide (sqr < (s.finish sqr).curprimes)⟩
    else some ⟨1, false⟩
  else some ⟨1, false⟩

theorem strip_mono {cur : ℕ} {fuel fuel' : ℕ} (le : fuel ≤ fuel') :
    ∀ {n : ℕ} {count : BitVec 32} {r : ℕ × BitVec 32}, strip cur fuel n count = some r →
      strip cur fuel' n count = some r := by
  induction fuel generalizing fuel' with
  | zero => nofun
  | succ fuel ih =>
    intro n count r ended
    obtain ⟨fuel', rfl⟩ := Nat.exists_eq_add_one.mpr (lt_of_lt_of_le (Nat.succ_pos fuel) le)
    rw [strip] at ended ⊢
    split at ended
    case isTrue more =>
      rw [if_pos more]
      exact ih (Nat.le_of_succ_le_succ le) ended
    case isFalse less => rwa [if_neg less]

theorem sieve_mono {sqr fuel fuel' : ℕ} (le : fuel ≤ fuel') :
    ∀ {cur : ℕ} {s s' : Sieve}, sieve sqr fuel cur s = some s' → sieve sqr fuel' cur s = some s' := by
  induction fuel generalizing fuel' with
  | zero => nofun
  | succ fuel ih =>
    intro cur s s' ended
    obtain ⟨fuel', rfl⟩ := Nat.exists_eq_add_one.mpr (lt_of_lt_of_le (Nat.succ_pos fuel) le)
    have less := Nat.le_of_succ_le_succ le
    rw [sieve] at ended ⊢
    by_cases go : cur ≤ sqr ∧ 1 < s.n
    case neg => rwa [if_neg go] at ended ⊢
    rw [if_pos go] at ended ⊢
    by_cases composite : s.divides cur = true
    · rw [if_pos composite] at ended ⊢
      exact ih less ended
    rw [if_neg composite] at ended ⊢
    by_cases divides : s.n % cur = 0
    · rw [if_pos divides, Option.bind_eq_bind, Option.bind_eq_some_iff] at ended
      obtain ⟨⟨n, count⟩, stripped, rest⟩ := ended
      rw [if_pos divides, strip_mono less stripped]
      exact ih less rest
    · rw [if_neg divides] at ended ⊢
      exact ih less ended

def place (p : ℕ) : ℕ := Nat.count Nat.Prime p

theorem exists_prime_place {i cur : ℕ} (below : i < place cur) :
    ∃ p, p.Prime ∧ p < cur ∧ place p = i :=
  ⟨Nat.nth Nat.Prime i, Nat.prime_nth_prime i, Nat.nth_lt_of_lt_count below,
    Nat.count_nth_of_infinite Nat.infinite_setOfPred_prime i⟩

theorem place_lt {p cur : ℕ} (prime : p.Prime) (below : p < cur) : place p < place cur :=
  Nat.count_strict_mono prime below

theorem place_add_two_le {cur : ℕ} (two : 2 ≤ cur) : place cur + 2 ≤ cur := by
  induction cur, two using Nat.le_induction with
  | base => decide
  | succ cur two ih =>
    rw [place, Nat.count_succ]
    have : (if cur.Prime then 1 else 0) ≤ 1 := by split <;> omega
    change place cur + _ + 2 ≤ _
    omega

theorem strip_spec {p : ℕ} (prime : p.Prime) {fuel n : ℕ} (pos : 0 < n) (divides : p ∣ n)
    (enough : n < 2 ^ fuel) (count : BitVec 32) :
    ∃ rest, strip p fuel n count = some (rest, count + BitVec.ofNat 32 (n.factorization p)) ∧ 0 < rest ∧
      ∀ q, rest.factorization q = if q = p then 0 else n.factorization q := by
  induction fuel generalizing n count with
  | zero => exact absurd (Nat.lt_one_iff.mp enough) pos.ne'
  | succ fuel ih =>
    obtain ⟨k, rfl⟩ := divides
    have two := prime.two_le
    have kpos : 0 < k := Nat.pos_of_mul_pos_left pos
    have quotient : p * k / p = k := Nat.mul_div_cancel_left k prime.pos
    have once : (p * k).factorization = Finsupp.single p 1 + k.factorization := by
      rw [Nat.factorization_mul prime.ne_zero kpos.ne', prime.factorization]
    have counted : BitVec.ofNat 32 ((p * k).factorization p) = 1 + BitVec.ofNat 32 (k.factorization p) := by
      rw [once, Finsupp.add_apply, Finsupp.single_eq_same, BitVec.ofNat_add]
      rfl
    have other : ∀ q, q ≠ p → (p * k).factorization q = k.factorization q := by
      intro q ne
      rw [once, Finsupp.add_apply, Finsupp.single_eq_of_ne ne, Nat.zero_add]
    rw [strip, quotient]
    by_cases more : p ∣ k
    · have shorter : k < 2 ^ fuel := by
        rw [pow_succ] at enough
        nlinarith
      have large : 1 < k := lt_of_lt_of_le two (Nat.le_of_dvd kpos more)
      obtain ⟨rest, stripped, rpos, left⟩ := ih kpos more shorter (count + 1)
      refine ⟨rest, ?_, rpos, fun q => ?_⟩
      · rw [if_pos ⟨large, Nat.mod_eq_zero_of_dvd more⟩, stripped, counted, BitVec.add_assoc]
      · rw [left]
        split
        case isTrue => rfl
        case isFalse ne => exact (other q ne).symm
    · have none_ := Nat.factorization_eq_zero_of_not_dvd more
      refine ⟨k, ?_, kpos, fun q => ?_⟩
      · rw [if_neg (fun both => more (Nat.dvd_of_mod_eq_zero both.2)), counted, none_]
        rfl
      · split
        case isTrue same => rw [same, none_]
        case isFalse ne => exact (other q ne).symm

/-- What the sieve knows once it has come to `cur`. -/
structure Sieving (m : Leftover) (modulus cur : ℕ) (s : Sieve) : Prop where
  pos : 0 < s.n
  left : ∀ p, p.Prime → s.n.factorization p = if p < cur then 0 else modulus.factorization p
  count : s.curprimes = place cur
  stored : ∀ p, p.Prime → p < cur → s.primes (place p) = p
  factor : ∀ p, p.Prime → p < cur →
    s.factor (place p) = m.factor (place p) + BitVec.ofNat 32 (modulus.factorization p)
  fresh : ∀ i, place cur ≤ i → s.factor i = m.factor i
  reached : ∀ p, p.Prime → p < cur → ∃ q, q.Prime ∧ q ∣ modulus ∧ p ≤ q
  tame : s.wild = false

section Sieving
variable {m : Leftover} {modulus cur : ℕ} {s : Sieve}

theorem sieving_start (pos : 0 < modulus) : Sieving m modulus 2 (startSieve m modulus) where
  pos := pos
  left p prime := (if_neg (Nat.not_lt.mpr prime.two_le)).symm
  count := by
    change 0 = _
    decide
  stored p prime below := absurd below (Nat.not_lt.mpr prime.two_le)
  factor p prime below := absurd below (Nat.not_lt.mpr prime.two_le)
  fresh _ _ := rfl
  reached p prime below := absurd below (Nat.not_lt.mpr prime.two_le)
  tame := rfl

theorem Sieving.divides_iff (h : Sieving m modulus cur s) (two : 2 ≤ cur) :
    s.divides cur = true ↔ ¬ cur.Prime := by
  unfold Sieve.divides
  rw [List.any_eq_true]
  constructor
  · rintro ⟨i, inside, divides⟩
    rw [List.mem_range, h.count] at inside
    obtain ⟨p, prime, below, rfl⟩ := exists_prime_place inside
    rw [h.stored p prime below, decide_eq_true_eq] at divides
    intro cprime
    rcases (Nat.dvd_prime cprime).mp (Nat.dvd_of_mod_eq_zero divides) with one | same
    · exact prime.ne_one one
    · exact below.ne same
  · intro composite
    have prime := Nat.minFac_prime (by omega : cur ≠ 1)
    have below : cur.minFac < cur :=
      lt_of_le_of_ne (Nat.minFac_le (by omega)) (fun same => composite (same ▸ prime))
    refine ⟨place cur.minFac, ?_, ?_⟩
    · rw [List.mem_range, h.count]
      exact place_lt prime below
    · rw [h.stored _ prime below, decide_eq_true_eq]
      exact Nat.mod_eq_zero_of_dvd cur.minFac_dvd

theorem Sieving.skip (h : Sieving m modulus cur s) (composite : ¬ cur.Prime) :
    Sieving m modulus (cur + 1) s := by
  have same : place (cur + 1) = place cur := by
    rw [place, Nat.count_succ, if_neg composite]
    rfl
  have below : ∀ p, p.Prime → (p < cur + 1 ↔ p < cur) := by
    intro p prime
    have : p ≠ cur := fun eq => composite (eq ▸ prime)
    omega
  refine ⟨h.pos, fun p prime => ?_, h.count.trans same.symm, fun p prime lt => ?_, fun p prime lt => ?_,
    fun i le => h.fresh i (same ▸ le), fun p prime lt => ?_, h.tame⟩
  · rw [h.left p prime, if_congr (below p prime) rfl rfl]
  · exact h.stored p prime ((below p prime).mp lt)
  · exact h.factor p prime ((below p prime).mp lt)
  · exact h.reached p prime ((below p prime).mp lt)

theorem Sieving.dvd_left (h : Sieving m modulus cur s) (mpos : 0 < modulus) {p : ℕ} (prime : p.Prime) :
    p ∣ s.n ↔ cur ≤ p ∧ p ∣ modulus := by
  rw [prime.dvd_iff_one_le_factorization h.pos.ne', prime.dvd_iff_one_le_factorization mpos.ne',
    h.left p prime]
  split <;> omega

theorem Sieving.left_dvd (h : Sieving m modulus cur s) (mpos : 0 < modulus) : s.n ∣ modulus := by
  rw [← Nat.factorization_prime_le_iff_dvd h.pos.ne' mpos.ne']
  intro p prime
  rw [h.left p prime]
  split <;> omega

theorem Sieving.push (h : Sieving m modulus cur s) (mpos : 0 < modulus) (prime : cur.Prime) {sqr : ℕ}
    (inside : cur ≤ sqr) (more : 1 < s.n) {n : ℕ} {count : BitVec 32} (npos : 0 < n)
    (left : ∀ q, n.factorization q = if q = cur then 0 else s.n.factorization q)
    (counted : count = s.factor s.curprimes + BitVec.ofNat 32 (s.n.factorization cur)) :
    Sieving m modulus (cur + 1) (s.push sqr cur n count) := by
  have next : place (cur + 1) = place cur + 1 := by
    rw [place, Nat.count_succ, if_pos prime]
    rfl
  have other : ∀ p, p.Prime → p < cur → place p ≠ s.curprimes := fun p hp below => by
    rw [h.count]
    exact (place_lt hp below).ne
  refine ⟨npos, fun p hp => ?_, ?_, fun p hp lt => ?_, fun p hp lt => ?_, fun i le => ?_, fun p hp lt => ?_, ?_⟩
  · rw [Sieve.push, left, h.left p hp]
    rcases lt_trichotomy p cur with below | rfl | above
    · rw [if_neg below.ne, if_pos below, if_pos (by omega)]
    · rw [if_pos rfl, if_pos (by omega)]
    · rw [if_neg above.ne', if_neg (by omega), if_neg (by omega)]
  · rw [next, ← h.count]
    rfl
  · rcases Nat.lt_succ_iff_lt_or_eq.mp lt with below | rfl
    · exact (Function.update_of_ne (other p hp below) _ _).trans (h.stored p hp below)
    · rw [← h.count]
      exact Function.update_self ..
  · rcases Nat.lt_succ_iff_lt_or_eq.mp lt with below | rfl
    · exact (Function.update_of_ne (other p hp below) _ _).trans (h.factor p hp below)
    · have whole : s.n.factorization p = modulus.factorization p := by
        rw [h.left p hp, if_neg (lt_irrefl p)]
      rw [← h.count]
      refine (Function.update_self ..).trans ?_
      rw [counted, whole, h.fresh _ h.count.ge]
  · rw [next] at le
    refine (Function.update_of_ne ?_ _ _).trans (h.fresh i (by omega))
    rw [h.count]
    omega
  · rcases Nat.lt_succ_iff_lt_or_eq.mp lt with below | rfl
    · exact h.reached p hp below
    · have divisor := Nat.minFac_prime more.ne'
      obtain ⟨above, divides⟩ := (h.dvd_left mpos divisor).mp s.n.minFac_dvd
      exact ⟨_, divisor, divides, above⟩
  · have few := place_add_two_le prime.two_le
    rw [Sieve.push, h.tame, Bool.false_or, decide_eq_false_iff_not, h.count]
    omega

/-- The sieve ends, with all primes up to `sqr` stored, or with nothing left of the modulus. -/
theorem sieve_ends {sqr width : ℕ} (mpos : 0 < modulus) (fits : modulus < 2 ^ width) (steps : ℕ) :
    ∀ {cur : ℕ} {s : Sieve}, 2 ≤ cur → sqr + 1 - cur ≤ steps → Sieving m modulus cur s →
      ∀ {fuel : ℕ}, steps + width + 1 ≤ fuel → ∃ last s', sieve sqr fuel cur s = some s' ∧
        Sieving m modulus last s' ∧ (sqr < last ∨ s'.n = 1) ∧ last ≤ max cur (sqr + 1) := by
  induction steps with
  | zero =>
    intro cur s two near h fuel enough
    obtain ⟨fuel, rfl⟩ := Nat.exists_eq_add_one.mpr (by omega : 0 < fuel)
    exact ⟨cur, s, by rw [sieve, if_neg (by omega)], h, .inl (by omega), le_max_left _ _⟩
  | succ steps ih =>
    intro cur s two near h fuel enough
    obtain ⟨fuel, rfl⟩ := Nat.exists_eq_add_one.mpr (by omega : 0 < fuel)
    by_cases go : cur ≤ sqr ∧ 1 < s.n
    case neg =>
      have pos := h.pos
      refine ⟨cur, s, by rw [sieve, if_neg go], h, ?_, le_max_left _ _⟩
      omega
    have bound : max (cur + 1) (sqr + 1) ≤ max cur (sqr + 1) := by omega
    rw [sieve, if_pos go]
    by_cases prime : cur.Prime
    case neg =>
      rw [if_pos ((h.divides_iff two).mpr prime)]
      obtain ⟨last, s', ran, h', done, le⟩ := ih (by omega) (by omega) (h.skip prime) (by omega : steps + width + 1 ≤ fuel)
      exact ⟨last, s', ran, h', done, le_trans le bound⟩
    rw [if_neg (fun composite => (h.divides_iff two).mp composite prime)]
    by_cases divides : cur ∣ s.n
    · have small : s.n < 2 ^ fuel :=
        lt_of_le_of_lt (Nat.le_of_dvd mpos (h.left_dvd mpos))
          (lt_of_lt_of_le fits (Nat.pow_le_pow_right (by decide) (by omega)))
      obtain ⟨rest, stripped, rpos, left⟩ := strip_spec prime h.pos divides small (s.factor s.curprimes)
      rw [if_pos (Nat.mod_eq_zero_of_dvd divides), stripped]
      obtain ⟨last, s', ran, h', done, le⟩ := ih (by omega) (by omega)
        (h.push mpos prime go.1 go.2 rpos left rfl) (by omega : steps + width + 1 ≤ fuel)
      exact ⟨last, s', ran, h', done, le_trans le bound⟩
    · have none_ := Nat.factorization_eq_zero_of_not_dvd divides
      have kept : Sieving m modulus (cur + 1) (s.push sqr cur s.n (s.factor s.curprimes)) := by
        refine h.push mpos prime go.1 go.2 h.pos (fun q => ?_) ?_
        · split
          case isTrue same => rw [same, none_]
          case isFalse => rfl
        · rw [none_, BitVec.add_zero]
      rw [if_neg (fun zero => divides (Nat.dvd_of_mod_eq_zero zero))]
      obtain ⟨last, s', ran, h', done, le⟩ := ih (by omega) (by omega) kept (by omega : steps + width + 1 ≤ fuel)
      exact ⟨last, s', ran, h', done, le_trans le bound⟩

end Sieving

end Libdank.Magic
