import Libdank.Magic.Coprimes

/-! The search for a coprime modulus at the whole width of its parameter. The modulus has 64 bits,
but the counters and the primes stored have 32: they wrap, and what is stored is cut off. -/
namespace Libdank.Magic.Wide
open Requests

/-- What keeps a run from its end: more steps to take, or a division by 0. -/
inductive Stop where
  | spent | division
deriving DecidableEq, Repr

def quotient (a b : ℕ) : Except Stop ℕ := if b = 0 then .error .division else .ok (a / b)

def remainder (a b : ℕ) : Except Stop ℕ := if b = 0 then .error .division else .ok (a % b)

def divides (s : Sieve) (cur : ℕ) : Except Stop Bool :=
  (List.range s.curprimes).anyM fun prit => do return decide ((← remainder cur (s.primes prit)) = 0)

def blocks (s : Sieve) (cur : ℕ) : Except Stop Bool :=
  (List.range s.curprimes).anyM fun n =>
    if s.factor n ≠ 0 then do return decide ((← remainder cur (s.primes n)) = 0) else pure false

def strip (cur : ℕ) : ℕ → ℕ → BitVec 32 → Except Stop (ℕ × BitVec 32)
  | 0, _, _ => .error .spent
  | fuel + 1, n, count => do
    let n ← quotient n cur
    if 1 < n then
      if (← remainder n cur) = 0 then strip cur fuel n (count + 1) else pure (n, count + 1)
    else pure (n, count + 1)

def sieve (sqr : ℕ) : ℕ → ℕ → Sieve → Except Stop Sieve
  | 0, _, _ => .error .spent
  | fuel + 1, cur, s =>
    if cur ≤ sqr ∧ 1 < s.n then do
      if ← divides s cur then sieve sqr fuel ((cur + 1) % 2 ^ 32) s
      else if (← remainder s.n cur) = 0 then
        let (n, count) ← strip cur fuel s.n (s.factor s.curprimes)
        sieve sqr fuel ((cur + 1) % 2 ^ 32) (s.push sqr cur n count)
      else sieve sqr fuel ((cur + 1) % 2 ^ 32) (s.push sqr cur s.n (s.factor s.curprimes))
    else pure s

/-- What is left of the modulus is stored as the last factor, as far as it fits. -/
def finish (s : Sieve) (sqr : ℕ) : Sieve := if 1 < s.n then s.push sqr (s.n % 2 ^ 32) 1 1 else s

def searchUp (s : Sieve) (modulus : ℕ) : ℕ → ℕ → Except Stop ℕ
  | 0, _ => .error .spent
  | fuel + 1, cur =>
    if cur < modulus then do
      if ← blocks s cur then searchUp s modulus fuel ((cur + 1) % 2 ^ 32) else pure cur
    else pure 0

def searchDown (s : Sieve) : ℕ → ℕ → Except Stop ℕ
  | 0, _ => .error .spent
  | fuel + 1, cur =>
    if 1 < cur then do
      if ← blocks s cur then searchDown s fuel (cur - 1) else pure s.curprimes
    else pure 0

def select (s : Sieve) (sqr modulus fuel : ℕ) : Except Stop ℕ := do
  let ret ← searchUp s modulus fuel sqr
  let ret ← if ret = 0 then searchDown s fuel ((sqr + (2 ^ 64 - 1)) % 2 ^ 64 % 2 ^ 32) else pure ret
  pure (if ret = 0 then 1 else ret)

def findCoprime (fuel : ℕ) (m : Leftover) (n : ℕ) (heap : Heap) : Except Stop ℕ :=
  let sqr := (sqrtu32 (UInt32.ofNat n)).toNat
  let (granted, heap) := allocate (4 * sqr) heap
  if granted then
    let (granted, _) := allocate (4 * sqr) heap
    if granted then do
      let s ← sieve sqr fuel 2 (startSieve m n)
      select (finish s sqr) sqr n fuel
    else pure 1
  else pure 1

/-- All loops end, and no remainder is taken by 0 in the meantime. -/
structure Ends (m : Leftover) (n : ℕ) (heap : Heap) : Prop where
  ended : ∃ fuel r, findCoprime fuel m n heap = .ok r
  divided : ∀ fuel, findCoprime fuel m n heap ≠ .error .division

/-- `b` is `n` without its prime factors up to `r`. -/
def Rough (r n b : ℕ) : Prop :=
  ∃ a, n = a * b ∧ (∀ p : ℕ, p.Prime → p ∣ a → p ≤ r) ∧ ∀ p : ℕ, p.Prime → p ∣ b → r < p

section Rough
variable {r n b : ℕ}

theorem Rough.factorization (h : Rough r n b) (pos : 0 < n) {p : ℕ} (prime : p.Prime) :
    b.factorization p = if p ≤ r then 0 else n.factorization p := by
  obtain ⟨a, rfl, smooth, rough⟩ := h
  have apos : a ≠ 0 := left_ne_zero_of_mul pos.ne'
  have bpos : b ≠ 0 := right_ne_zero_of_mul pos.ne'
  split
  case isTrue small =>
    apply Nat.factorization_eq_zero_of_not_dvd
    exact fun divides => absurd (rough p prime divides) (Nat.not_lt.mpr small)
  case isFalse large =>
    have other := Nat.factorization_eq_zero_of_not_dvd (fun divides => large (smooth p prime divides))
    rw [Nat.factorization_mul apos bpos, Finsupp.add_apply, other, Nat.zero_add]

theorem Rough.pos (h : Rough r n b) (pos : 0 < n) : 0 < b := by
  obtain ⟨a, rfl, -, -⟩ := h
  exact Nat.pos_of_mul_pos_left pos

theorem Rough.unique {b' : ℕ} (h : Rough r n b) (h' : Rough r n b') (pos : 0 < n) : b = b' := by
  apply Nat.eq_of_factorization_eq (h.pos pos).ne' (h'.pos pos).ne'
  intro p
  by_cases prime : p.Prime
  · rw [h.factorization pos prime, h'.factorization pos prime]
  · rw [Nat.factorization_eq_zero_of_not_prime _ prime, Nat.factorization_eq_zero_of_not_prime _ prime]

theorem rough_self (small : r ≤ 1) (n : ℕ) : Rough r n n :=
  ⟨1, (one_mul n).symm, fun _ prime divides => absurd (Nat.dvd_one.mp divides) prime.ne_one,
    fun _ prime _ => lt_of_le_of_lt small prime.one_lt⟩

end Rough

def toExcept {α : Type} : Option α → Except Stop α
  | none => .error .spent
  | some a => .ok a

section Bind
variable {α β : Type} {x : Except Stop α} {f : α → Except Stop β}

theorem bind_ends (first : ∃ a, x = .ok a) (second : ∀ a, ∃ b, f a = .ok b) :
    ∃ b, (x >>= f) = .ok b := by
  obtain ⟨a, rfl⟩ := first
  exact second a

theorem bind_divided (first : x ≠ .error .division) (second : ∀ a, f a ≠ .error .division) :
    (x >>= f) ≠ .error .division := by
  cases x with
  | error stop =>
    intro same
    exact first (congrArg Except.error (Except.error.inj same))
  | ok a => exact second a

end Bind

def Nonzero (s : Sieve) : Prop := ∀ i < s.curprimes, s.primes i ≠ 0

theorem Nonzero.push {s : Sieve} (h : Nonzero s) {prime : ℕ} (some_ : prime ≠ 0) (sqr n : ℕ)
    (count : BitVec 32) : Nonzero (s.push sqr prime n count) := by
  intro i below
  rcases Nat.lt_succ_iff_lt_or_eq.mp below with old | rfl
  · exact (Function.update_of_ne old.ne _ _).trans_ne (h i old)
  · exact (Function.update_self ..).trans_ne some_

theorem remainder_ok {a b : ℕ} (some_ : b ≠ 0) : remainder a b = .ok (a % b) := if_neg some_

theorem anyM_ok {xs : List ℕ} {f : ℕ → Except Stop Bool} {g : ℕ → Bool}
    (each : ∀ x ∈ xs, f x = .ok (g x)) : xs.anyM f = .ok (xs.any g) := by
  induction xs with
  | nil => rfl
  | cons x xs ih =>
    have rest := ih fun y inside => each y (List.mem_cons_of_mem x inside)
    rw [List.anyM, each x List.mem_cons_self, List.any_cons]
    cases g x with
    | true => rfl
    | false => exact rest

theorem divides_ok {s : Sieve} (h : Nonzero s) (cur : ℕ) : divides s cur = .ok (s.divides cur) := by
  apply anyM_ok
  intro i inside
  rw [remainder_ok (h i (List.mem_range.mp inside))]
  rfl

theorem blocks_ok {s : Sieve} (h : Nonzero s) (cur : ℕ) : blocks s cur = .ok (s.blocks cur) := by
  apply anyM_ok
  intro i inside
  split
  case isTrue counts =>
    rw [remainder_ok (h i (List.mem_range.mp inside)), decide_eq_decide.mpr (and_iff_right counts)]
    rfl
  case isFalse none_ =>
    rw [decide_eq_false (fun both => none_ both.1)]
    rfl

theorem strip_eq {cur : ℕ} (pos : 0 < cur) (fuel n : ℕ) (count : BitVec 32) :
    strip cur fuel n count = toExcept (Magic.strip cur fuel n count) := by
  induction fuel generalizing n count with
  | zero => rfl
  | succ fuel ih =>
    rw [strip, Magic.strip, quotient, if_neg pos.ne']
    change (if 1 < n / cur then _ else _) = _
    by_cases more : 1 < n / cur
    case neg =>
      rw [if_neg more, if_neg (fun both => more both.1)]
      rfl
    rw [if_pos more, remainder_ok pos.ne']
    change (if n / cur % cur = 0 then _ else _) = _
    by_cases again : n / cur % cur = 0
    · rw [if_pos again, if_pos ⟨more, again⟩, ih]
    · rw [if_neg again, if_neg (fun both => again both.2)]
      rfl

theorem sieve_eq {sqr : ℕ} (short : sqr + 1 < 2 ^ 32) (fuel : ℕ) :
    ∀ {cur : ℕ} {s : Sieve}, 2 ≤ cur → Nonzero s →
      sieve sqr fuel cur s = toExcept (Magic.sieve sqr fuel cur s) := by
  induction fuel with
  | zero => exact fun _ _ => rfl
  | succ fuel ih =>
    intro cur s two h
    rw [sieve, Magic.sieve]
    by_cases go : cur ≤ sqr ∧ 1 < s.n
    case neg =>
      rw [if_neg go, if_neg go]
      rfl
    have next : (cur + 1) % 2 ^ 32 = cur + 1 := Nat.mod_eq_of_lt (by omega)
    have some_ : cur ≠ 0 := by omega
    rw [if_pos go, if_pos go, divides_ok h, next, remainder_ok some_]
    change (if s.divides cur = true then _ else if s.n % cur = 0 then _ else _) = _
    by_cases composite : s.divides cur = true
    · rw [if_pos composite, if_pos composite]
      exact ih (by omega) h
    rw [if_neg composite, if_neg composite]
    by_cases factor : s.n % cur = 0
    case neg =>
      rw [if_neg factor, if_neg factor]
      exact ih (by omega) (h.push some_ _ _ _)
    rw [if_pos factor, if_pos factor, strip_eq (by omega)]
    rcases Magic.strip cur fuel s.n (s.factor s.curprimes) with _ | ⟨n, count⟩
    · rfl
    · exact ih (by omega) (h.push some_ _ _ _)

section Search
variable {s : Sieve} (h : Nonzero s)
include h

theorem searchUp_succ (modulus fuel cur : ℕ) : searchUp s modulus (fuel + 1) cur =
    if cur < modulus then
      if s.blocks cur = true then searchUp s modulus fuel ((cur + 1) % 2 ^ 32) else .ok cur
    else .ok 0 := by
  rw [searchUp, blocks_ok h]
  rfl

theorem searchDown_succ (fuel cur : ℕ) : searchDown s (fuel + 1) cur =
    if 1 < cur then if s.blocks cur = true then searchDown s fuel (cur - 1) else .ok s.curprimes
    else .ok 0 := by
  rw [searchDown, blocks_ok h]
  rfl

theorem searchUp_divided (modulus fuel cur : ℕ) : searchUp s modulus fuel cur ≠ .error .division := by
  induction fuel generalizing cur with
  | zero => nofun
  | succ fuel ih =>
    rw [searchUp_succ h]
    split
    case isTrue =>
      split
      case isTrue => exact ih _
      case isFalse => nofun
    case isFalse => nofun

/-- The search upwards ends at a free number at the latest, after the counter has wrapped. -/
theorem searchUp_ends (modulus : ℕ) {free : ℕ} (unblocked : s.blocks free = false) (steps : ℕ) :
    ∀ {cur fuel : ℕ}, cur < 2 ^ 32 → (cur + steps) % 2 ^ 32 = free → steps < fuel →
      ∃ r, searchUp s modulus fuel cur = .ok r := by
  induction steps with
  | zero =>
    intro cur fuel short there enough
    obtain ⟨fuel, rfl⟩ := Nat.exists_eq_add_one.mpr enough
    obtain rfl : cur = free := by omega
    rw [searchUp_succ h, unblocked]
    split
    case isTrue => exact ⟨_, rfl⟩
    case isFalse => exact ⟨_, rfl⟩
  | succ steps ih =>
    intro cur fuel short there enough
    obtain ⟨fuel, rfl⟩ := Nat.exists_eq_add_one.mpr (by omega : 0 < fuel)
    rw [searchUp_succ h]
    split
    case isTrue =>
      split
      case isTrue => exact ih (Nat.mod_lt _ (by decide)) (by omega) (by omega)
      case isFalse => exact ⟨_, rfl⟩
    case isFalse => exact ⟨_, rfl⟩

/-- Where all numbers are blocked and none of 32 bits reaches the modulus, the search upwards does
not end. -/
theorem searchUp_spent {modulus : ℕ} (wide : 2 ^ 32 ≤ modulus) (blocked : ∀ x, s.blocks x = true)
    (fuel : ℕ) : ∀ {cur : ℕ}, cur < 2 ^ 32 → searchUp s modulus fuel cur = .error .spent := by
  induction fuel with
  | zero => exact fun _ => rfl
  | succ fuel ih =>
    intro cur short
    rw [searchUp_succ h, if_pos (lt_of_lt_of_le short wide), if_pos (blocked cur)]
    exact ih (Nat.mod_lt _ (by decide))

theorem searchDown_divided (fuel cur : ℕ) : searchDown s fuel cur ≠ .error .division := by
  induction fuel generalizing cur with
  | zero => nofun
  | succ fuel ih =>
    rw [searchDown_succ h]
    split
    case isTrue =>
      split
      case isTrue => exact ih _
      case isFalse => nofun
    case isFalse => nofun

theorem searchDown_ends {fuel cur : ℕ} (enough : cur < fuel) : ∃ r, searchDown s fuel cur = .ok r := by
  induction fuel generalizing cur with
  | zero => exact absurd enough (Nat.not_lt_zero cur)
  | succ fuel ih =>
    rw [searchDown_succ h]
    split
    case isTrue more =>
      split
      case isTrue => exact ih (by omega)
      case isFalse => exact ⟨_, rfl⟩
    case isFalse => exact ⟨_, rfl⟩

theorem select_divided (sqr modulus fuel : ℕ) : select s sqr modulus fuel ≠ .error .division := by
  apply bind_divided (searchUp_divided h modulus fuel sqr)
  intro ret
  dsimp only
  split
  case isTrue => exact bind_divided (searchDown_divided h fuel _) fun _ => nofun
  case isFalse => nofun

/-- Both searches end within a round of the counter, if 1 is free. -/
theorem select_ends {sqr modulus fuel : ℕ} (short : sqr < 2 ^ 32) (free : s.blocks 1 = false)
    (enough : 2 ^ 32 + 1 < fuel) : ∃ r, select s sqr modulus fuel = .ok r := by
  apply bind_ends
  · exact searchUp_ends h modulus free (2 ^ 32 + 1 - sqr) short (by omega) (by omega)
  · intro ret
    dsimp only
    split
    case isTrue => exact bind_ends (searchDown_ends h (by omega)) fun _ => ⟨_, rfl⟩
    case isFalse => exact ⟨_, rfl⟩

theorem select_spent {sqr modulus : ℕ} (short : sqr < 2 ^ 32) (wide : 2 ^ 32 ≤ modulus)
    (blocked : ∀ x, s.blocks x = true) (fuel : ℕ) : select s sqr modulus fuel = .error .spent := by
  rw [select, searchUp_spent h wide blocked fuel short]
  rfl

end Search

section Sieved
variable {m : Leftover} {n sqr last : ℕ} {s : Sieve} (h : Sieved m n sqr last s)
include h

theorem sieved_nonzero : Nonzero s := by
  intro i below
  rw [h.sieving.count] at below
  obtain ⟨p, prime, small, rfl⟩ := exists_prime_place below
  rw [h.sieving.stored p prime small]
  exact prime.ne_zero

theorem rough_left (pos : 0 < n) : Rough sqr n s.n := by
  obtain ⟨a, whole⟩ := h.sieving.left_dvd pos
  rw [Nat.mul_comm] at whole
  refine ⟨a, whole, fun p prime divides => ?_, fun p prime divides => ?_⟩
  · have near := h.near
    have below : p < last := by
      by_contra above
      have apos : 0 < a := Nat.pos_of_mul_pos_right (whole ▸ pos)
      have kept := h.sieving.left p prime
      have counted := (prime.dvd_iff_one_le_factorization apos.ne').mp divides
      rw [if_neg above, whole, Nat.factorization_mul apos.ne' h.sieving.pos.ne', Finsupp.add_apply] at kept
      omega
    omega
  · have above := ((h.sieving.dvd_left pos prime).mp divides).1
    rcases h.finished with past | one
    · omega
    · exact absurd (Nat.dvd_one.mp (one ▸ divides)) prime.ne_one

/-- The last factor is not 0 either, since 0 in the low half of the modulus gives no memory. -/
theorem finish_nonzero (pos : 0 < n) (some_ : n % 2 ^ 32 ≠ 0) : Nonzero (finish s sqr) := by
  unfold finish
  split
  case isTrue =>
    refine (sieved_nonzero h).push (fun zero => some_ ?_) _ _ _
    exact Nat.mod_eq_zero_of_dvd (dvd_trans (Nat.dvd_of_mod_eq_zero zero) (h.sieving.left_dvd pos))
  case isFalse => exact sieved_nonzero h

theorem finish_blocks_iff (x : ℕ) : (finish s sqr).blocks x = true ↔
    (∃ p, Active m n last p ∧ p ∣ x) ∨ 1 < s.n ∧ s.n % 2 ^ 32 ∣ x := by
  unfold finish
  split
  case isTrue more => rw [blocks_push, h.sieving.blocks_iff, and_iff_right more]
  case isFalse none_ => rw [h.sieving.blocks_iff, or_iff_left (fun both => none_ both.1)]

theorem finish_blocks_one : (finish s sqr).blocks 1 = true ↔ 1 < s.n ∧ s.n % 2 ^ 32 = 1 := by
  rw [finish_blocks_iff h, Nat.dvd_one]
  apply or_iff_right
  rintro ⟨p, active, divides⟩
  exact active.1.ne_one (Nat.dvd_one.mp divides)

end Sieved

section Run
variable {n : ℕ} (some_ : n % 2 ^ 32 ≠ 0) (fits : n < 2 ^ 64) {heap : Heap} (served : Served heap)

theorem sqr_eq (n : ℕ) : (sqrtu32 (UInt32.ofNat n)).toNat = root (n % 2 ^ 32) := by
  rw [toNat_sqrtu32, UInt32.toNat_ofNat']
  rfl

theorem root_short (n : ℕ) : root (n % 2 ^ 32) + 1 < 2 ^ 32 := by
  have small := Nat.mod_lt n (Nat.two_pow_pos 32)
  rcases Nat.lt_or_ge (n % 2 ^ 32) 2 with few | two
  · have less : root (n % 2 ^ 32) ≤ n % 2 ^ 32 := Nat.div_le_self _ _
    omega
  · have half := two_mul_root_le two
    omega

include some_ served

theorem findCoprime_eq (m : Leftover) (fuel : ℕ) : findCoprime fuel m n heap =
    (toExcept (Magic.sieve (root (n % 2 ^ 32)) fuel 2 (startSieve m n)) >>= fun s =>
      select (finish s (root (n % 2 ^ 32))) (root (n % 2 ^ 32)) n fuel) := by
  have rpos := root_pos (Nat.pos_of_ne_zero some_)
  have bytes : 4 * root (n % 2 ^ 32) ≠ 0 := by omega
  obtain ⟨_, _, one, two⟩ := allocate_vectors bytes served
  have empty : Nonzero (startSieve m n) := fun i below => absurd below (Nat.not_lt_zero i)
  simp only [findCoprime, sqr_eq, one, two, if_true, sieve_eq (root_short n) fuel (le_refl 2) empty]

include fits

theorem findCoprime_runs (m : Leftover) : ∃ last s, Sieved m n (root (n % 2 ^ 32)) last s ∧
    ∀ fuel, (findCoprime fuel m n heap = .error .spent ∨ findCoprime fuel m n heap =
        select (finish s (root (n % 2 ^ 32))) (root (n % 2 ^ 32)) n fuel) ∧
      (root (n % 2 ^ 32) + 65 ≤ fuel → findCoprime fuel m n heap =
        select (finish s (root (n % 2 ^ 32))) (root (n % 2 ^ 32)) n fuel) := by
  have pos : 0 < n := Nat.pos_of_ne_zero fun zero => some_ (by rw [zero]; rfl)
  obtain ⟨last, s, sieved, ran⟩ := sieve_runs pos fits (root_pos (Nat.pos_of_ne_zero some_)) m
  refine ⟨last, s, sieved, fun fuel => ⟨?_, fun enough => ?_⟩⟩
  · rw [findCoprime_eq some_ served]
    rcases ended : Magic.sieve (root (n % 2 ^ 32)) fuel 2 (startSieve m n) with _ | s'
    · exact .inl rfl
    · obtain rfl := (ran fuel).1 s' ended
      exact .inr rfl
  · rw [findCoprime_eq some_ served, (ran fuel).2 enough]
    rfl

theorem ends_iff_last (m : Leftover) : ∃ b, Rough (root (n % 2 ^ 32)) n b ∧
    (Ends m n heap ↔ ¬ (1 < b ∧ b % 2 ^ 32 = 1)) := by
  obtain ⟨last, s, sieved, runs⟩ := findCoprime_runs some_ fits served m
  have pos : 0 < n := Nat.pos_of_ne_zero fun zero => some_ (by rw [zero]; rfl)
  have short := root_short n
  have h := finish_nonzero sieved pos some_
  refine ⟨s.n, rough_left sieved pos, ?_⟩
  rw [← finish_blocks_one sieved]
  constructor
  · rintro ⟨⟨fuel, r, ended⟩, -⟩ blocked
    -- a last factor of 1 that stands for more takes the modulus past all numbers of 32 bits
    have cut := (finish_blocks_one sieved).mp blocked
    have wide : 2 ^ 32 ≤ n := by
      have := Nat.le_of_dvd pos (sieved.sieving.left_dvd pos)
      omega
    have all : ∀ x, (finish s (root (n % 2 ^ 32))).blocks x = true := fun x =>
      (finish_blocks_iff sieved x).mpr (.inr ⟨cut.1, cut.2 ▸ one_dvd x⟩)
    rcases (runs fuel).1 with spent | selected
    · rw [spent] at ended
      cases ended
    · rw [selected, select_spent h (by omega) wide all fuel] at ended
      cases ended
  · intro free
    refine ⟨⟨2 ^ 32 + 2 ^ 32, ?_⟩, fun fuel => ?_⟩
    · rw [(runs _).2 (by omega)]
      exact select_ends h (by omega) (Bool.eq_false_iff.mpr free) (by decide)
    · rcases (runs fuel).1 with spent | selected
      · rw [spent]
        nofun
      · rw [selected]
        exact select_divided h _ n fuel

end Run

section Narrow
variable {s : Sieve} (h : Nonzero s)
include h

theorem searchUp_find {modulus : ℕ} (short : modulus < 2 ^ 32) (steps : ℕ) :
    ∀ {cur fuel : ℕ}, modulus - cur = steps → steps < fuel → searchUp s modulus fuel cur =
      .ok (((List.range' cur steps).find? fun x => !s.blocks x).getD 0) := by
  induction steps with
  | zero =>
    intro cur fuel past enough
    obtain ⟨fuel, rfl⟩ := Nat.exists_eq_add_one.mpr enough
    rw [searchUp_succ h, if_neg (by omega)]
    rfl
  | succ steps ih =>
    intro cur fuel left enough
    obtain ⟨fuel, rfl⟩ := Nat.exists_eq_add_one.mpr (by omega : 0 < fuel)
    have next : (cur + 1) % 2 ^ 32 = cur + 1 := Nat.mod_eq_of_lt (by omega)
    rw [searchUp_succ h, if_pos (by omega), next, List.range'_succ, List.find?_cons]
    cases s.blocks cur with
    | true => exact ih (by omega) (by omega)
    | false => rfl

theorem searchDown_find {fuel : ℕ} : ∀ {cur : ℕ}, cur < fuel → searchDown s fuel cur =
    .ok (if ((List.range' 2 (cur - 1)).reverse.find? fun x => !s.blocks x).isSome then s.curprimes else 0) := by
  induction fuel with
  | zero => exact fun enough => absurd enough (Nat.not_lt_zero _)
  | succ fuel ih =>
    intro cur enough
    rw [searchDown_succ h]
    by_cases more : 1 < cur
    case neg =>
      have none_ : cur - 1 = 0 := by omega
      rw [if_neg more, none_]
      rfl
    obtain ⟨k, rfl⟩ : ∃ k, cur = k + 2 := ⟨cur - 2, by omega⟩
    have last : (List.range' 2 (k + 2 - 1)).reverse = (k + 2) :: (List.range' 2 (k + 1 - 1)).reverse := by
      rw [Nat.add_sub_cancel, show k + 2 - 1 = k + 1 from rfl, List.range'_1_concat, List.reverse_append,
        Nat.add_comm 2 k]
      rfl
    rw [if_pos more, last, List.find?_cons]
    cases s.blocks (k + 2) with
    | true => exact ih (by omega)
    | false => rfl

theorem select_eq {sqr modulus fuel : ℕ} (pos : 0 < sqr) (below : sqr ≤ modulus) (short : modulus < 2 ^ 32)
    (enough : modulus < fuel) : select s sqr modulus fuel = .ok (s.select sqr modulus) := by
  have start : (sqr + (2 ^ 64 - 1)) % 2 ^ 64 % 2 ^ 32 = sqr - 1 := by omega
  unfold select Sieve.select
  rw [searchUp_find h short _ rfl (by omega), start]
  generalize ((List.range' sqr (modulus - sqr)).find? fun x => !s.blocks x).getD 0 = up
  change (if up = 0 then _ else _) = _
  split
  case isTrue zero =>
    rw [searchDown_find h (by omega), zero]
    rfl
  case isFalse some_ =>
    simp only [if_neg some_]
    exact congrArg Except.ok (if_neg some_)

end Narrow

theorem findCoprime_narrow {n : ℕ} (pos : 0 < n) (fits : n < 2 ^ 32) {heap : Heap} (served : Served heap)
    (m : Leftover) : ∃ fuel f, Magic.findCoprime fuel m n heap = some f ∧
      findCoprime fuel m n heap = .ok f.ret := by
  have low : n % 2 ^ 32 = n := Nat.mod_eq_of_lt fits
  have some_ : n % 2 ^ 32 ≠ 0 := by omega
  have rpos := root_pos pos
  have below : root n ≤ n := Nat.div_le_self _ _
  obtain ⟨last, s, sieved, ran⟩ := sieve_runs pos fits rpos m
  have ended := (ran (2 ^ 32 + 2 ^ 32)).2 (by omega)
  have whole : finish s (root n) = s.finish (root n) := by
    have small := Nat.le_of_dvd pos (sieved.sieving.left_dvd pos)
    rw [finish, Sieve.finish, Nat.mod_eq_of_lt (by omega)]
  have plain := Magic.findCoprime_eq pos fits served m (2 ^ 32 + 2 ^ 32)
  rw [ended, Option.map_some] at plain
  refine ⟨_, _, plain, ?_⟩
  rw [findCoprime_eq some_ served, low, ended]
  have h := finish_nonzero sieved pos some_
  rw [whole] at h
  calc select (finish s (root n)) (root n) n (2 ^ 32 + 2 ^ 32)
      = select (s.finish (root n)) (root n) n (2 ^ 32 + 2 ^ 32) := by rw [whole]
    _ = .ok ((s.finish (root n)).select (root n) n) := select_eq h rpos below fits (by omega)

theorem ends_zero {n : ℕ} (zero : n % 2 ^ 32 = 0) (m : Leftover) (heap : Heap) : Ends m n heap := by
  have none_ : ∀ fuel, findCoprime fuel m n heap = .ok 1 := by
    intro fuel
    unfold findCoprime
    rw [sqr_eq, zero]
    rfl
  refine ⟨⟨0, 1, none_ 0⟩, fun fuel => ?_⟩
  rw [none_]
  nofun

/-- The loops end just where the part of the modulus that has no prime up to the root is not cut off
to 1. -/
theorem findCoprime_ends_iff (m : Leftover) (n : ℕ) (pos : 1 ≤ n) (fits : n < 2 ^ 64) (heap : Heap)
    (served : Served heap) : Ends m n heap ↔
      ∃ b, Rough (sqrtu32 (UInt32.ofNat n)).toNat n b ∧ (b = 1 ∨ b % 2 ^ 32 ≠ 1) := by
  rw [sqr_eq]
  by_cases some_ : n % 2 ^ 32 = 0
  · refine iff_of_true (ends_zero some_ m heap) ⟨n, rough_self ?_ n, .inr ?_⟩
    · rw [some_]
      exact Nat.zero_le 1
    · rw [some_]
      decide
  · obtain ⟨b, rough, ends⟩ := ends_iff_last some_ fits served m
    have bpos := rough.pos pos
    rw [ends]
    constructor
    · intro kept
      exact ⟨b, rough, by omega⟩
    · rintro ⟨b', rough', kept⟩ cut
      rw [rough'.unique rough pos] at kept
      omega

theorem findCoprime_ends_iff_six : Ends ⟨fun _ => 0, fun _ => 0⟩ 6 ⟨[], false⟩ ↔
    ∃ b, Rough (sqrtu32 (UInt32.ofNat 6)).toNat 6 b ∧ (b = 1 ∨ b % 2 ^ 32 ≠ 1) :=
  findCoprime_ends_iff _ 6 (by decide) (by decide) _ rfl

/-- 2 ^ 32 + 1 has the root 1, so that it is the last factor itself, cut off to 1. -/
theorem findCoprime_runs_on : ¬ Ends ⟨fun _ => 0, fun _ => 0⟩ (2 ^ 32 + 1) ⟨[], false⟩ := by
  have some_ : (2 ^ 32 + 1) % 2 ^ 32 ≠ 0 := by decide
  have served : Served ⟨[], false⟩ := rfl
  obtain ⟨b, rough, ends⟩ := ends_iff_last some_ (by decide) served ⟨fun _ => 0, fun _ => 0⟩
  rw [ends, rough.unique (rough_self (by decide) _) (by decide)]
  decide

end Libdank.Magic.Wide
