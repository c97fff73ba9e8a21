import Libdank.MemLimit.Operations

/-! Allocations made to fail from the n-th on. The countdown is in `check_alloc_req`, and
`Palloc` is the one entry that does not go through it. -/
namespace Libdank.MemLimit
open MmapWindow

inductive AllocRequest where
  | malloc (s : ℕ) (ret : ℕ)
  | realloc (orig : Option ℕ) (s : ℕ) (ret : ℕ)
  | palloc (osiz used p : ℕ) (ret : ℕ)
  | mmalloc (len : ℕ) (ret : ℕ)
  | trackAllocation
deriving DecidableEq, Repr

def AllocRequest.isPalloc : AllocRequest → Bool
  | .palloc .. => true
  | _ => false

/-- Something is asked for, and no more than the system is able to serve: of `Palloc`, at
least one object of the share that it works out. -/
def AllocRequest.Able (m : Memlimit) : AllocRequest → Prop
  | .malloc s _ => 0 < s
  | .realloc _ s _ => 0 < s
  | .palloc osiz used p _ => 0 < osiz ∧ 1 ≤ p ∧ p ≤ 100 ∧ osiz ≤ sizePallocReq m used p
  | .mmalloc len ret => 0 < len ∧ (mmap (some ret) (-1) len 0).isSome
  | .trackAllocation => True

instance (m : Memlimit) : (r : AllocRequest) → Decidable (r.Able m)
  | .malloc s _ => inferInstanceAs (Decidable (0 < s))
  | .realloc _ s _ => inferInstanceAs (Decidable (0 < s))
  | .palloc osiz used p _ =>
    inferInstanceAs (Decidable (0 < osiz ∧ 1 ≤ p ∧ p ≤ 100 ∧ osiz ≤ sizePallocReq m used p))
  | .mmalloc len ret => inferInstanceAs (Decidable (0 < len ∧ (mmap (some ret) (-1) len 0).isSome))
  | .trackAllocation => inferInstanceAs (Decidable True)

def AllocRequest.run (m : Memlimit) : AllocRequest → Bool × Memlimit
  | .malloc s ret => ((MemLimit.malloc m s (some ret)).1.isSome, (MemLimit.malloc m s (some ret)).2)
  | .realloc orig s ret =>
    ((MemLimit.realloc m orig s (some ret)).1.isSome, (MemLimit.realloc m orig s (some ret)).2)
  | .palloc osiz used p ret =>
    match MemLimit.palloc m osiz used p (some ret) with
    | none => (false, m)
    | some (share, m) => (share.isSome, m)
  | .mmalloc len ret => ((MemLimit.mmalloc m len (some ret)).1.isSome, (MemLimit.mmalloc m len (some ret)).2)
  | .trackAllocation => MemLimit.trackAllocation m

/-- Which requests succeed, one after another. -/
def successes (m : Memlimit) : List AllocRequest → List Bool
  | [] => []
  | r :: rest => (r.run m).1 :: successes (r.run m).2 rest

def firstOnly (n count : ℕ) : List Bool := (List.range count).map fun i => decide (i < n)

@[simp] theorem firstOnly_zero (n : ℕ) : firstOnly n 0 = [] := rfl

theorem firstOnly_succ (n count : ℕ) :
    firstOnly n (count + 1) = decide (0 < n) :: firstOnly (n - 1) count := by
  simp only [firstOnly, List.range_succ_eq_map, List.map_cons, List.map_map, List.cons.injEq, true_and]
  refine List.map_congr_left fun i _ => ?_
  simp only [Function.comp_apply, decide_eq_decide]
  omega

theorem checkAllocReq_counts {m : Memlimit} {k s : ℕ} (left : m.poisonedIdx = k) (some_ : 0 < s) :
    ∃ m', checkAllocReq m s = (decide (0 < k), m') ∧ m'.poisonedIdx = (k - 1 : ℕ) ∧
      m'.memoryUsageLimit = m.memoryUsageLimit := by
  rw [checkAllocReq, if_neg some_.ne']
  dsimp only
  cases k with
  | zero => exact ⟨_, if_pos left, left, rfl⟩
  | succ k =>
    have counting : ¬ m.poisonedIdx = 0 := by omega
    have positive : 0 < m.poisonedIdx := by omega
    rw [if_neg counting, if_pos positive, decide_eq_true k.succ_pos]
    refine ⟨_, rfl, ?_, rfl⟩
    change m.poisonedIdx - 1 = (k : ℤ)
    omega

theorem run_counts {m : Memlimit} {k : ℕ} (left : m.poisonedIdx = k) {r : AllocRequest} (able : r.Able m)
    (other : r.isPalloc = false) :
    (r.run m).1 = decide (0 < k) ∧ (r.run m).2.poisonedIdx = (k - 1 : ℕ) ∧
      (r.run m).2.memoryUsageLimit = m.memoryUsageLimit := by
  cases r with
  | malloc s ret =>
    obtain ⟨m', checked, counted, limit⟩ := checkAllocReq_counts left able
    rw [AllocRequest.run, malloc, checked]
    by_cases more : 0 < k <;> simp [more, counted, limit, Memlimit.serve]
  | realloc orig s ret =>
    obtain ⟨m', checked, counted, limit⟩ := checkAllocReq_counts left able
    rw [AllocRequest.run, realloc, checked]
    by_cases more : 0 < k <;> simp [more, counted, limit]
  | palloc osiz used p ret => cases other
  | mmalloc len ret =>
    obtain ⟨m', checked, counted, limit⟩ := checkAllocReq_counts left able.1
    obtain ⟨addr, mapped⟩ := Option.isSome_iff_exists.mp able.2
    rw [AllocRequest.run, mmalloc, checked]
    by_cases more : 0 < k <;> simp [more, mapped, counted, limit, Memlimit.serve, trackFailloc]
  | trackAllocation =>
    obtain ⟨m', checked, counted, limit⟩ := checkAllocReq_counts left one_pos
    rw [AllocRequest.run, trackAllocation, checked]
    by_cases more : 0 < k <;> simp [more, counted, limit, Memlimit.serve, trackFailloc]

theorem run_palloc {m : Memlimit} {r : AllocRequest} (able : r.Able m) (palloc_ : r.isPalloc = true) :
    (r.run m).1 = true ∧ (r.run m).2.poisonedIdx = m.poisonedIdx ∧
      (r.run m).2.memoryUsageLimit = m.memoryUsageLimit := by
  cases r with
  | palloc osiz used p ret =>
    obtain ⟨some_, low, high, fits⟩ := able
    have share : ¬ sizePallocReq { m with allocsReqd := m.allocsReqd + 1 } used p < osiz := not_lt.mpr fits
    rw [AllocRequest.run, palloc, if_neg (by omega)]
    dsimp only
    rw [if_neg share, if_neg some_.ne']
    exact ⟨rfl, rfl, rfl⟩
  | _ => cases palloc_

theorem able_congr {m m' : Memlimit} (limit : m'.memoryUsageLimit = m.memoryUsageLimit) {r : AllocRequest}
    (able : r.Able m) : r.Able m' := by
  cases r with
  | palloc osiz used p ret =>
    have same : sizePallocReq m' used p = sizePallocReq m used p := by
      rw [sizePallocReq, sizePallocReq, limit]
    exact ⟨able.1, able.2.1, able.2.2.1, same ▸ able.2.2.2⟩
  | _ => exact able

theorem successes_behind {m : Memlimit} {k j : ℕ} (left : m.poisonedIdx = k) (behind : j < k)
    {requests : List AllocRequest} (able : ∀ r ∈ requests, r.Able m) :
    successes m requests = firstOnly j requests.length ↔ requests.length ≤ j := by
  induction requests generalizing m k j with
  | nil => simp [successes]
  | cons r rest ih =>
    have here := able r List.mem_cons_self
    obtain ⟨ok, k', left', later, limit⟩ : (r.run m).1 = true ∧ ∃ k' : ℕ, (r.run m).2.poisonedIdx = k' ∧
        k - 1 ≤ k' ∧ (r.run m).2.memoryUsageLimit = m.memoryUsageLimit := by
      cases palloc_ : r.isPalloc with
      | true =>
        obtain ⟨ok, kept, limit⟩ := run_palloc here palloc_
        exact ⟨ok, k, kept.trans left, by omega, limit⟩
      | false =>
        obtain ⟨ok, counted, limit⟩ := run_counts left here palloc_
        exact ⟨ok.trans (decide_eq_true (by omega)), k - 1, counted, le_rfl, limit⟩
    rw [successes, List.length_cons, firstOnly_succ, ok, List.cons.injEq]
    by_cases none_ : j = 0
    · simp [none_]
    · have able' : ∀ r' ∈ rest, r'.Able (r.run m).2 := fun r' mem =>
        able_congr limit (able r' (List.mem_cons_of_mem _ mem))
      rw [ih left' (by omega : j - 1 < k') able']
      simp only [Nat.pos_of_ne_zero none_, decide_true, true_and]
      omega

theorem successes_counted {m : Memlimit} {k : ℕ} (left : m.poisonedIdx = k) {requests : List AllocRequest}
    (able : ∀ r ∈ requests, r.Able m) :
    successes m requests = firstOnly k requests.length ↔
      requests.length ≤ k ∨ ∀ r ∈ requests, r.isPalloc = false := by
  induction requests generalizing m k with
  | nil => simp [successes]
  | cons r rest ih =>
    have here := able r List.mem_cons_self
    rw [successes, List.length_cons, firstOnly_succ, List.cons.injEq, List.forall_mem_cons]
    cases palloc_ : r.isPalloc with
    | true =>
      obtain ⟨ok, kept, limit⟩ := run_palloc here palloc_
      have able' : ∀ r' ∈ rest, r'.Able (r.run m).2 := fun r' mem =>
        able_congr limit (able r' (List.mem_cons_of_mem _ mem))
      rw [ok]
      by_cases none_ : k = 0
      · simp [none_]
      · rw [successes_behind (kept.trans left) (by omega : k - 1 < k) able']
        simp only [Nat.pos_of_ne_zero none_, decide_true, true_and, Bool.true_eq_false, false_and, or_false]
        omega
    | false =>
      obtain ⟨ok, counted, limit⟩ := run_counts left here palloc_
      rw [ok, ih counted fun r' mem => able_congr limit (able r' (List.mem_cons_of_mem _ mem))]
      simp only [true_and]
      by_cases none_ : k = 0
      · subst none_
        simp only [Nat.zero_sub, Nat.le_zero, List.length_eq_zero_iff, Nat.succ_ne_zero, false_or,
          or_iff_right_iff_imp]
        rintro rfl r' mem
        cases mem
      · exact or_congr_left (by omega)

/-- After `failloc_on_n(n)` just the first `n` requests succeed if there are no more of them, and
where there are more, just when none of them is made of `Palloc`. -/
theorem faillocOnN_iff (m : Memlimit) (n : ℕ) (requests : List AllocRequest)
    (able : ∀ r ∈ requests, r.Able m) :
    successes (faillocOnN m n) requests = firstOnly n requests.length ↔
      requests.length ≤ n ∨ ∀ r ∈ requests, r.isPalloc = false :=
  successes_counted rfl fun r mem => able_congr rfl (able r mem)

def poisonedShare : List AllocRequest := [.malloc 1 4096, .palloc 8 0 50 8192]

theorem palloc_not_poisoned :
    (∀ r ∈ poisonedShare, r.Able (.initial (2 ^ 20))) ∧
      successes (faillocOnN (.initial (2 ^ 20)) 1) poisonedShare ≠ firstOnly 1 poisonedShare.length := by
  decide +kernel

theorem faillocOnN_iff_mapped :
    successes (faillocOnN (.initial 0) 1) [.malloc 1 4096, .mmalloc 4096 8192] = firstOnly 1 2 ↔
      2 ≤ 1 ∨ ∀ r ∈ [AllocRequest.malloc 1 4096, .mmalloc 4096 8192], r.isPalloc = false :=
  faillocOnN_iff (.initial 0) 1 [.malloc 1 4096, .mmalloc 4096 8192] (by decide +kernel)

end Libdank.MemLimit
