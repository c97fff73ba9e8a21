import Libdank.MemLimit.Operations

/-! What `Palloc` hands out of the memory that the limit leaves. -/
namespace Libdank.MemLimit
open MmapWindow

/-- A percentage of what is left, and of that nine tenths at most. -/
def share (left p : ℕ) : ℕ := min (left / 100 * p) (left / 10 * 9)

/-- The count is that of the objects, nine tenths of what is left are not exceeded, and
nothing is handed out where nothing is left. -/
def HonestShare (limit used osiz p : ℕ) : Prop :=
  ∀ (m : Memlimit) (answer : Option ℕ), m.memoryUsageLimit = limit →
    ∀ s m', palloc m osiz used p answer = some (some s, m') →
      s.num * osiz = s.bytes ∧ 10 * s.bytes ≤ 9 * (limit - used) ∧ used < limit

theorem wordSub_eq {limit used : ℕ} (wide : limit < 2 ^ 64) (used_ : used < 2 ^ 64) :
    wordSub limit used = if used ≤ limit then limit - used else 2 ^ 64 - (used - limit) := by
  rw [wordSub, word, word, Nat.mod_eq_of_lt used_]
  split_ifs with within
  · rw [show limit + (2 ^ 64 - used) = limit - used + 2 ^ 64 by omega, Nat.add_mod_right]
    exact Nat.mod_eq_of_lt (by omega)
  · rw [show limit + (2 ^ 64 - used) = 2 ^ 64 - (used - limit) by omega]
    exact Nat.mod_eq_of_lt (by omega)

theorem sizePallocReq_eq {m : Memlimit} {used p : ℕ} (some_ : m.memoryUsageLimit ≠ 0) (high : p ≤ 100) :
    sizePallocReq m used p = share (wordSub m.memoryUsageLimit used) p := by
  have left : wordSub m.memoryUsageLimit used < 2 ^ 64 := Nat.mod_lt _ (by norm_num)
  have percentage : wordSub m.memoryUsageLimit used / 100 * p ≤ wordSub m.memoryUsageLimit used :=
    (Nat.mul_le_mul_left _ high).trans (Nat.div_mul_le_self _ _)
  rw [sizePallocReq, if_neg some_]
  dsimp only
  rw [word, word, Nat.mod_eq_of_lt (by omega), Nat.mod_eq_of_lt (by omega), share, min_def]
  split_ifs <;> omega

theorem ten_share_le (left p : ℕ) : 10 * share left p ≤ 9 * left := by
  have capped : share left p ≤ left / 10 * 9 := min_le_right _ _
  omega

theorem palloc_some {m : Memlimit} {osiz used p : ℕ} (object : 1 ≤ osiz) (low : 1 ≤ p) (high : p ≤ 100)
    (answer : Option ℕ) (s : Share) :
    (∃ m', palloc m osiz used p answer = some (some s, m')) ↔
      osiz ≤ sizePallocReq m used p ∧ answer = some s.ret ∧
        s.num = sizePallocReq m used p / osiz % 2 ^ 32 ∧ s.bytes = sizePallocReq m used p / osiz * osiz := by
  have same : sizePallocReq { m with allocsReqd := m.allocsReqd + 1 } used p = sizePallocReq m used p := rfl
  have whole : sizePallocReq m used p - sizePallocReq m used p % osiz =
      sizePallocReq m used p / osiz * osiz := by
    have parts := Nat.div_add_mod' (sizePallocReq m used p) osiz
    omega
  rw [palloc, if_neg (by omega)]
  dsimp only
  rw [same, whole, Nat.mul_div_cancel _ object]
  by_cases few : sizePallocReq m used p < osiz
  · rw [if_pos few]
    simp [few]
  · rw [if_neg few, if_neg (by omega)]
    cases answer with
    | none => simp
    | some ret =>
      obtain ⟨ret', num, bytes⟩ := s
      simp only [Option.some.injEq, Prod.mk.injEq, Share.mk.injEq, exists_and_left, exists_eq', and_true]
      constructor
      · rintro ⟨rfl, rfl, rfl⟩
        exact ⟨not_lt.mp few, rfl, rfl, rfl⟩
      · rintro ⟨-, rfl, rfl, rfl⟩
        exact ⟨rfl, rfl, rfl⟩

theorem count_iff {share osiz : ℕ} (object : 1 ≤ osiz) :
    share / osiz % 2 ^ 32 * osiz = share / osiz * osiz ↔ share < osiz * 2 ^ 32 := by
  rw [Nat.mul_left_inj (by omega), Nat.mod_eq_iff_lt (by norm_num), Nat.div_lt_iff_lt_mul object, mul_comm]

theorem sizePallocReq_left {m : Memlimit} {limit used p : ℕ} (same : m.memoryUsageLimit = limit)
    (some_ : limit ≠ 0) (wide : limit < 2 ^ 64) (used_ : used < 2 ^ 64) (high : p ≤ 100) :
    sizePallocReq m used p = share (if used ≤ limit then limit - used else 2 ^ 64 - (used - limit)) p := by
  rw [sizePallocReq_eq (same ▸ some_) high, same, wordSub_eq wide used_]

theorem HonestShare.handed {limit used osiz p : ℕ} (honest : HonestShare limit used osiz p)
    (object : 1 ≤ osiz) (low : 1 ≤ p) (high : p ≤ 100) {size : ℕ} (sized : sizePallocReq (.initial limit) used p = size)
    (few : osiz ≤ size) : size / osiz % 2 ^ 32 * osiz = size / osiz * osiz ∧ used < limit := by
  subst sized
  obtain ⟨m', ok⟩ := (palloc_some object low high (some 0)
    ⟨0, sizePallocReq (.initial limit) used p / osiz % 2 ^ 32,
      sizePallocReq (.initial limit) used p / osiz * osiz⟩).mpr ⟨few, rfl, rfl, rfl⟩
  obtain ⟨count, -, left⟩ := honest _ _ rfl _ m' ok
  exact ⟨count, left⟩

/-- A share is honest just when there is no limit, or the limit is not exceeded and the objects
are fewer than 2^32, or it is exceeded and what is left of 2^64 gives not one object. -/
theorem honestShare_iff (limit used osiz p : ℕ) (wide : limit < 2 ^ 64) (used_ : used < 2 ^ 64)
    (object : 1 ≤ osiz) (low : 1 ≤ p) (high : p ≤ 100) :
    HonestShare limit used osiz p ↔ limit = 0 ∨
      (used ≤ limit ∧ share (limit - used) p < osiz * 2 ^ 32) ∨
      (limit < used ∧ share (2 ^ 64 - (used - limit)) p < osiz) := by
  by_cases none_ : limit = 0
  · refine iff_of_true (fun m answer same s m' handed => ?_) (Or.inl none_)
    have fits := ((palloc_some object low high answer s).mp ⟨m', handed⟩).1
    rw [sizePallocReq, if_pos (same.trans none_)] at fits
    omega
  · rw [or_iff_right none_]
    constructor
    · intro honest
      have size := @sizePallocReq_left (.initial limit) limit used p rfl none_ wide used_ high
      have handed := honest.handed object low high size
      by_cases within : used ≤ limit
      · simp only [if_pos within] at handed
        refine Or.inl ⟨within, ?_⟩
        by_cases few : osiz ≤ share (limit - used) p
        · exact (count_iff object).mp (handed few).1
        · omega
      · simp only [if_neg within] at handed
        refine Or.inr ⟨not_le.mp within, ?_⟩
        by_contra few
        have left := (handed (not_lt.mp few)).2
        omega
    · rintro sound m answer same s m' handed
      obtain ⟨few, -, num, bytes⟩ := (palloc_some object low high answer s).mp ⟨m', handed⟩
      rw [sizePallocReq_left same none_ wide used_ high] at few num bytes
      rcases sound with ⟨within, count⟩ | ⟨beyond, count⟩
      · rw [if_pos within] at few num bytes
        have tenths := ten_share_le (limit - used) p
        have whole := Nat.div_mul_le_self (share (limit - used) p) osiz
        refine ⟨?_, by omega, by omega⟩
        rw [num, bytes]
        exact (count_iff object).mpr count
      · rw [if_neg (by omega)] at few
        omega

/-- Half of 16 GiB for single bytes: the count that is stored has lost 2^32 of them. -/
theorem count_cut_off : ¬ HonestShare (2 ^ 34) 0 1 50 := by
  intro honest
  have handed : palloc (.initial (2 ^ 34)) 1 0 50 (some 4096) =
      some (some ⟨4096, 8589934550 % 2 ^ 32, 8589934550⟩, ⟨1, 1, 0, -1, 2 ^ 34⟩) := by
    decide +kernel
  exact absurd (honest (.initial (2 ^ 34)) (some 4096) rfl _ _ handed).1 (by decide)

theorem honestShare_iff_objects : HonestShare (2 ^ 34) 0 64 50 ↔ 2 ^ 34 = 0 ∨
    (0 ≤ 2 ^ 34 ∧ share (2 ^ 34 - 0) 50 < 64 * 2 ^ 32) ∨
    (2 ^ 34 < 0 ∧ share (2 ^ 64 - (0 - 2 ^ 34)) 50 < 64) :=
  honestShare_iff (2 ^ 34) 0 64 50 (by norm_num) (by norm_num) (by norm_num) (by norm_num) (by norm_num)

end Libdank.MemLimit
