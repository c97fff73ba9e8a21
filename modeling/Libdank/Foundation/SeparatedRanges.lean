import Mathlib.Data.Set.Basic
import Mathlib.Tactic

/-! Finite sets of naturals kept as ascending lists of closed spans with at
least one missing point between neighbours. One pass inserts a span, absorbing
every span it touches; one pass cuts a span out. Both passes are exact: no
width is assumed here, and the fixed-width programs that implement them are
compared with these definitions, not the other way round. -/
namespace Libdank.SeparatedRanges

@[ext] structure Span where
  lo : ℕ
  hi : ℕ
deriving DecidableEq, Repr

def Span.Before (r s : Span) : Prop := r.hi + 1 < s.lo

structure Separated (rs : List Span) : Prop where
  ordered : ∀ r ∈ rs, r.lo ≤ r.hi
  apart : rs.Pairwise Span.Before

def Span.points (r : Span) : Set ℕ := {x | r.lo ≤ x ∧ x ≤ r.hi}

@[simp] theorem Span.mem_points {r : Span} {x : ℕ} : x ∈ r.points ↔ r.lo ≤ x ∧ x ≤ r.hi :=
  Iff.rfl

def points : List Span → Set ℕ
  | [] => ∅
  | r :: rest => r.points ∪ points rest

theorem mem_points {rs : List Span} {x : ℕ} :
    x ∈ points rs ↔ ∃ r ∈ rs, r.lo ≤ x ∧ x ≤ r.hi := by
  induction rs with
  | nil => simp [points]
  | cons r rest ih => simp [points, ih]

theorem separated_nil : Separated [] := ⟨by simp, List.Pairwise.nil⟩

theorem separated_cons {r : Span} {rest : List Span} :
    Separated (r :: rest) ↔
      r.lo ≤ r.hi ∧ (∀ s ∈ rest, r.Before s) ∧ Separated rest := by
  constructor
  · rintro ⟨ordered, apart⟩
    obtain ⟨first, others⟩ := List.pairwise_cons.mp apart
    exact ⟨ordered r (by simp), first, fun s hs => ordered s (by simp [hs]), others⟩
  · rintro ⟨here, first, ordered, apart⟩
    refine ⟨fun s hs => ?_, List.pairwise_cons.mpr ⟨first, apart⟩⟩
    rcases List.mem_cons.mp hs with rfl | hs
    · exact here
    · exact ordered s hs

/-- Grow `cur` upwards over every following span it overlaps or touches. -/
def absorb (cur : Span) : List Span → List Span
  | [] => [cur]
  | next :: rest =>
    if cur.hi + 1 < next.lo then cur :: next :: rest
    else absorb ⟨cur.lo, max cur.hi next.hi⟩ rest

def adjoin (m : Span) : List Span → List Span
  | [] => [m]
  | cur :: rest =>
    if cur.hi + 1 < m.lo then cur :: adjoin m rest
    else if m.hi + 1 < cur.lo then m :: cur :: rest
    else if m.hi ≤ cur.hi then ⟨min m.lo cur.lo, cur.hi⟩ :: rest
    else absorb ⟨min m.lo cur.lo, m.hi⟩ rest

def excise (c : Span) : List Span → List Span
  | [] => []
  | cur :: rest =>
    if cur.hi < c.lo ∨ c.hi < cur.lo then cur :: excise c rest
    else if c.lo ≤ cur.lo then
      if c.hi < cur.hi then ⟨c.hi + 1, cur.hi⟩ :: rest else excise c rest
    else if cur.hi ≤ c.hi then ⟨cur.lo, c.lo - 1⟩ :: excise c rest
    else ⟨cur.lo, c.lo - 1⟩ :: ⟨c.hi + 1, cur.hi⟩ :: rest

def skip (m : Span) : List Span → ℕ
  | [] => 0
  | cur :: rest => if cur.hi + 1 < m.lo then skip m rest + 1 else 0

/-- How many leading spans a span ending at `hi` absorbs, and its end then. -/
def eat (hi : ℕ) : List Span → ℕ × ℕ
  | [] => (0, hi)
  | next :: rest =>
    if hi + 1 < next.lo then (0, hi)
    else ((eat (max hi next.hi) rest).1 + 1, (eat (max hi next.hi) rest).2)

theorem absorb_eq_eat (cur : Span) (rest : List Span) :
    absorb cur rest = ⟨cur.lo, (eat cur.hi rest).2⟩ :: rest.drop (eat cur.hi rest).1 := by
  induction rest generalizing cur with
  | nil => rfl
  | cons next rest ih =>
    rw [absorb, eat]
    split_ifs with gap
    · rfl
    · rw [ih]
      rfl

theorem adjoin_ne_nil (m : Span) (rs : List Span) : adjoin m rs ≠ [] := by
  cases rs with
  | nil => simp [adjoin]
  | cons cur rest =>
    rw [adjoin, absorb_eq_eat]
    split_ifs <;> simp

theorem adjoin_after {m : Span} {rs : List Span} (past : ∀ r ∈ rs, r.Before m) :
    adjoin m rs = rs ++ [m] := by
  induction rs with
  | nil => rfl
  | cons cur rest ih =>
    have below : cur.hi + 1 < m.lo := past cur (by simp)
    rw [adjoin, if_pos below, ih fun r hr => past r (by simp [hr]), List.cons_append]

theorem eq_append_of_adjoin {β : Type} {span : β → Span} (injective : Function.Injective span)
    {r : β} {l l' : List β} (becomes : l'.map span = adjoin (span r) (l.map span))
    (past : ∀ s ∈ l, (span s).Before (span r)) : l' = l ++ [r] := by
  refine injective.list_map ?_
  rw [becomes, adjoin_after, List.map_append, List.map_singleton]
  intro s hs
  obtain ⟨t, ht, rfl⟩ := List.mem_map.mp hs
  exact past t ht

/-- Adjoining a span as an array program does it: find the place, then insert,
or stretch the span found there and close the gap over those absorbed. -/
theorem adjoin_at (m : Span) (rs : List Span) :
    adjoin m rs = match rs[skip m rs]? with
      | none => rs ++ [m]
      | some cur =>
        if m.hi + 1 < cur.lo then rs.take (skip m rs) ++ m :: rs.drop (skip m rs)
        else if m.hi ≤ cur.hi then rs.set (skip m rs) ⟨min m.lo cur.lo, cur.hi⟩
        else rs.take (skip m rs) ++
          ⟨min m.lo cur.lo, (eat m.hi (rs.drop (skip m rs + 1))).2⟩ ::
            rs.drop (skip m rs + 1 + (eat m.hi (rs.drop (skip m rs + 1))).1) := by
  induction rs with
  | nil => rfl
  | cons cur rest ih =>
    by_cases below : cur.hi + 1 < m.lo
    · rw [adjoin, if_pos below, ih]
      have step : skip m (cur :: rest) = skip m rest + 1 := by rw [skip, if_pos below]
      rw [step, List.getElem?_cons_succ]
      cases rest[skip m rest]? with
      | none => rfl
      | some next =>
        simp only [apply_ite (List.cons cur)]
        split_ifs <;> simp [Nat.add_right_comm _ 1]
    · have step : skip m (cur :: rest) = 0 := by rw [skip, if_neg below]
      rw [adjoin, if_neg below, step, absorb_eq_eat]
      simp [Nat.add_comm 1]

/-- Overwriting a cell and then closing a gap of `n` cells behind it. -/
theorem set_close {α : Type} (l : List α) (z n : ℕ) (x : α) (h : z < l.length) :
    (l.set z x).take (z + 1) ++ (l.set z x).drop (z + 1 + n) =
      l.take z ++ x :: l.drop (z + 1 + n) := by
  rw [List.take_set, List.drop_set_of_lt (by omega), List.take_succ_eq_append_getElem h,
    List.set_append_right _ _ (by simp)]
  simp [h.le]

theorem before_cons {r next : Span} {rest : List Span} (gap : r.Before next) (ordered : next.lo ≤ next.hi)
    (first : ∀ s ∈ rest, next.Before s) : ∀ s ∈ next :: rest, r.Before s := by
  refine List.forall_mem_cons.mpr ⟨gap, fun s hs => ?_⟩
  have later := first s hs
  simp only [Span.Before] at gap later ⊢
  omega

theorem absorb_spec (cur : Span) (rest : List Span) (here : cur.lo ≤ cur.hi)
    (starts : ∀ s ∈ rest, cur.lo ≤ s.lo) (sep : Separated rest) :
    Separated (absorb cur rest) ∧ (∀ s ∈ absorb cur rest, cur.lo ≤ s.lo) ∧
      points (absorb cur rest) = cur.points ∪ points rest := by
  induction rest generalizing cur with
  | nil => simp [absorb, points, separated_cons, separated_nil, here]
  | cons next rest ih =>
    obtain ⟨ordered, first, sep'⟩ := separated_cons.mp sep
    by_cases gap : cur.hi + 1 < next.lo
    · rw [absorb, if_pos gap]
      exact ⟨separated_cons.mpr ⟨here, before_cons gap ordered first, sep⟩,
        List.forall_mem_cons.mpr ⟨le_rfl, starts⟩, rfl⟩
    · have hn : cur.lo ≤ next.lo := starts next (by simp)
      obtain ⟨a, b, c⟩ := ih ⟨cur.lo, max cur.hi next.hi⟩ (le_trans here (le_max_left _ _))
        (fun s hs => starts s (by simp [hs])) sep'
      rw [absorb, if_neg gap]
      refine ⟨a, b, c.trans ?_⟩
      rw [points, ← Set.union_assoc]
      congr 1
      ext x
      simp only [Span.mem_points, Set.mem_union]
      omega

theorem before_absorb {r cur : Span} {rest : List Span} (here : r.Before cur)
    (first : ∀ s ∈ rest, r.Before s) : ∀ s ∈ absorb cur rest, r.Before s := by
  induction rest generalizing cur with
  | nil => exact List.forall_mem_singleton.mpr here
  | cons next rest ih =>
    rw [absorb]
    split_ifs
    · exact List.forall_mem_cons.mpr ⟨here, first⟩
    · have grown : r.Before ⟨cur.lo, max cur.hi next.hi⟩ := here
      exact ih grown (List.forall_mem_cons.mp first).2

/-- A span before everything in `rest` and before `m` stays before everything
the addition of `m` produces. -/
theorem before_adjoin {r m : Span} {rest : List Span} (hm : r.Before m)
    (first : ∀ s ∈ rest, r.Before s) : ∀ s ∈ adjoin m rest, r.Before s := by
  induction rest with
  | nil => exact List.forall_mem_singleton.mpr hm
  | cons cur rest ih =>
    obtain ⟨hcur, hrest⟩ := List.forall_mem_cons.mp first
    have hmin : r.hi + 1 < min m.lo cur.lo := lt_min hm hcur
    rw [adjoin]
    split_ifs
    · exact List.forall_mem_cons.mpr ⟨hcur, ih hrest⟩
    · exact List.forall_mem_cons.mpr ⟨hm, first⟩
    · exact List.forall_mem_cons.mpr ⟨hmin, hrest⟩
    · exact before_absorb hmin hrest

theorem adjoin_spec (m : Span) (rs : List Span) (hm : m.lo ≤ m.hi) (sep : Separated rs) :
    Separated (adjoin m rs) ∧ points (adjoin m rs) = points rs ∪ m.points := by
  induction rs with
  | nil => simp [adjoin, points, separated_cons, separated_nil, hm]
  | cons cur rest ih =>
    obtain ⟨ordered, first, sep'⟩ := separated_cons.mp sep
    obtain ⟨ihs, ihp⟩ := ih sep'
    have starts : ∀ s ∈ rest, min m.lo cur.lo ≤ s.lo := by
      intro s hs
      have later := first s hs
      simp only [Span.Before] at later
      omega
    rw [adjoin]
    split_ifs with below above inside
    · refine ⟨separated_cons.mpr ⟨ordered, before_adjoin below first, ihs⟩, ?_⟩
      rw [points, ihp, points, Set.union_assoc]
    · refine ⟨separated_cons.mpr ⟨hm, before_cons above ordered first, sep⟩, ?_⟩
      rw [points, Set.union_comm]
    · refine ⟨separated_cons.mpr ⟨le_trans (min_le_right _ _) ordered, first, sep'⟩, ?_⟩
      rw [points, points, Set.union_right_comm]
      congr 1
      ext x
      simp only [Span.mem_points, Set.mem_union]
      omega
    · obtain ⟨a, _, c⟩ := absorb_spec ⟨min m.lo cur.lo, m.hi⟩ rest
        (le_trans (min_le_left _ _) hm) starts sep'
      refine ⟨a, c.trans ?_⟩
      rw [points, Set.union_right_comm]
      congr 1
      ext x
      simp only [Span.mem_points, Set.mem_union]
      omega

theorem before_excise {r c : Span} {rest : List Span} (first : ∀ s ∈ rest, r.Before s) :
    ∀ s ∈ excise c rest, r.Before s := by
  induction rest with
  | nil => exact first
  | cons cur rest ih =>
    obtain ⟨hcur, hrest⟩ := List.forall_mem_cons.mp first
    have behind : ∀ hi, cur.lo ≤ c.hi → r.Before ⟨c.hi + 1, hi⟩ := by
      intro hi reached
      simp only [Span.Before] at hcur ⊢
      omega
    rw [excise]
    split_ifs
    · exact List.forall_mem_cons.mpr ⟨hcur, ih hrest⟩
    · exact List.forall_mem_cons.mpr ⟨behind _ (by omega), hrest⟩
    · exact ih hrest
    · exact List.forall_mem_cons.mpr ⟨hcur, ih hrest⟩
    · exact List.forall_mem_cons.mpr ⟨hcur, List.forall_mem_cons.mpr ⟨behind _ (by omega), hrest⟩⟩

theorem points_sdiff_of_past {c cur : Span} {rest : List Span} (first : ∀ s ∈ rest, Span.Before cur s)
    (past : c.hi < cur.hi) : points rest \ c.points = points rest := by
  rw [sdiff_eq_left, Set.disjoint_left]
  intro x hx hxc
  obtain ⟨s, hs, hlo, _⟩ := mem_points.mp hx
  have later := first s hs
  simp only [Span.Before] at later
  rw [Span.mem_points] at hxc
  omega

theorem excise_spec (c : Span) (rs : List Span) (hc : c.lo ≤ c.hi) (sep : Separated rs) :
    Separated (excise c rs) ∧ points (excise c rs) = points rs \ c.points := by
  induction rs with
  | nil => simp [excise, points, separated_nil]
  | cons cur rest ih =>
    obtain ⟨ordered, first, sep'⟩ := separated_cons.mp sep
    obtain ⟨ihs, ihp⟩ := ih sep'
    have clear := @points_sdiff_of_past c cur rest first
    rw [excise, points, Set.union_sdiff_distrib]
    split_ifs with apart low past high
    · refine ⟨separated_cons.mpr ⟨ordered, before_excise first, ihs⟩, ?_⟩
      rw [points, ihp]
      congr 1
      ext x
      simp only [Span.mem_points, Set.mem_sdiff]
      omega
    · refine ⟨separated_cons.mpr ⟨past, first, sep'⟩, ?_⟩
      rw [points, clear past]
      congr 1
      ext x
      simp only [Span.mem_points, Set.mem_sdiff]
      omega
    · refine ⟨ihs, ihp.trans ?_⟩
      have gone : cur.points \ c.points = ∅ := by
        rw [Set.sdiff_eq_empty]
        intro x hx
        rw [Span.mem_points] at hx ⊢
        omega
      rw [gone, Set.empty_union]
    · have shorter : ∀ s ∈ rest, Span.Before ⟨cur.lo, c.lo - 1⟩ s := by
        intro s hs
        have later := first s hs
        simp only [Span.Before] at later ⊢
        omega
      refine ⟨separated_cons.mpr ⟨by dsimp only; omega, before_excise shorter, ihs⟩, ?_⟩
      rw [points, ihp]
      congr 1
      ext x
      simp only [Span.mem_points, Set.mem_sdiff]
      omega
    · have upward : c.hi + 1 ≤ cur.hi := by omega
      have upper : Separated (⟨c.hi + 1, cur.hi⟩ :: rest) := separated_cons.mpr ⟨upward, first, sep'⟩
      have gap : Span.Before ⟨cur.lo, c.lo - 1⟩ ⟨c.hi + 1, cur.hi⟩ := by
        simp only [Span.Before]
        omega
      refine ⟨separated_cons.mpr ⟨by dsimp only; omega, before_cons gap upward first, upper⟩, ?_⟩
      rw [points, points, clear (by omega), ← Set.union_assoc]
      congr 1
      ext x
      simp only [Span.mem_points, Set.mem_sdiff, Set.mem_union]
      omega

theorem foldl_adjoin_spec (ms rs : List Span) (hm : ∀ m ∈ ms, m.lo ≤ m.hi) (sep : Separated rs) :
    Separated (ms.foldl (fun rs m => adjoin m rs) rs) ∧
      points (ms.foldl (fun rs m => adjoin m rs) rs) = points rs ∪ points ms := by
  induction ms generalizing rs with
  | nil => simp [points, sep]
  | cons m ms ih =>
    obtain ⟨sep', pts⟩ := adjoin_spec m rs (hm m (by simp)) sep
    obtain ⟨a, b⟩ := ih (adjoin m rs) (fun m hm' => hm m (by simp [hm'])) sep'
    refine ⟨a, b.trans ?_⟩
    rw [pts, points, Set.union_assoc]

theorem foldl_excise_spec (cs rs : List Span) (hc : ∀ c ∈ cs, c.lo ≤ c.hi) (sep : Separated rs) :
    Separated (cs.foldl (fun rs c => excise c rs) rs) ∧
      points (cs.foldl (fun rs c => excise c rs) rs) = points rs \ points cs := by
  induction cs generalizing rs with
  | nil => simp [points, sep]
  | cons c cs ih =>
    obtain ⟨sep', pts⟩ := excise_spec c rs (hc c (by simp)) sep
    obtain ⟨a, b⟩ := ih (excise c rs) (fun c hc' => hc c (by simp [hc'])) sep'
    refine ⟨a, b.trans ?_⟩
    rw [pts, points, Set.sdiff_sdiff]

end Libdank.SeparatedRanges
