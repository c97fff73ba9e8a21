import Libdank.Foundation.SeparatedRanges
import Mathlib.Data.List.Sort
import Mathlib.Data.Set.Card
import Mathlib.Order.Interval.Finset.Nat

/-! What a separated list of spans says about the set of its points: a span
inside the set lies inside a single span of the list, two lists with the same
points are the same list, and the widths add up to the number of points. -/
namespace Libdank.SeparatedRanges

theorem Separated.trichotomy {rs : List Span} (sep : Separated rs) {r s : Span} (hr : r ∈ rs)
    (hs : s ∈ rs) : r = s ∨ r.Before s ∨ s.Before r := by
  have : Std.Symm fun r s : Span => r = s ∨ r.Before s ∨ s.Before r := by
    constructor
    rintro r s (rfl | before | after)
    · exact .inl rfl
    · exact .inr (.inr before)
    · exact .inr (.inl after)
  have each : rs.Pairwise fun r s => r = s ∨ r.Before s ∨ s.Before r :=
    sep.apart.imp fun before => .inr (.inl before)
  exact each.forall_of_forall (fun r _ => .inl rfl) hr hs

theorem Separated.eq_of_meet {rs : List Span} (sep : Separated rs) {r s : Span} (hr : r ∈ rs)
    (hs : s ∈ rs) {x : ℕ} (xr : x ∈ r.points) (xs : x ∈ s.points) : r = s := by
  rw [Span.mem_points] at xr xs
  rcases sep.trichotomy hr hs with same | before | after
  · exact same
  all_goals
    simp only [Span.Before] at *
    omega

theorem Separated.covers_iff {rs : List Span} (sep : Separated rs) {s : Span} (hs : s.lo ≤ s.hi) :
    s.points ⊆ points rs ↔ ∃ r ∈ rs, r.lo ≤ s.lo ∧ s.hi ≤ r.hi := by
  constructor
  · intro inside
    obtain ⟨r, hr, lo, hi⟩ := mem_points.mp (inside (Span.mem_points.mpr ⟨le_rfl, hs⟩))
    refine ⟨r, hr, lo, not_lt.mp fun past => ?_⟩
    obtain ⟨t, ht, tlo, thi⟩ :=
      mem_points.mp (inside (Span.mem_points.mpr ⟨hi.trans (Nat.le_succ _), past⟩))
    rcases sep.trichotomy hr ht with same | before | after
    · rw [same] at thi
      omega
    all_goals
      have up := sep.ordered t ht
      simp only [Span.Before] at *
      omega
  · rintro ⟨r, hr, lo, hi⟩ x hx
    rw [Span.mem_points] at hx
    exact mem_points.mpr ⟨r, hr, lo.trans hx.1, hx.2.trans hi⟩

theorem points_subset_iff {rs ss : List Span} (sep : Separated rs) (ordered : ∀ s ∈ ss, s.lo ≤ s.hi) :
    points ss ⊆ points rs ↔ ∀ s ∈ ss, ∃ r ∈ rs, r.lo ≤ s.lo ∧ s.hi ≤ r.hi := by
  constructor
  · intro inside s hs
    refine (sep.covers_iff (ordered s hs)).mp fun x hx => inside ?_
    rw [Span.mem_points] at hx
    exact mem_points.mpr ⟨s, hs, hx⟩
  · intro each x hx
    obtain ⟨s, hs, here⟩ := mem_points.mp hx
    exact (sep.covers_iff (ordered s hs)).mpr (each s hs) (Span.mem_points.mpr here)

theorem mem_of_points_eq {rs ss : List Span} (sepr : Separated rs) (seps : Separated ss)
    (same : points rs = points ss) {r : Span} (hr : r ∈ rs) : r ∈ ss := by
  obtain ⟨s, hs, lo, hi⟩ := (points_subset_iff seps sepr.ordered).mp same.subset r hr
  obtain ⟨r', hr', lo', hi'⟩ := (points_subset_iff sepr seps.ordered).mp same.superset s hs
  have up := sepr.ordered r hr
  obtain rfl : r = r' := sepr.eq_of_meet hr hr' (Span.mem_points.mpr ⟨le_rfl, up⟩)
    (Span.mem_points.mpr ⟨lo'.trans lo, up.trans (hi.trans hi')⟩)
  obtain rfl : r = s := Span.ext (le_antisymm lo' lo) (le_antisymm hi hi')
  exact hs

theorem Separated.unique {rs ss : List Span} (sepr : Separated rs) (seps : Separated ss)
    (same : points rs = points ss) : rs = ss := by
  have rising : ∀ {l : List Span}, Separated l → l.Pairwise fun r s => r.lo < s.lo := by
    intro l sep
    refine sep.apart.imp_of_mem fun hr _ before => ?_
    have up := sep.ordered _ hr
    simp only [Span.Before] at before
    omega
  have : Std.Irrefl fun r s : Span => r.lo < s.lo := ⟨fun _ => lt_irrefl _⟩
  have : Std.Antisymm fun r s : Span => r.lo < s.lo := ⟨fun _ _ h h' => absurd h' h.asymm⟩
  exact (rising sepr).eq_of_mem_iff (rising seps) fun r =>
    ⟨mem_of_points_eq sepr seps same, mem_of_points_eq seps sepr same.symm⟩

def Span.width (r : Span) : ℕ := r.hi + 1 - r.lo

def extent (rs : List Span) : ℕ := (rs.map Span.width).sum

theorem Span.points_eq_Icc (r : Span) : r.points = ↑(Finset.Icc r.lo r.hi) := by
  ext x
  simp

theorem Span.ncard_points (r : Span) : r.points.ncard = r.width := by
  rw [r.points_eq_Icc, Set.ncard_coe_finset, Nat.card_Icc, Span.width]

theorem points_finite (rs : List Span) : (points rs).Finite := by
  induction rs with
  | nil => exact Set.finite_empty
  | cons r rest ih =>
    refine Set.Finite.union ?_ ih
    rw [r.points_eq_Icc]
    exact Finset.finite_toSet _

theorem Separated.ncard_points {rs : List Span} (sep : Separated rs) :
    (points rs).ncard = extent rs := by
  induction rs with
  | nil => simp [points, extent]
  | cons r rest ih =>
    obtain ⟨-, first, sep'⟩ := separated_cons.mp sep
    have apart : Disjoint r.points (points rest) := by
      rw [Set.disjoint_left]
      intro x here there
      obtain ⟨s, hs, lo, -⟩ := mem_points.mp there
      have later := first s hs
      rw [Span.mem_points] at here
      simp only [Span.Before] at later
      omega
    rw [points, Set.ncard_union_eq apart (points_finite [r] |>.subset Set.subset_union_left)
      (points_finite rest), ih sep', r.ncard_points]
    simp [extent]

theorem points_below {rs : List Span} {n : ℕ} (inside : ∀ r ∈ rs, r.hi < n) :
    points rs ⊆ ↑(Finset.range n) := by
  intro x hx
  obtain ⟨r, hr, -, hi⟩ := mem_points.mp hx
  simpa using hi.trans_lt (inside r hr)

theorem Separated.extent_le {rs : List Span} (sep : Separated rs) {n : ℕ}
    (inside : ∀ r ∈ rs, r.hi < n) : extent rs ≤ n := by
  have le := Set.ncard_le_ncard (points_below inside) (Finset.finite_toSet _)
  rwa [sep.ncard_points, Set.ncard_coe_finset, Finset.card_range] at le

theorem Separated.extent_eq_iff {rs : List Span} (sep : Separated rs) {n : ℕ}
    (inside : ∀ r ∈ rs, r.hi < n + 1) : extent rs = n + 1 ↔ rs = [⟨0, n⟩] := by
  have whole : Separated [⟨0, n⟩] := by simp [separated_cons, separated_nil]
  have all : points [⟨0, n⟩] = ↑(Finset.range (n + 1)) := by
    ext x
    simp [points]
  constructor
  · intro full
    refine sep.unique whole ?_
    rw [all]
    refine Set.eq_of_subset_of_ncard_le (points_below inside) ?_ (Finset.finite_toSet _)
    rw [sep.ncard_points, Set.ncard_coe_finset, Finset.card_range, full]
  · rintro rfl
    simp [extent, Span.width]

end Libdank.SeparatedRanges
