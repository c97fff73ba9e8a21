import Libdank.Foundation.SpanPoints
import Libdank.IpSet.Canonical
import Libdank.IpSet.Comparisons

/-! The queries of `objects/ipset.c` on canonical sets, answered from the ranges
alone, against the addresses the sets hold; and the order on sets. -/
namespace Libdank.IpSet
open SeparatedRanges

theorem points_eq_image (rs : List Iprange) :
    points (rs.map Iprange.span) = UInt32.toNat '' addresses rs := by
  ext x
  constructor
  · intro hx
    obtain ⟨s, hs, lo, hi⟩ := mem_points.mp hx
    obtain ⟨r, hr, rfl⟩ := List.mem_map.mp hs
    have fits : (UInt32.ofNat x).toNat = x :=
      UInt32.toNat_ofNat_of_lt' (lt_of_le_of_lt hi r.upper.toNat_lt)
    exact ⟨UInt32.ofNat x, mem_addresses.mpr (by rwa [fits]), fits⟩
  · rintro ⟨y, hy, rfl⟩
    exact mem_addresses.mp hy

theorem addresses_subset_iff {rs ss : List Iprange} :
    addresses ss ⊆ addresses rs ↔ points (ss.map Iprange.span) ⊆ points (rs.map Iprange.span) := by
  rw [points_eq_image, points_eq_image, Set.image_subset_image_iff fun x y => UInt32.toNat_inj.mp]

theorem Canonical.unique {rs ss : List Iprange} (cr : Canonical rs) (cs : Canonical ss)
    (same : addresses rs = addresses ss) : rs = ss := by
  refine span_injective.list_map ?_
  refine ((canonical_iff_separated rs).mp cr).unique ((canonical_iff_separated ss).mp cs) ?_
  rw [points_eq_image, points_eq_image, same]

theorem Canonical.tail {r : Iprange} {rest : List Iprange} (canonical : Canonical (r :: rest)) :
    Canonical rest :=
  ⟨fun s hs => canonical.ordered s (by simp [hs]), (List.pairwise_cons.mp canonical.apart).2⟩

theorem mem_addresses_cons {r : Iprange} {rest : List Iprange} {x : UInt32} :
    x ∈ addresses (r :: rest) ↔ x ∈ r.addresses ∨ x ∈ addresses rest := by
  simp [addresses]

theorem Canonical.not_mem_of_le {r : Iprange} {rest : List Iprange}
    (canonical : Canonical (r :: rest)) {x : UInt32} (le : x ≤ r.upper) : x ∉ addresses rest := by
  rintro ⟨s, hs, lo, -⟩
  have later := (List.pairwise_cons.mp canonical.apart).1 s hs
  rw [UInt32.le_iff_toNat_le] at le lo
  omega

theorem ipInSet_iff {a : Ipset} (canonical : Canonical a.ranges) (x : UInt32) :
    ipInSet a x = true ↔ x ∈ addresses a.ranges := by
  rw [ipInSet]
  generalize a.ranges = rs at canonical
  induction rs with
  | nil => simp [inRanges, addresses]
  | cons r rest ih =>
    rw [inRanges, mem_addresses_cons]
    split_ifs with below inside
    · have up := canonical.ordered r (by simp)
      have absent := canonical.not_mem_of_le (UInt32.le_trans (UInt32.le_of_lt below) up)
      rw [or_iff_left absent]
      exact iff_of_false not_false fun h => UInt32.not_lt.mpr h.1 below
    · exact iff_of_true rfl (.inl ⟨UInt32.not_lt.mp below, inside⟩)
    · rw [ih canonical.tail, or_iff_right fun h => inside h.2]

theorem meet_iff {r s : Iprange} (hr : r.lower ≤ r.upper) (hs : s.lower ≤ s.upper) :
    (∃ x, x ∈ r.addresses ∧ x ∈ s.addresses) ↔ r.lower ≤ s.upper ∧ s.lower ≤ r.upper := by
  constructor
  · rintro ⟨x, xr, xs⟩
    exact ⟨UInt32.le_trans xr.1 xs.2, UInt32.le_trans xs.1 xr.2⟩
  · rintro ⟨first, second⟩
    rcases UInt32.le_total r.lower s.lower with le | le
    · exact ⟨s.lower, ⟨le, second⟩, ⟨UInt32.le_refl _, hs⟩⟩
    · exact ⟨r.lower, ⟨UInt32.le_refl _, hr⟩, ⟨le, first⟩⟩

theorem overlap_iff {ir cur : Iprange} (hr : ir.lower ≤ ir.upper) (hc : cur.lower ≤ cur.upper) :
    (ir.upper ≤ cur.upper ∧ cur.lower ≤ ir.upper) ∨ (ir.lower ≤ cur.upper ∧ cur.lower ≤ ir.lower) ∨
      (ir.lower ≤ cur.lower ∧ cur.upper ≤ ir.upper) ↔
    ir.lower ≤ cur.upper ∧ cur.lower ≤ ir.upper := by
  simp only [UInt32.le_iff_toNat_le] at *
  omega

theorem iprangeClashes_iff {a : Ipset} (ordered : ∀ r ∈ a.ranges, r.lower ≤ r.upper) {ir : Iprange}
    (hr : ir.lower ≤ ir.upper) :
    iprangeClashes a ir = true ↔ ∃ x, x ∈ ir.addresses ∧ x ∈ addresses a.ranges := by
  have each : ∀ cur ∈ a.ranges,
      ((if ir.upper ≤ cur.upper ∧ cur.lower ≤ ir.upper then true
        else if ir.lower ≤ cur.upper ∧ cur.lower ≤ ir.lower then true
        else decide (ir.lower ≤ cur.lower ∧ cur.upper ≤ ir.upper)) = true ↔
      ∃ x, x ∈ ir.addresses ∧ x ∈ cur.addresses) := by
    intro cur hc
    rw [meet_iff hr (ordered cur hc), ← overlap_iff hr (ordered cur hc)]
    split_ifs <;> simp [*]
  rw [iprangeClashes, List.any_eq_true]
  constructor
  · rintro ⟨cur, hc, clash⟩
    obtain ⟨x, here, there⟩ := (each cur hc).mp clash
    exact ⟨x, here, cur, hc, there⟩
  · rintro ⟨x, here, cur, hc, there⟩
    exact ⟨cur, hc, (each cur hc).mpr ⟨x, here, there⟩⟩

theorem ipsetsClash_iff {a b : Ipset} (ca : ∀ r ∈ a.ranges, r.lower ≤ r.upper)
    (cb : ∀ r ∈ b.ranges, r.lower ≤ r.upper) :
    ipsetsClash a b = true ↔ ∃ x, x ∈ addresses a.ranges ∧ x ∈ addresses b.ranges := by
  rw [ipsetsClash, List.any_eq_true]
  constructor
  · rintro ⟨cur, hc, clash⟩
    obtain ⟨x, here, there⟩ := (iprangeClashes_iff ca (cb cur hc)).mp clash
    exact ⟨x, there, cur, hc, here⟩
  · rintro ⟨x, there, cur, hc, here⟩
    exact ⟨cur, hc, (iprangeClashes_iff ca (cb cur hc)).mpr ⟨x, here, there⟩⟩

theorem ipInRange_iff {r : Iprange} {x : UInt32} : ipInRange r x = true ↔ x ∈ r.addresses := by
  simp [ipInRange, Iprange.addresses]

theorem enclosedIn_iff {isub : Iprange} (up : isub.lower ≤ isub.upper) {rs : List Iprange}
    (canonical : Canonical rs) :
    enclosedIn isub rs = true ↔ ∃ r ∈ rs, r.lower ≤ isub.lower ∧ isub.upper ≤ r.upper := by
  induction rs with
  | nil => simp [enclosedIn]
  | cons i rest ih =>
    have tail := ih canonical.tail
    rw [enclosedIn, List.exists_mem_cons_iff]
    split_ifs with holds
    · obtain ⟨lo, hi⟩ := ipInRange_iff.mp holds
      have absent := canonical.not_mem_of_le hi
      rw [ipInRange_iff]
      constructor
      · exact fun last => .inl ⟨lo, last.2⟩
      · rintro (⟨-, last⟩ | ⟨r, hr, first, last⟩)
        · exact ⟨UInt32.le_trans lo up, last⟩
        · exact absurd ⟨r, hr, first, UInt32.le_trans up last⟩ absent
    · rw [tail, or_iff_right]
      rintro ⟨first, last⟩
      exact holds (ipInRange_iff.mpr ⟨first, UInt32.le_trans up last⟩)

theorem ipsetEncloses_iff {a b : Ipset} (ca : Canonical a.ranges)
    (cb : ∀ r ∈ b.ranges, r.lower ≤ r.upper) :
    ipsetEncloses a b = true ↔ addresses b.ranges ⊆ addresses a.ranges := by
  have ordered : ∀ s ∈ b.ranges.map Iprange.span, s.lo ≤ s.hi := by
    intro s hs
    obtain ⟨r, hr, rfl⟩ := List.mem_map.mp hs
    exact UInt32.le_iff_toNat_le.mp (cb r hr)
  rw [addresses_subset_iff, points_subset_iff ((canonical_iff_separated _).mp ca) ordered,
    ipsetEncloses, List.all_eq_true]
  simp only [List.mem_map, exists_exists_and_eq_and, forall_exists_index, and_imp,
    forall_apply_eq_imp_iff₂, span_lo, span_hi, ← UInt32.le_iff_toNat_le]
  exact forall₂_congr fun r hr => enclosedIn_iff (cb r hr) ca

/-- The answers are those about the addresses held. -/
theorem queries_exact {a b : Ipset} (ca : Canonical a.ranges) (cb : Canonical b.ranges)
    {r : Iprange} (ordered : r.lower ≤ r.upper) (x : UInt32) :
    (ipInSet a x = true ↔ x ∈ addresses a.ranges) ∧
      (iprangeClashes a r = true ↔ ∃ y, y ∈ r.addresses ∧ y ∈ addresses a.ranges) ∧
      (ipsetsClash a b = true ↔ ∃ y, y ∈ addresses a.ranges ∧ y ∈ addresses b.ranges) ∧
      (ipsetEncloses a b = true ↔ addresses b.ranges ⊆ addresses a.ranges) :=
  ⟨ipInSet_iff ca x, iprangeClashes_iff ca.ordered ordered, ipsetsClash_iff ca.ordered cb.ordered,
    ipsetEncloses_iff ca cb.ordered⟩

theorem queries_exact_corners :
    let a : Ipset := ⟨[⟨0, 6⟩, ⟨10, 0xffffffff⟩], 2, 2⟩
    (ipInSet a 9 = true ↔ 9 ∈ addresses a.ranges) ∧
      (iprangeClashes a ⟨7, 9⟩ = true ↔ ∃ y, y ∈ (⟨7, 9⟩ : Iprange).addresses ∧ y ∈ addresses a.ranges) ∧
      (ipsetsClash a a = true ↔ ∃ y, y ∈ addresses a.ranges ∧ y ∈ addresses a.ranges) ∧
      (ipsetEncloses a a = true ↔ addresses a.ranges ⊆ addresses a.ranges) :=
  queries_exact ⟨by simp, by simp⟩ ⟨by simp, by simp⟩ (by decide) 9

def Iprange.key (r : Iprange) : ℕ ×ₗ ℕ := toLex (r.lower.toNat, r.upper.toNat)

theorem key_injective : Function.Injective Iprange.key := by
  intro r s same
  refine span_injective ?_
  obtain ⟨lower, upper⟩ := Prod.mk.inj (toLex.injective same)
  exact Span.ext lower upper

theorem key_lt_iff {r s : Iprange} :
    r.key < s.key ↔ r.lower < s.lower ∨ r.lower = s.lower ∧ r.upper < s.upper := by
  rw [Iprange.key, Iprange.key, Prod.Lex.toLex_lt_toLex, UInt32.lt_iff_toNat_lt,
    UInt32.lt_iff_toNat_lt, ← UInt32.toNat_inj]

theorem rangesCmp_cons (r0 r1 : Iprange) (rest0 rest1 : List Iprange) :
    rangesCmp (r0 :: rest0) (r1 :: rest1) =
      if r0.key < r1.key then -1 else if r1.key < r0.key then 1 else rangesCmp rest0 rest1 := by
  rw [rangesCmp]
  simp only [key_lt_iff, gt_iff_lt, UInt32.lt_iff_toNat_lt, ← UInt32.toNat_inj]
  split_ifs <;> first | rfl | omega

theorem rangesCmp_swap (l0 l1 : List Iprange) : rangesCmp l1 l0 = -rangesCmp l0 l1 := by
  induction l0 generalizing l1 with
  | nil => cases l1 <;> rfl
  | cons r0 rest0 ih =>
    cases l1 with
    | nil => rfl
    | cons r1 rest1 =>
      rw [rangesCmp_cons, rangesCmp_cons, ih]
      rcases lt_trichotomy r0.key r1.key with less | same | more
      · rw [if_neg less.asymm, if_pos less, if_pos less]
        rfl
      · simp [same]
      · rw [if_pos more, if_neg more.asymm, if_pos more]

theorem rangesCmp_neg_iff {l0 l1 : List Iprange} :
    rangesCmp l0 l1 < 0 ↔ l0.map Iprange.key < l1.map Iprange.key := by
  induction l0 generalizing l1 with
  | nil => cases l1 <;> simp [rangesCmp]
  | cons r0 rest0 ih =>
    cases l1 with
    | nil => simp [rangesCmp]
    | cons r1 rest1 =>
      rw [List.map_cons, List.map_cons, List.cons_lt_cons_iff, rangesCmp_cons, ← ih]
      rcases lt_trichotomy r0.key r1.key with less | same | more
      · simp [less]
      · simp [same]
      · simp [more, more.asymm, more.ne']

theorem rangesCmp_nonpos_iff {l0 l1 : List Iprange} :
    rangesCmp l0 l1 ≤ 0 ↔ l0.map Iprange.key ≤ l1.map Iprange.key := by
  rw [← not_lt, ← not_lt, ← rangesCmp_neg_iff, rangesCmp_swap l0 l1, neg_lt_zero]

theorem rangesCmp_eq_zero_iff {l0 l1 : List Iprange} : rangesCmp l0 l1 = 0 ↔ l0 = l1 := by
  rw [← (key_injective.list_map).eq_iff, le_antisymm_iff, le_antisymm_iff, ← rangesCmp_nonpos_iff,
    ← rangesCmp_nonpos_iff, rangesCmp_swap l0 l1, neg_nonpos]

theorem ipsetsEqual_iff {a b : Ipset} : ipsetsEqual a b = true ↔ a.ranges = b.ranges := by
  rw [ipsetsEqual]
  split_ifs with count none_
  · exact iff_of_false not_false fun same => count (congrArg List.length same)
  · refine iff_of_true rfl ?_
    rw [ne_eq, not_not, none_] at count
    rw [List.length_eq_zero_iff.mp none_, List.length_eq_zero_iff.mp count.symm]
  · exact decide_eq_true_iff

/-- On canonical sets both comparisons are of the addresses held, and one of
them is a total order. -/
theorem ipsetCmp_order {a b c : Ipset} (ca : Canonical a.ranges) (cb : Canonical b.ranges) :
    (ipsetsEqual a b = true ↔ ipsetCmp a b = 0) ∧
      (ipsetCmp a b = 0 ↔ addresses a.ranges = addresses b.ranges) ∧
      (ipsetCmp b a).sign = -(ipsetCmp a b).sign ∧
      (ipsetCmp a b ≤ 0 → ipsetCmp b c ≤ 0 → ipsetCmp a c ≤ 0) := by
  simp only [ipsetCmp, ipsetsEqual_iff, rangesCmp_eq_zero_iff, rangesCmp_nonpos_iff]
  refine ⟨trivial, ⟨congrArg addresses, ca.unique cb⟩, ?_, le_trans⟩
  rw [rangesCmp_swap a.ranges b.ranges, Int.sign_neg]

theorem ipsetCmp_order_prefix :
    let a : Ipset := ⟨[⟨1, 5⟩], 1, 1⟩
    let b : Ipset := ⟨[⟨1, 5⟩, ⟨7, 9⟩], 2, 2⟩
    (ipsetsEqual a b = true ↔ ipsetCmp a b = 0) ∧
      (ipsetCmp a b = 0 ↔ addresses a.ranges = addresses b.ranges) ∧
      (ipsetCmp b a).sign = -(ipsetCmp a b).sign ∧
      (ipsetCmp a b ≤ 0 → ipsetCmp b a ≤ 0 → ipsetCmp a a ≤ 0) :=
  ipsetCmp_order ⟨by simp, by simp⟩ ⟨by simp, by simp⟩

end Libdank.IpSet
