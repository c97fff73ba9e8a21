import Libdank.IpSet.Queries
import Libdank.IpSet.Overruns

/-! The number of addresses in a set, as `ipset_area` adds it up. -/
namespace Libdank.IpSet
open Requests Buffers SeparatedRanges

/-- The sum is kept in 64 bits, and each range is widened before it is measured. -/
def ipsetArea (is : Ipset) : UInt64 :=
  is.ranges.foldl (fun area r => area + (r.upper.toUInt64 - r.lower.toUInt64 + 1)) 0

theorem width_toUInt64 {r : Iprange} (up : r.lower ≤ r.upper) :
    (r.upper.toUInt64 - r.lower.toUInt64 + 1).toNat = r.span.width := by
  have lower := r.lower.toNat_lt
  have upper := r.upper.toNat_lt
  have le := UInt32.le_iff_toNat_le.mp up
  rw [UInt64.toNat_add, UInt64.toNat_sub, Span.width, span_lo, span_hi]
  simp only [UInt32.toNat_toUInt64, UInt64.reduceToNat]
  omega

theorem foldl_area {rs : List Iprange} (ordered : ∀ r ∈ rs, r.lower ≤ r.upper) {area : UInt64}
    (fits : area.toNat + extent (rs.map Iprange.span) < 2 ^ 64) :
    (rs.foldl (fun area r => area + (r.upper.toUInt64 - r.lower.toUInt64 + 1)) area).toNat =
      area.toNat + extent (rs.map Iprange.span) := by
  induction rs generalizing area with
  | nil => rfl
  | cons r rest ih =>
    have whole : extent ((r :: rest).map Iprange.span) =
        r.span.width + extent (rest.map Iprange.span) := by simp [extent]
    rw [whole] at fits ⊢
    have here : (area + (r.upper.toUInt64 - r.lower.toUInt64 + 1)).toNat = area.toNat + r.span.width := by
      rw [UInt64.toNat_add, width_toUInt64 (ordered r (by simp)), Nat.mod_eq_of_lt (by omega)]
    rw [List.foldl_cons, ih (fun s hs => ordered s (by simp [hs])) (by omega), here, Nat.add_assoc]

theorem ncard_addresses (rs : List Iprange) :
    (points (rs.map Iprange.span)).ncard = (addresses rs).ncard := by
  rw [points_eq_image, Set.ncard_image_of_injective _ fun x y => UInt32.toNat_inj.mp]

theorem addresses_finite (rs : List Iprange) : (addresses rs).Finite := by
  refine Set.Finite.of_finite_image ?_ fun x _ y _ => UInt32.toNat_inj.mp
  rw [← points_eq_image]
  exact points_finite _

theorem Canonical.extent_le {rs : List Iprange} (canonical : Canonical rs) :
    extent (rs.map Iprange.span) ≤ 2 ^ 32 := by
  refine ((canonical_iff_separated rs).mp canonical).extent_le fun s hs => ?_
  obtain ⟨r, hr, rfl⟩ := List.mem_map.mp hs
  exact r.upper.toNat_lt

theorem ipsetArea_eq {a : Ipset} (canonical : Canonical a.ranges) :
    (ipsetArea a).toNat = extent a.spans ∧ extent a.spans = (addresses a.ranges).ncard := by
  have le : extent a.spans ≤ 2 ^ 32 := canonical.extent_le
  constructor
  · have sum := @foldl_area a.ranges canonical.ordered 0 (by
      rw [Ipset.spans] at le
      simp only [UInt64.reduceToNat]
      omega)
    rwa [UInt64.toNat_zero, Nat.zero_add] at sum
  · rw [← ncard_addresses, ((canonical_iff_separated _).mp canonical).ncard_points, Ipset.spans]

/-- The area is the number of addresses, and whatever requests fail, a merge or a
purge stores inside its blocks, and if it succeeds changes the area by what it adds
or takes away, the addresses in common counted once. -/
structure AreaCounts [Leftover Iprange] (a b : Ipset) : Prop where
  counted : (ipsetArea a).toNat = (addresses a.ranges).ncard ∧ (addresses a.ranges).ncard ≤ 2 ^ 32
  merged : ∀ h, Tame h → Tame (mergeIpsets a b h).2 ∧
    ((mergeIpsets a b h).1.1 = true →
      (ipsetArea (mergeIpsets a b h).1.2).toNat + (addresses a.ranges ∩ addresses b.ranges).ncard =
        (ipsetArea a).toNat + (ipsetArea b).toNat)
  purged : ∀ h, Tame h → Tame (purgeIpsets a b h).2 ∧
    ((purgeIpsets a b h).1.1 = true →
      (ipsetArea (purgeIpsets a b h).1.2).toNat + (addresses a.ranges ∩ addresses b.ranges).ncard =
        (ipsetArea a).toNat)

theorem ipsetArea_counts_iff [Leftover Iprange] {a b : Ipset} (ca : Canonical a.ranges)
    (cb : Canonical b.ranges) : AreaCounts a b ↔ MergesWithin a b ∧ PurgesWithin a b := by
  have area {i : Ipset} (canonical : Canonical i.ranges) :
      (ipsetArea i).toNat = (addresses i.ranges).ncard :=
    (ipsetArea_eq canonical).1.trans (ipsetArea_eq canonical).2
  rw [← mergeStays_iff ca cb, ← purgeStays_iff ca cb]
  constructor
  · intro counts
    exact ⟨(mergeIpsets_tame_iff a b).mp fun h tame => (counts.merged h tame).1,
      (purgeIpsets_tame_iff a b).mp fun h tame => (counts.purged h tame).1⟩
  · rintro ⟨merges, purges⟩
    refine ⟨⟨area ca, (ipsetArea_eq ca).2 ▸ ca.extent_le⟩, fun h tame => ?_, fun h tame => ?_⟩
    · refine ⟨(mergeIpsets_tame_iff a b).mpr merges h tame, fun ok => ?_⟩
      obtain ⟨canonical, denotes⟩ := mergeIpsets_within ca cb merges tame ok
      rw [area canonical, denotes, area ca, area cb, Set.ncard_union_add_ncard_inter _ _
        (addresses_finite _) (addresses_finite _)]
    · refine ⟨(purgeIpsets_tame_iff a b).mpr purges h tame, fun ok => ?_⟩
      obtain ⟨canonical, denotes⟩ := purgeIpsets_within ca cb purges tame ok
      rw [area canonical, denotes, area ca, Nat.add_comm,
        Set.ncard_inter_add_ncard_sdiff_eq_ncard _ _ (addresses_finite _)]

section Bridged
open scoped Zeroed

/-- The gap of a set is filled, with addresses on both sides of it in common. -/
theorem ipsetArea_counts_bridge :
    AreaCounts ⟨[⟨0, 6⟩, ⟨10, 0xffffffff⟩], 2, 2⟩ ⟨[⟨5, 12⟩], 1, 1⟩ :=
  (ipsetArea_counts_iff ⟨by simp, by simp⟩ ⟨by simp, by simp⟩).mpr
    ⟨fun shrunken => absurd shrunken (by decide), fun shrunken => absurd shrunken (by decide)⟩

/-- {1, 5} is left of {1, 3, 5}: merging {7, 8, 10} loses the range of two addresses
stored past its copy. -/
theorem shrunken_merge_miscounts :
    let a : Ipset := ⟨[⟨1, 1⟩, ⟨5, 5⟩], 3, 3⟩
    let b : Ipset := ⟨[⟨7, 8⟩, ⟨10, 10⟩], 2, 2⟩
    (untilFailure Change.run initIpset
        [.add ⟨1, 1⟩, .add ⟨3, 3⟩, .add ⟨5, 5⟩, .del ⟨3, 3⟩] ⟨[], false⟩).1 = (true, a) ∧
      Canonical a.ranges ∧ Canonical b.ranges ∧ (mergeIpsets a b ⟨[], false⟩).1.1 = true ∧
      ipsetArea a = 2 ∧ ipsetArea b = 3 ∧ addresses a.ranges ∩ addresses b.ranges = ∅ ∧
      ipsetArea (mergeIpsets a b ⟨[], false⟩).1.2 = 4 ∧ ¬ AreaCounts a b := by
  have apart : addresses [⟨1, 1⟩, ⟨5, 5⟩] ∩ addresses [⟨7, 8⟩, ⟨10, 10⟩] = ∅ := by
    rw [Set.eq_empty_iff_forall_notMem]
    rintro x ⟨⟨r, hr, -, below⟩, s, hs, above, -⟩
    have low := (by decide : ∀ r ∈ [(⟨1, 1⟩ : Iprange), ⟨5, 5⟩], r.upper ≤ 5) r hr
    have high := (by decide : ∀ s ∈ [(⟨7, 8⟩ : Iprange), ⟨10, 10⟩], 7 ≤ s.lower) s hs
    exact absurd (UInt32.le_trans (UInt32.le_trans high above) (UInt32.le_trans below low)) (by decide)
  have four : ipsetArea (mergeIpsets ⟨[⟨1, 1⟩, ⟨5, 5⟩], 3, 3⟩ ⟨[⟨7, 8⟩, ⟨10, 10⟩], 2, 2⟩ ⟨[], false⟩).1.2 = 4 := by
    decide
  refine ⟨by decide, ⟨by simp, by simp⟩, ⟨by simp, by simp⟩, by decide, by decide, by decide, apart, four,
    fun counts => ?_⟩
  have sum := (counts.merged ⟨[], false⟩ rfl).2 (by decide)
  rw [four, apart, Set.ncard_empty] at sum
  revert sum
  decide

end Bridged

end Libdank.IpSet
