import Libdank.PortSet.Canonical

/-! What merging does to a canonical set of ports, whether the range fits or
not: where port 0 alone comes to a set, the set grows down to it. -/
namespace Libdank.PortSet
open Requests SeparatedRanges

/-- The ports that come in with `pr` and are not asked for. -/
def swallows (s : Set UInt16) (pr : Portrange) : Set UInt16 :=
  {x | pr.upper = 0 ∧ s.Nonempty ∧ ∀ y ∈ s, x < y}

def mergeEffect (s : Set UInt16) (pr : Portrange) : Set UInt16 := s ∪ pr.ports ∪ swallows s pr

theorem holds_init : Holds ∅ initPortset :=
  ⟨⟨by simp [initPortset], List.Pairwise.nil⟩, by simp [initPortset, ports]⟩

theorem mem_ports_cons {r : Portrange} {rest : List Portrange} {x : UInt16} :
    x ∈ ports (r :: rest) ↔ x ∈ r.ports ∨ x ∈ ports rest := by
  simp [ports]

theorem lower_mem_ports {rs : List Portrange} (ordered : ∀ r ∈ rs, r.lower ≤ r.upper) {r : Portrange}
    (hr : r ∈ rs) : r.lower ∈ ports rs :=
  ⟨r, hr, UInt16.le_refl _, ordered r hr⟩

theorem swallows_of_fits {s : Set UInt16} {p : Portset} {pr : Portrange} (ordered : pr.lower ≤ pr.upper)
    (holds : Holds s p) (fits : Fits p pr) : swallows s pr ⊆ pr.ports := by
  rintro x ⟨zero, ⟨y, hy⟩, below⟩
  obtain ⟨canonical, rfl⟩ := holds
  obtain ⟨r, hr, -⟩ := id hy
  obtain ⟨first, rest, split⟩ := List.exists_cons_of_ne_nil (List.ne_nil_of_mem hr)
  have near : first.lower ≤ 1 := fits zero first (by simp [split])
  have less := below first.lower (lower_mem_ports canonical.ordered (by simp [split]))
  simp only [Portrange.ports, Set.mem_ofPred_eq, UInt16.le_iff_toNat_le, UInt16.lt_iff_toNat_lt, zero,
    UInt16.reduceToNat] at *
  omega

theorem ports_misfit {first : Portrange} {rest : List Portrange} (canonical : Canonical (first :: rest)) :
    Canonical (⟨0, first.upper⟩ :: rest) ∧
      ports (⟨0, first.upper⟩ :: rest) = mergeEffect (ports (first :: rest)) ⟨0, 0⟩ := by
  obtain ⟨ordered, apart⟩ := canonical
  obtain ⟨later, apart'⟩ := List.pairwise_cons.mp apart
  have up := ordered first (by simp)
  refine ⟨⟨fun r hr => ?_, List.pairwise_cons.mpr ⟨later, apart'⟩⟩, ?_⟩
  · rcases List.mem_cons.mp hr with rfl | hr
    · exact UInt16.zero_le
    · exact ordered r (by simp [hr])
  · have least : ∀ y ∈ ports (first :: rest), first.lower ≤ y := by
      rintro y ⟨r, hr, lo, -⟩
      rcases List.mem_cons.mp hr with rfl | hr
      · exact lo
      · have above := later r hr
        simp only [UInt16.le_iff_toNat_le] at *
        omega
    have first_ : first.lower ∈ ports (first :: rest) := lower_mem_ports ordered (by simp)
    ext x
    rw [mergeEffect, Set.mem_union, Set.mem_union, mem_ports_cons, mem_ports_cons]
    constructor
    · rintro (⟨-, hi⟩ | later)
      · by_cases inside : first.lower ≤ x
        · exact .inl (.inl (.inl ⟨inside, hi⟩))
        · refine .inr ⟨rfl, ⟨_, first_⟩, fun y hy => ?_⟩
          exact UInt16.lt_of_lt_of_le (UInt16.not_le.mp inside) (least y hy)
      · exact .inl (.inl (.inr later))
    · rintro (((⟨-, hi⟩ | later) | ⟨-, zero⟩) | ⟨-, -, below⟩)
      · exact .inl ⟨UInt16.zero_le, hi⟩
      · exact .inr later
      · exact .inl ⟨UInt16.zero_le, UInt16.le_trans zero UInt16.zero_le⟩
      · exact .inl ⟨UInt16.zero_le, UInt16.le_trans (UInt16.le_of_lt (below _ first_)) up⟩

theorem merge_effect (pr : Portrange) (ordered : pr.lower ≤ pr.upper) (s : Set UInt16) (p : Portset) :
    Ensures (fun h => Holds s p ∧ Served h) (mergePortset p pr)
      (fun q h => q.1 = true ∧ Holds (mergeEffect s pr) q.2 ∧ Served h) := by
  rintro h ⟨holds, served⟩
  by_cases fits : Fits p pr
  · have same : mergeEffect s pr = s ∪ pr.ports :=
      Set.union_eq_left.mpr ((swallows_of_fits ordered holds fits).trans Set.subset_union_right)
    rw [same]
    exact merge_holds pr ordered s p holds fits h served
  · obtain ⟨first, rest, split, rfl, -, result⟩ := mergePortset_misfit ordered fits h
    obtain ⟨canonical, rfl⟩ := holds
    rw [split] at canonical ⊢
    obtain ⟨canonical', grown⟩ := ports_misfit canonical
    rw [result]
    exact ⟨rfl, ⟨canonical', grown⟩, served⟩

/-- The ports that come in unasked over a whole list: those below all ranges in
front of a port 0. -/
def swallowedBy (rs : List Portrange) : Set UInt16 :=
  {x | ∃ before r after, rs = before ++ r :: after ∧ r.upper = 0 ∧ before ≠ [] ∧ ∀ y ∈ ports before, x < y}

theorem ports_append (rs ss : List Portrange) : ports (rs ++ ss) = ports rs ∪ ports ss := by
  ext x
  simp [ports, or_and_right, exists_or]

theorem swallowedBy_snoc (rs : List Portrange) (r : Portrange) :
    swallowedBy (rs ++ [r]) =
      swallowedBy rs ∪ {x | r.upper = 0 ∧ rs ≠ [] ∧ ∀ y ∈ ports rs, x < y} := by
  ext x
  constructor
  · rintro ⟨before, s, after, split, zero, some_, below⟩
    rcases List.eq_nil_or_concat' after with rfl | ⟨after, t, rfl⟩
    · obtain ⟨rfl, rfl⟩ : rs = before ∧ r = s := by simpa using split
      exact .inr ⟨zero, some_, below⟩
    · refine .inl ⟨before, s, after, ?_, zero, some_, below⟩
      rw [← List.cons_append, ← List.append_assoc] at split
      exact (List.append_inj' split rfl).1
  · rintro (⟨before, s, after, rfl, zero, some_, below⟩ | ⟨zero, some_, below⟩)
    · exact ⟨before, s, after ++ [r], by simp, zero, some_, below⟩
    · exact ⟨rs, r, [], rfl, zero, some_, below⟩

theorem foldl_mergeEffect (rs : List Portrange) (ordered : ∀ r ∈ rs, r.lower ≤ r.upper) :
    rs.foldl mergeEffect ∅ = ports rs ∪ swallowedBy rs := by
  induction rs using List.reverseRecOn with
  | nil => simp [ports, swallowedBy]
  | append_singleton rs r ih =>
    have ordered' : ∀ s ∈ rs, s.lower ≤ s.upper := fun s hs => ordered s (by simp [hs])
    have last : swallows (ports rs ∪ swallowedBy rs) r =
        {x | r.upper = 0 ∧ rs ≠ [] ∧ ∀ y ∈ ports rs, x < y} := by
      ext x
      constructor
      · rintro ⟨zero, ⟨y, hy⟩, below⟩
        refine ⟨zero, ?_, fun y hy => below y (.inl hy)⟩
        rintro rfl
        simp [ports, swallowedBy] at hy
      · rintro ⟨zero, some_, below⟩
        obtain ⟨s, hs⟩ := List.exists_mem_of_ne_nil rs some_
        refine ⟨zero, ⟨s.lower, .inl (lower_mem_ports ordered' hs)⟩, fun y hy => ?_⟩
        rcases hy with hy | ⟨before, t, after, split, bottom, -⟩
        · exact below y hy
        -- a port 0 in the list leaves none below
        · have ht : t ∈ rs := by simp [split]
          have less := below t.lower (lower_mem_ports ordered' ht)
          have low := ordered' t ht
          rw [bottom] at low
          exact absurd (UInt16.lt_of_lt_of_le less low) UInt16.not_lt_zero
    have single : ports [r] = r.ports := by
      ext x
      simp [ports]
    rw [List.foldl_append, ih ordered', List.foldl_cons, List.foldl_nil, mergeEffect, ports_append,
      swallowedBy_snoc, last, single]
    ext x
    simp only [Set.mem_union]
    tauto

theorem mergeAll_holds (rs : List Portrange) (ordered : ∀ r ∈ rs, r.lower ≤ r.upper) :
    Ensures Served (untilFailure mergePortset initPortset rs)
      (fun q h => q.1 = true ∧ Holds (ports rs ∪ swallowedBy rs) q.2 ∧ Served h) := by
  rw [← foldl_mergeEffect rs ordered]
  let sim (s : Set UInt16) (p : Portset) (h : Heap) : Prop := Holds s p ∧ Served h
  have each : ∀ r ∈ rs, ∀ s p, Ensures (sim s p) (mergePortset p r)
      (fun q h => q.1 = true ∧ sim (mergeEffect s r) q.2 h) :=
    fun r hr s p => merge_effect r (ordered r hr) s p
  exact (untilFailure_simulates rs each ∅ initPortset).mono (fun h served => ⟨holds_init, served⟩)
    fun q h hq => hq

end Libdank.PortSet
