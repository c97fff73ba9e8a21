import Libdank.PortSet.Operations
import Libdank.Foundation.RangeEnds

/-! The operations on port sets compute the exact list operations on spans,
except for one: a merge of port 0 alone swallows the gap in front of a first
range that starts at 2 or above. Away from it canonical sets stay canonical
and `containsPort` decides membership in the set of ports. -/
namespace Libdank.PortSet
open Requests SeparatedRanges RangeEnds

def Portrange.span (r : Portrange) : Span := ⟨r.lower.toNat, r.upper.toNat⟩

def Portset.spans (p : Portset) : List Span := p.ranges.map Portrange.span

@[simp] theorem span_lo (r : Portrange) : r.span.lo = r.lower.toNat := rfl

@[simp] theorem span_hi (r : Portrange) : r.span.hi = r.upper.toNat := rfl

instance : Word UInt16 16 where
  bits := UInt16.toBitVec
  bits_injective _ _ := UInt16.toBitVec_inj.mp
  bits_zero := rfl
  bits_succ _ := rfl
  bits_pred _ := rfl
  le_iff _ _ := Iff.rfl
  lt_iff _ _ := Iff.rfl

instance : Range Portrange UInt16 where
  lower := Portrange.lower
  upper := Portrange.upper
  ext := by
    rintro ⟨⟩ ⟨⟩ ⟨⟩ ⟨⟩
    rfl

theorem span_injective : Function.Injective Portrange.span :=
  RangeEnds.span_injective (ρ := Portrange)

theorem skipRanges_eq (merge : Portrange) (rs : List Portrange) :
    skipRanges merge rs = skip merge.span (rs.map Portrange.span) := by
  induction rs with
  | nil => rfl
  | cons cur rs ih =>
    have reach : int merge.lower ≤ int cur.upper + 1 ∨ cur.upper = 0xffff ↔
        merge.lower.toNat ≤ cur.upper.toNat + 1 := reaches_iff merge.lower cur.upper rfl
    rw [List.map_cons, skip, skipRanges, ih]
    split_ifs with a b b
    · exact absurd (reach.mp a) (not_le.mpr b)
    · rfl
    · rfl
    · exact absurd (reach.mpr (not_lt.mp b)) a

theorem eatRanges_eq (upper : UInt16) (rest : List Portrange) :
    (eatRanges upper rest).1 = (eat upper.toNat (rest.map Portrange.span)).1 ∧
      (eatRanges upper rest).2.toNat = (eat upper.toNat (rest.map Portrange.span)).2 := by
  induction rest generalizing upper with
  | nil => exact ⟨rfl, rfl⟩
  | cons tmp rest ih =>
    have gap : int upper < int tmp.lower - 1 ∧ tmp.lower ≠ 0 ↔
        upper.toNat + 1 < tmp.lower.toNat := gap_iff upper tmp.lower
    have top : (if tmp.upper > upper then tmp.upper else upper).toNat =
        max upper.toNat tmp.upper.toNat := by
      split_ifs with h
      · exact (max_eq_right (UInt16.lt_iff_toNat_lt.mp h).le).symm
      · exact (max_eq_left (UInt16.le_iff_toNat_le.mp (UInt16.not_lt.mp h))).symm
    rw [List.map_cons, eat, eatRanges, span_lo, span_hi]
    by_cases stop : int upper < int tmp.lower - 1 ∧ tmp.lower ≠ 0
    · rw [if_pos stop, if_pos (gap.mp stop)]
      exact ⟨rfl, rfl⟩
    · obtain ⟨count, last⟩ := ih (if tmp.upper > upper then tmp.upper else upper)
      rw [if_neg stop, if_neg (mt gap.mpr stop), ← top]
      exact ⟨congrArg (· + 1) count, last⟩

instance : RangeSet Portset Portrange where
  ranges := Portset.ranges
  Sound _ := True

@[simp] theorem spans_eq (p : Portset) : spans p = p.ranges.map Portrange.span := rfl

theorem extendPortset_served (p : Portset) :
    Ensures Served (extendPortset p) (fun ok h => ok = true ∧ Served h) :=
  allocate_served (by simp [sizeofPortrange])

theorem appendPortset_served (p : Portset) (pr : Portrange) :
    Ensures Served (appendPortset p pr) (Becomes (p.spans ++ [pr.span])) := by
  refine ensures_bind (extendPortset_served p) fun ok h hs => ?_
  obtain ⟨rfl, hs⟩ := hs
  refine ⟨rfl, ?_, trivial, hs⟩
  change (p.ranges ++ [pr]).map Portrange.span = _
  simp [Portset.spans]

theorem insertPortset_served (p : Portset) (pre : ℕ) (pr : Portrange) :
    Ensures Served (insertPortset p pre pr) (fun r h => r.1 = true ∧
      r.2.ranges = p.ranges.take pre ++ pr :: p.ranges.drop pre ∧ Served h) := by
  refine ensures_bind (extendPortset_served p) fun ok h hs => ?_
  obtain ⟨rfl, hs⟩ := hs
  exact ⟨rfl, rfl, hs⟩

/-- The merges for which the insertion guard agrees with the exact gap: those
that reach past port 0, or meet nothing, or a first range starting at 0 or 1. -/
def Fits (p : Portset) (merge : Portrange) : Prop :=
  merge.upper = 0 → ∀ first ∈ p.ranges.head?, first.lower ≤ 1

instance (p : Portset) (merge : Portrange) : Decidable (Fits p merge) := by
  unfold Fits
  infer_instance

theorem skip_zero {m : Span} (rs : List Span) (low : m.lo = 0) : skip m rs = 0 := by
  cases rs with
  | nil => rfl
  | cons r rest => rw [skip, low, if_neg (by omega)]

theorem below_iff {p : Portset} {merge cur : Portrange} (ordered : merge.lower ≤ merge.upper)
    (fits : Fits p merge) (here : p.ranges[skipRanges merge p.ranges]? = some cur) :
    int merge.upper + 1 < int cur.lower ∧ merge.upper ≠ 0 ↔
      merge.upper.toNat + 1 < cur.lower.toNat := by
  by_cases zero : merge.upper = 0
  · have low : merge.span.lo = 0 := by
      have := UInt16.le_iff_toNat_le.mp ordered
      simpa [zero] using this
    rw [skipRanges_eq, skip_zero _ low, ← List.head?_eq_getElem?] at here
    have near := UInt16.le_iff_toNat_le.mp (fits zero cur here)
    simp only [zero, UInt16.reduceToNat] at near ⊢
    simp only [ne_eq, not_true, and_false, false_iff]
    omega
  · simp only [int, ne_eq, zero, not_false_eq_true, and_true]
    omega

theorem grown_ends (merge cur : Portrange) :
    ∃ cur' : Portrange, (if int merge.lower ≤ int cur.lower - 1 ∧ cur.lower ≠ 0 then
        ({ cur with lower := merge.lower } : Portrange) else cur) = cur' ∧
      cur'.upper = cur.upper ∧ cur'.lower.toNat = min merge.span.lo cur.span.lo := by
  refine ⟨_, rfl, ?_, ?_⟩
  · split_ifs <;> rfl
  · split_ifs with grow
    · exact (min_eq_left ((grows_iff merge.lower cur.lower).mp grow).le).symm
    · exact (min_eq_right (not_lt.mp (mt (grows_iff merge.lower cur.lower).mpr grow))).symm

theorem mergePortset_served (p : Portset) (merge : Portrange) (ordered : merge.lower ≤ merge.upper)
    (fits : Fits p merge) :
    Ensures Served (mergePortset p merge) (Becomes (adjoin merge.span p.spans)) := by
  have guard := fun cur => @below_iff p merge cur ordered fits
  have place : skipRanges merge p.ranges = skip merge.span p.spans := skipRanges_eq _ _
  unfold mergePortset
  rw [adjoin_at, ← place]
  dsimp only
  revert guard
  generalize skipRanges merge p.ranges = z
  intro guard
  have found : p.spans[z]? = p.ranges[z]?.map Portrange.span := List.getElem?_map
  rw [found]
  cases here : p.ranges[z]? with
  | none => exact appendPortset_served p merge
  | some cur =>
    dsimp only [Option.map_some]
    refine ensures_ite (fun above => ?_) (fun above => ?_)
    · have gap : merge.span.hi + 1 < cur.span.lo := (guard cur here).mp above
      rw [if_pos gap]
      refine (insertPortset_served p z merge).mono (fun _ h => h) fun r h hr => ?_
      obtain ⟨ok, ranges, hs⟩ := hr
      refine ⟨ok, ?_, trivial, hs⟩
      rw [spans_eq, ranges]
      simp [Portset.spans]
    · have gap : ¬ merge.span.hi + 1 < cur.span.lo := mt (guard cur here).mpr above
      rw [if_neg gap]
      obtain ⟨cur', is, upper, lower⟩ := grown_ends merge cur
      simp only [is]
      refine ensures_ite (fun past => ?_) (fun past => ?_)
      · have inside : ¬ merge.span.hi ≤ cur.span.hi := by
          rw [upper] at past
          exact not_le.mpr (UInt16.lt_iff_toNat_lt.mp past)
        obtain ⟨count, last⟩ := eatRanges_eq merge.upper (p.ranges.drop (z + 1))
        rw [if_neg inside, ← lower, span_hi, Portset.spans, ← List.map_drop, ← last, ← count]
        generalize eatRanges merge.upper (p.ranges.drop (z + 1)) = eaten
        refine ensures_pure fun h hs => ⟨rfl, ?_, trivial, hs⟩
        have inside : z < p.ranges.length := (List.getElem?_eq_some_iff.mp here).1
        dsimp only
        rcases Nat.eq_zero_or_pos eaten.1 with zero | pos
        · rw [if_neg (by omega), zero, spans_eq, Portset.setRange,
            List.set_eq_take_append_cons_drop, if_pos inside]
          simp [Portrange.span]
        · rw [if_pos pos, spans_eq, removePortset, Portset.setRange, set_close _ _ _ _ inside]
          simp [Portrange.span]
      · have inside : merge.span.hi ≤ cur.span.hi := by
          rw [upper] at past
          exact UInt16.le_iff_toNat_le.mp (UInt16.not_lt.mp past)
        rw [if_pos inside, ← lower]
        refine ensures_pure fun h hs => ⟨rfl, ?_, trivial, hs⟩
        simp [Portset.spans, Portset.setRange, List.map_set, Portrange.span, upper]

theorem initPortrange_below {cur cut : UInt16} (h : cur.toNat < cut.toNat) :
    initPortrange cur.toUInt32 (cut.toUInt32 - 1) = ⟨cur, cut - 1⟩ := by
  have hc := cut.toNat_lt
  have less : (cut.toUInt32 - 1).toNat = cut.toNat - 1 := by
    rw [UInt32.toNat_sub]
    simp only [UInt32.reduceToNat, UInt16.toNat_toUInt32]
    omega
  have up : ¬ cur.toUInt32 > cut.toUInt32 - 1 := by
    rw [gt_iff_lt, UInt32.lt_iff_toNat_lt, less, UInt16.toNat_toUInt32]
    omega
  have trunc : (cut.toUInt32 - 1).toUInt16 = cut - 1 := by
    have down : (cut - 1).toNat = cut.toNat - 1 := toNat_pred cut (Nat.zero_lt_of_lt h)
    rw [← UInt16.toNat_inj, UInt32.toNat_toUInt16, less, down]
    omega
  rw [initPortrange, if_neg up, trunc, UInt16.toUInt16_toUInt32]

theorem cutLoop_served (cut : Portrange) (p : Portset) (pre rest : List Portrange)
    (split : p.ranges = pre ++ rest) :
    Ensures Served (cutLoop cut p pre.length rest)
      (Becomes (pre.map Portrange.span ++ excise cut.span (rest.map Portrange.span))) := by
  induction rest generalizing p pre with
  | nil =>
    refine ensures_pure fun h hs => ⟨rfl, ?_, trivial, hs⟩
    simp [split, excise]
  | cons cur rest ih =>
    rw [cutLoop, List.map_cons, excise]
    simp only [gt_iff_lt, ge_iff_le, UInt16.lt_iff_toNat_lt, UInt16.le_iff_toNat_le,
      ← span_lo, ← span_hi]
    refine ensures_ite (fun miss => ?_) (fun hit => ensures_ite (fun low => ensures_ite
      (fun past => ?_) (fun past => ?_)) (fun low => ensures_ite (fun high => ?_) (fun high => ?_)))
    · rw [if_pos miss]
      have next := ih p (pre ++ [cur]) (by simp [split])
      simpa using next
    · rw [if_neg hit, if_pos low, if_pos past]
      have up : (cut.upper + 1).toNat = cut.upper.toNat + 1 :=
        toNat_succ cut.upper (room_of_lt cut.upper cur.upper past)
      refine ensures_pure fun h hs => ⟨rfl, ?_, trivial, hs⟩
      simp [Portset.setRange, split, Portrange.span, up]
    · rw [if_neg hit, if_pos low, if_neg past]
      refine ih (removePortset p pre.length 1) pre ?_
      rw [removePortset, split]
      simp
    · rw [if_neg hit, if_neg low, if_pos high]
      have down : (cut.lower - 1).toNat = cut.lower.toNat - 1 :=
        toNat_pred cut.lower (Nat.zero_lt_of_lt (not_le.mp low))
      have next := ih (p.setRange pre.length { cur with upper := cut.lower - 1 })
        (pre ++ [{ cur with upper := cut.lower - 1 }]) (by simp [Portset.setRange, split])
      simpa [Portrange.span, down] using next
    · rw [if_neg hit, if_neg low, if_neg high]
      have down : (cut.lower - 1).toNat = cut.lower.toNat - 1 :=
        toNat_pred cut.lower (Nat.zero_lt_of_lt (not_le.mp low))
      have up : (cut.upper + 1).toNat = cut.upper.toNat + 1 :=
        toNat_succ cut.upper (room_of_lt cut.upper cur.upper (not_le.mp high))
      rw [initPortrange_below (not_le.mp low)]
      refine ensures_bind (insertPortset_served p _ _) ?_
      rintro ⟨ok, q⟩ h ⟨rfl, ranges, hs⟩
      refine ⟨rfl, ?_, trivial, hs⟩
      change (q.ranges.set (pre.length + 1) _).map Portrange.span = _
      rw [ranges, split]
      simp [Portrange.span, down, up]

theorem cutPortset_served (p : Portset) (cut : Portrange) :
    Ensures Served (cutPortset p cut) (Becomes (excise cut.span p.spans)) :=
  cutLoop_served cut p [] p.ranges rfl

theorem clonePortset_served (src : Portset) :
    Ensures Served (clonePortset src) (fun r h => r.1 = true ∧ r.2 = src ∧ Served h) := by
  refine ensures_ite (fun empty => ?_) (fun full => ?_)
  · refine ensures_pure fun h hs => ⟨rfl, ?_, hs⟩
    obtain ⟨ranges⟩ := src
    simpa [initPortset, Portset.rangecount, eq_comm] using empty
  · refine ensures_bind (allocate_served (by simpa [sizeofPortrange] using full)) fun ok h hs => ?_
    obtain ⟨rfl, hs⟩ := hs
    exact ⟨rfl, rfl, hs⟩

/-- Canonical form: every range runs upwards, and each ends at least two below
the start of any later one. -/
structure Canonical (rs : List Portrange) : Prop where
  ordered : ∀ r ∈ rs, r.lower ≤ r.upper
  apart : rs.Pairwise fun r s => r.upper.toNat + 1 < s.lower.toNat

def Portrange.ports (r : Portrange) : Set UInt16 := {x | r.lower ≤ x ∧ x ≤ r.upper}

def ports (rs : List Portrange) : Set UInt16 := {x | ∃ r ∈ rs, x ∈ r.ports}

theorem canonical_iff_separated (rs : List Portrange) :
    Canonical rs ↔ Separated (rs.map Portrange.span) :=
  ⟨fun ⟨ordered, apart⟩ => (separated_iff rs).mpr ⟨ordered, apart⟩, fun sep =>
    ⟨((separated_iff rs).mp sep).1, ((separated_iff rs).mp sep).2⟩⟩

theorem mem_range_ports {r : Portrange} {x : UInt16} :
    x ∈ r.ports ↔ x.toNat ∈ r.span.points := mem_span (ρ := Portrange)

theorem mem_ports {rs : List Portrange} {x : UInt16} :
    x ∈ ports rs ↔ x.toNat ∈ points (rs.map Portrange.span) := mem_spans (ρ := Portrange)

theorem containsPort_iff (p : Portset) (canonical : Canonical p.ranges) (port : UInt16) :
    containsPort p port = true ↔ port ∈ ports p.ranges := by
  obtain ⟨ordered, apart⟩ := canonical
  rw [containsPort]
  generalize p.ranges = rs at ordered apart ⊢
  induction rs with
  | nil => simp [containsLoop, ports]
  | cons r rest ih =>
    obtain ⟨first, apart⟩ := List.pairwise_cons.mp apart
    have tail := ih (fun s hs => ordered s (by simp [hs])) apart
    have here := UInt16.le_iff_toNat_le.mp (ordered r (by simp))
    have split : port ∈ ports (r :: rest) ↔ port ∈ r.ports ∨ port ∈ ports rest := by
      simp [ports]
    rw [containsLoop, split]
    split_ifs with below inside
    · simp only [false_iff, not_or]
      refine ⟨fun h => UInt16.not_lt.mpr h.1 below, ?_⟩
      rintro ⟨s, hs, lo, _⟩
      have := first s hs
      have := UInt16.lt_iff_toNat_lt.mp below
      have := UInt16.le_iff_toNat_le.mp lo
      omega
    · exact ⟨fun _ => .inl ⟨UInt16.not_lt.mp below, inside⟩, fun _ => rfl⟩
    · rw [tail]
      exact ⟨.inr, fun h => h.resolve_left fun h => inside h.2⟩

inductive Change where
  | merge (pr : Portrange)
  | mergeSet (add : Portset)
  | cut (pr : Portrange)

def Change.run (p : Portset) : Change → Request (Bool × Portset)
  | merge pr => mergePortset p pr
  | mergeSet add => mergePortsets p add
  | cut pr => cutPortset p pr

def Change.Proper : Change → Prop
  | merge pr | cut pr => pr.lower ≤ pr.upper
  | mergeSet add => Canonical add.ranges

def Change.effect (s : Set UInt16) : Change → Set UInt16
  | merge pr => s ∪ pr.ports
  | mergeSet add => s ∪ ports add.ranges
  | cut pr => s \ pr.ports

/-- The condition on one change and the set it is made to. Of the ranges of a
canonical set only the first can be port 0 alone. -/
def Change.Fits (p : Portset) : Change → Prop
  | merge pr => PortSet.Fits p pr
  | mergeSet add => ∀ pr ∈ add.ranges.head?, PortSet.Fits p pr
  | cut _ => True

instance (p : Portset) : (c : Change) → Decidable (c.Fits p)
  | .merge pr => inferInstanceAs (Decidable (PortSet.Fits p pr))
  | .mergeSet add => inferInstanceAs (Decidable (∀ pr ∈ add.ranges.head?, PortSet.Fits p pr))
  | .cut _ => inferInstanceAs (Decidable True)

/-- The set `p` is canonical and holds exactly the ports `s`. -/
def Holds (s : Set UInt16) (p : Portset) : Prop := Canonical p.ranges ∧ ports p.ranges = s

theorem Holds.separated {s : Set UInt16} {p : Portset} (holds : Holds s p) :
    Separated p.spans ∧ ∀ x : UInt16, x.toNat ∈ points p.spans ↔ x ∈ s := by
  refine ⟨(canonical_iff_separated _).mp holds.1, fun x => ?_⟩
  rw [← holds.2, mem_ports, Portset.spans]

theorem becomes_holds {after : List Span} {s : Set UInt16} (sep : Separated after)
    (pts : ∀ x : UInt16, x.toNat ∈ points after ↔ x ∈ s) {q : Bool × Portset} {h : Heap}
    (becomes : Becomes after q h) : q.1 = true ∧ Holds s q.2 ∧ Served h := by
  have denotes : ports q.2.ranges = s := becomes.members pts
  obtain ⟨ok, rfl, -, served⟩ := becomes
  exact ⟨ok, ⟨(canonical_iff_separated _).mpr sep, denotes⟩, served⟩

theorem merge_holds (pr : Portrange) (ordered : pr.lower ≤ pr.upper) (s : Set UInt16)
    (p : Portset) (holds : Holds s p) (fits : Fits p pr) :
    Ensures Served (mergePortset p pr)
      (fun q h => q.1 = true ∧ Holds (s ∪ pr.ports) q.2 ∧ Served h) := by
  intro h served
  obtain ⟨sep, here⟩ := holds.separated
  obtain ⟨sep', pts⟩ :=
    adjoin_spec pr.span p.spans (UInt16.le_iff_toNat_le.mp ordered) sep
  refine becomes_holds sep' (fun x => ?_) (mergePortset_served p pr ordered fits h served)
  rw [pts, Set.mem_union, here, ← mem_range_ports]
  rfl

theorem mergeLoop_holds (rs : List Portrange) (canonical : Canonical rs) (s : Set UInt16)
    (p : Portset) (holds : Holds s p) (fits : ∀ pr ∈ rs.head?, Fits p pr) :
    Ensures Served (untilFailure mergePortset p rs)
      (fun q h => q.1 = true ∧ Holds (s ∪ ports rs) q.2 ∧ Served h) := by
  induction rs generalizing s p with
  | nil =>
    refine ensures_pure fun h hs => ⟨rfl, ?_, hs⟩
    simpa [ports] using holds
  | cons pr rs ih =>
    obtain ⟨ordered, apart⟩ := canonical
    obtain ⟨first, apart⟩ := List.pairwise_cons.mp apart
    refine ensures_bind (merge_holds pr (ordered pr (by simp)) s p holds (fits pr (by simp)))
      fun ⟨ok, q⟩ h hs => ?_
    obtain ⟨rfl, holds', hs⟩ := hs
    -- a later range starts at 2 or above, so it is not port 0 alone
    have fits' : ∀ next ∈ rs.head?, Fits q next := by
      intro next hn zero
      have mem := List.mem_of_mem_head? hn
      have up := UInt16.le_iff_toNat_le.mp (ordered next (by simp [mem]))
      have := first next mem
      simp only [zero, UInt16.reduceToNat] at up
      omega
    have rest := ih ⟨fun r hr => ordered r (by simp [hr]), apart⟩ _ q holds' fits' h hs
    have join : s ∪ pr.ports ∪ ports rs = s ∪ ports (pr :: rs) := by
      rw [Set.union_assoc]
      congr 1
      ext x
      simp [ports]
    rw [join] at rest
    exact rest

theorem change_holds (c : Change) (proper : c.Proper) (s : Set UInt16) (p : Portset)
    (holds : Holds s p) (fits : c.Fits p) :
    Ensures Served (c.run p) (fun q h => q.1 = true ∧ Holds (c.effect s) q.2 ∧ Served h) := by
  cases c with
  | merge pr => exact merge_holds pr proper s p holds fits
  | mergeSet add =>
    refine ensures_bind (clonePortset_served p) fun ⟨ok, q⟩ h hs => ?_
    obtain ⟨rfl, same, hs⟩ := hs
    obtain rfl : q = p := same
    have loop : Ensures Served
        (untilFailure mergePortset q add.ranges >>= fun r =>
          pure (r.1, if r.1 = true then r.2 else q))
        (fun r h => r.1 = true ∧ Holds (s ∪ ports add.ranges) r.2 ∧ Served h) := by
      refine ensures_bind (mergeLoop_holds add.ranges proper s q holds fits) fun ⟨ok, r⟩ h hs => ?_
      obtain ⟨rfl, hs⟩ := hs
      exact ⟨rfl, hs⟩
    exact loop h hs
  | cut pr =>
    intro h served
    obtain ⟨sep, here⟩ := holds.separated
    obtain ⟨sep', pts⟩ :=
      excise_spec pr.span p.spans (UInt16.le_iff_toNat_le.mp proper) sep
    refine becomes_holds sep' (fun x => ?_) (cutPortset_served p pr h served)
    rw [pts, Set.mem_sdiff, here, ← mem_range_ports]
    rfl

/-- From the empty set, a run whose changes all fit succeeds at every step and
ends canonical, and `containsPort` answers for the ports the same run gives on
plain sets. -/
theorem fitting_changes_hold (changes : List Change) (proper : ∀ c ∈ changes, c.Proper)
    (h : Heap) (served : Served h)
    (fits : Along (fun p c _ => Change.Fits p c) Change.run initPortset h changes) :
    (untilFailure Change.run initPortset changes h).1.1 = true ∧
      Canonical (untilFailure Change.run initPortset changes h).1.2.ranges ∧
      ∀ port, containsPort (untilFailure Change.run initPortset changes h).1.2 port = true ↔
        port ∈ changes.foldl Change.effect ∅ := by
  have start : Holds ∅ initPortset :=
    ⟨⟨by simp [initPortset], List.Pairwise.nil⟩, by simp [initPortset, ports]⟩
  let sim (s : Set UInt16) (p : Portset) (h : Heap) : Prop := Holds s p ∧ Served h
  have each : ∀ c ∈ changes, ∀ s p, Ensures (fun h => c.Fits p ∧ sim s p h) (c.run p)
      (fun q h => q.1 = true ∧ sim (Change.effect s c) q.2 h) :=
    fun c hc s p h now => change_holds c (proper c hc) s p now.2.1 now.1 h now.2.2
  obtain ⟨ok, ⟨canonical, denotes⟩, -⟩ :=
    untilFailure_along changes each ∅ initPortset h ⟨start, served⟩ fits
  refine ⟨ok, canonical, fun port => ?_⟩
  rw [containsPort_iff _ canonical, denotes]

/-- Merging port 0 in front of a range from 1 on, both ends, then a split. -/
theorem fitting_changes_hold_ends :
    (untilFailure Change.run initPortset
      [.merge ⟨1, 5⟩, .merge ⟨0, 0⟩, .merge ⟨0xffff, 0xffff⟩, .cut ⟨2, 3⟩]
      ⟨[], false⟩).1.2.ranges = [⟨0, 1⟩, ⟨4, 5⟩, ⟨0xffff, 0xffff⟩] ∧
    Canonical [⟨0, 1⟩, ⟨4, 5⟩, ⟨0xffff, 0xffff⟩] := by
  have fits : Along (fun p c _ => Change.Fits p c) Change.run initPortset ⟨[], false⟩
      [.merge ⟨1, 5⟩, .merge ⟨0, 0⟩, .merge ⟨0xffff, 0xffff⟩, .cut ⟨2, 3⟩] := by decide
  have run := fitting_changes_hold
    [.merge ⟨1, 5⟩, .merge ⟨0, 0⟩, .merge ⟨0xffff, 0xffff⟩, .cut ⟨2, 3⟩]
    (by simp [Change.Proper]) ⟨[], false⟩ rfl fits
  have ranges : (untilFailure Change.run initPortset
      [.merge ⟨1, 5⟩, .merge ⟨0, 0⟩, .merge ⟨0xffff, 0xffff⟩, .cut ⟨2, 3⟩]
      ⟨[], false⟩).1.2.ranges = [⟨0, 1⟩, ⟨4, 5⟩, ⟨0xffff, 0xffff⟩] := by decide
  exact ⟨ranges, ranges ▸ run.2.1⟩

theorem mergePortset_misfit {p : Portset} {pr : Portrange} (ordered : pr.lower ≤ pr.upper)
    (misfit : ¬ Fits p pr) (h : Heap) :
    ∃ first rest, p.ranges = first :: rest ∧ pr = ⟨0, 0⟩ ∧ 1 < first.lower.toNat ∧
      mergePortset p pr h = ((true, ⟨⟨0, first.upper⟩ :: rest⟩), h) := by
  obtain ⟨zero, first, head, far⟩ : pr.upper = 0 ∧ ∃ first ∈ p.ranges.head?, ¬ first.lower ≤ 1 := by
    simpa [Fits] using misfit
  obtain ⟨rest, split⟩ : ∃ rest, p.ranges = first :: rest := by
    cases hp : p.ranges with
    | nil => simp [hp] at head
    | cons r rest => exact ⟨rest, by simpa [hp] using head⟩
  have low : pr.lower = 0 := by
    have := UInt16.le_iff_toNat_le.mp ordered
    rw [← UInt16.toNat_inj]
    simpa [zero] using this
  obtain rfl : pr = ⟨0, 0⟩ := by
    obtain ⟨lower, upper⟩ := pr
    exact congrArg₂ Portrange.mk low zero
  have far : 1 < first.lower.toNat := by
    simpa [UInt16.le_iff_toNat_le] using far
  have place : skipRanges ⟨0, 0⟩ p.ranges = 0 := by
    rw [skipRanges_eq]
    exact skip_zero _ rfl
  have grow : int 0 ≤ int first.lower - 1 ∧ first.lower ≠ 0 :=
    (grows_iff 0 first.lower).mpr (lt_trans one_pos far)
  have inside : ¬ (0 : UInt16) > first.upper := by
    rw [gt_iff_lt, UInt16.lt_iff_toNat_lt]
    exact Nat.not_lt_zero _
  have guard : ¬ (int 0 + 1 < int first.lower ∧ (0 : UInt16) ≠ 0) := fun g => g.2 rfl
  have here : p.ranges[0]? = some first := by simp [split]
  refine ⟨first, rest, split, rfl, far, ?_⟩
  have result : mergePortset p ⟨0, 0⟩ h = ((true, p.setRange 0 ⟨0, first.upper⟩), h) := by
    simp only [mergePortset, place, here, if_neg guard, if_pos grow, if_neg inside]
    rfl
  rw [result, Portset.setRange, split]
  rfl

/-- The condition is sharp: a merge that does not fit puts port 1 into a set
that must not hold it. -/
theorem misfit_adds_one (p : Portset) (canonical : Canonical p.ranges) (pr : Portrange)
    (ordered : pr.lower ≤ pr.upper) (misfit : ¬ Fits p pr) (h : Heap) :
    1 ∈ ports (mergePortset p pr h).1.2.ranges ∧ 1 ∉ ports p.ranges ∪ pr.ports := by
  obtain ⟨first, rest, split, rfl, far, result⟩ := mergePortset_misfit ordered misfit h
  have up : first.lower.toNat ≤ first.upper.toNat :=
    UInt16.le_iff_toNat_le.mp (canonical.ordered first (by simp [split]))
  rw [result]
  constructor
  · refine ⟨⟨0, first.upper⟩, by simp, ?_, ?_⟩ <;>
      simp only [UInt16.le_iff_toNat_le, UInt16.reduceToNat] <;> omega
  · rintro (⟨r, hr, lo, _⟩ | ⟨_, hi⟩)
    · have lo := UInt16.le_iff_toNat_le.mp lo
      rw [split] at hr
      have apart := canonical.apart
      rw [split] at apart
      rcases List.mem_cons.mp hr with rfl | hr
      · simp only [UInt16.reduceToNat] at lo
        omega
      · have := (List.pairwise_cons.mp apart).1 r hr
        simp only [UInt16.reduceToNat] at lo
        omega
    · exact absurd hi (by decide)

/-- Merging 5-6 and then port 0 leaves a set said to contain port 1. -/
theorem zero_merge_swallows :
    (∀ c ∈ [Change.merge ⟨5, 6⟩, .merge ⟨0, 0⟩], c.Proper) ∧
    (untilFailure Change.run initPortset [.merge ⟨5, 6⟩, .merge ⟨0, 0⟩]
      ⟨[], false⟩).1 = (true, ⟨[⟨0, 6⟩]⟩) ∧
    containsPort ⟨[⟨0, 6⟩]⟩ 1 = true ∧
    1 ∉ [Change.merge ⟨5, 6⟩, .merge ⟨0, 0⟩].foldl Change.effect ∅ := by
  refine ⟨by simp [Change.Proper], by decide, by decide, ?_⟩
  simp [Change.effect, Portrange.ports]

end Libdank.PortSet
