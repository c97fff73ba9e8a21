import Libdank.IpSet.Operations
import Libdank.Foundation.RangeEnds

/-! Every insertion and removal of `objects/ipset.c` computes the exact list
operation on spans of naturals, wrapping arithmetic included; hence canonical
sets stay canonical and the addresses are those of the set operation. -/
namespace Libdank.IpSet
open Requests Buffers SeparatedRanges RangeEnds

def Iprange.span (r : Iprange) : Span := ⟨r.lower.toNat, r.upper.toNat⟩

def Ipset.spans (i : Ipset) : List Span := i.ranges.map Iprange.span

@[simp] theorem span_lo (r : Iprange) : r.span.lo = r.lower.toNat := rfl

@[simp] theorem span_hi (r : Iprange) : r.span.hi = r.upper.toNat := rfl

instance : Word UInt32 32 where
  bits := UInt32.toBitVec
  bits_injective _ _ := UInt32.toBitVec_inj.mp
  bits_zero := rfl
  bits_succ _ := rfl
  bits_pred _ := rfl
  le_iff _ _ := Iff.rfl
  lt_iff _ _ := Iff.rfl

instance : Range Iprange UInt32 where
  lower := Iprange.lower
  upper := Iprange.upper
  ext := by
    rintro ⟨⟩ ⟨⟩ ⟨⟩ ⟨⟩
    rfl

theorem span_injective : Function.Injective Iprange.span :=
  RangeEnds.span_injective (ρ := Iprange)

theorem skipRanges_eq (merge : Iprange) (rs : List Iprange) :
    skipRanges merge rs = skip merge.span (rs.map Iprange.span) := by
  induction rs with
  | nil => rfl
  | cons cur rs ih =>
    have reach : merge.lower ≤ cur.upper + 1 ∨ cur.upper = 0xffffffff ↔
        merge.lower.toNat ≤ cur.upper.toNat + 1 := reaches_iff merge.lower cur.upper rfl
    rw [List.map_cons, skip, skipRanges, ih]
    split_ifs with a b c d
    · exact absurd (reach.mp (.inl a)) (not_le.mpr b)
    · rfl
    · exact absurd (reach.mp (.inr c)) (not_le.mpr d)
    · rfl
    · rfl
    · exact absurd (reach.mpr (not_lt.mp ‹_›)) (by tauto)

theorem eatRanges_eq (upper : UInt32) (rest : List Iprange) :
    (eatRanges upper rest).1 = (eat upper.toNat (rest.map Iprange.span)).1 ∧
      (eatRanges upper rest).2.toNat = (eat upper.toNat (rest.map Iprange.span)).2 := by
  induction rest generalizing upper with
  | nil => exact ⟨rfl, rfl⟩
  | cons tmp rest ih =>
    have gap : upper < tmp.lower - 1 ∧ tmp.lower ≠ 0 ↔ upper.toNat + 1 < tmp.lower.toNat :=
      gap_iff upper tmp.lower
    have top : (if tmp.upper > upper then tmp.upper else upper).toNat =
        max upper.toNat tmp.upper.toNat := by
      split_ifs with h
      · exact (max_eq_right (UInt32.lt_iff_toNat_lt.mp h).le).symm
      · exact (max_eq_left (UInt32.le_iff_toNat_le.mp (UInt32.not_lt.mp h))).symm
    rw [List.map_cons, eat, eatRanges, span_lo, span_hi]
    by_cases stop : upper < tmp.lower - 1 ∧ tmp.lower ≠ 0
    · rw [if_pos stop, if_pos (gap.mp stop)]
      exact ⟨rfl, rfl⟩
    · obtain ⟨count, last⟩ := ih (if tmp.upper > upper then tmp.upper else upper)
      rw [if_neg stop, if_neg (mt gap.mpr stop), ← top]
      exact ⟨congrArg (· + 1) count, last⟩

theorem initIprange_of_le {lower upper : UInt32} (h : lower.toNat ≤ upper.toNat) :
    initIprange lower upper = ⟨lower, upper⟩ := by
  rw [initIprange, if_neg]
  exact UInt32.not_lt.mpr (UInt32.le_iff_toNat_le.mpr h)

/-- The room behind a set: `rangecount` within `maxranges` within the cells. -/
structure Capacity (i : Ipset) : Prop where
  counted : i.rangecount ≤ i.maxranges
  allocated : i.maxranges ≤ i.cells

theorem capacity_init : Capacity initIpset := ⟨le_rfl, le_rfl⟩

/-- The set can be copied faithfully: it is empty or its array is full. -/
def Tight (i : Ipset) : Prop := i.rangecount = 0 ∨ i.rangecount = i.maxranges

instance (i : Ipset) : Decidable (Tight i) :=
  inferInstanceAs (Decidable (i.rangecount = 0 ∨ i.rangecount = i.maxranges))

instance : RangeSet Ipset Iprange where
  ranges := Ipset.ranges
  Sound := Capacity

@[simp] theorem spans_eq (i : Ipset) : spans i = i.ranges.map Iprange.span := rfl

@[simp] theorem setRange_ranges (i : Ipset) (z : ℕ) (ir : Iprange) :
    (i.setRange z ir).ranges = i.ranges.set z ir := rfl

theorem setRange_capacity {i : Ipset} (fits : Capacity i) (z : ℕ) (ir : Iprange) :
    Capacity (i.setRange z ir) := by
  refine ⟨?_, fits.allocated⟩
  simpa [Ipset.rangecount, Ipset.setRange] using fits.counted

theorem removeIpset_ranges (i : Ipset) (z count : ℕ) :
    (removeIpset i z count).ranges = i.ranges.take z ++ i.ranges.drop (z + count) := by
  rw [removeIpset]
  split_ifs with empty
  · exact (List.length_eq_zero_iff.mp empty).symm
  · rfl

theorem removeIpset_capacity {i : Ipset} (fits : Capacity i) (z count : ℕ) :
    Capacity (removeIpset i z count) := by
  rw [removeIpset]
  split_ifs
  · exact capacity_init
  · refine ⟨?_, fits.allocated⟩
    have counted := fits.counted
    simp only [Ipset.rangecount, List.length_append, List.length_take, List.length_drop]
      at counted ⊢
    omega

theorem grown_ends (merge cur : Iprange) :
    ∃ cur' : Iprange, (if merge.lower ≤ cur.lower - 1 ∧ cur.lower ≠ 0 then
        ({ cur with lower := merge.lower } : Iprange) else cur) = cur' ∧
      cur'.upper = cur.upper ∧ cur'.lower.toNat = min merge.span.lo cur.span.lo := by
  refine ⟨_, rfl, ?_, ?_⟩
  · split_ifs <;> rfl
  · split_ifs with grow
    · exact (min_eq_left ((grows_iff merge.lower cur.lower).mp grow).le).symm
    · exact (min_eq_right (not_lt.mp (mt (grows_iff merge.lower cur.lower).mpr grow))).symm

/-- Where the copy is faithful it has its room, whatever that of the original is. -/
theorem cloneIpset_served (src : Ipset) (tight : Tight src) :
    Ensures Served (cloneIpset src) (Becomes src.spans) := by
  refine ensures_ite (fun corrupt => ?_) fun _ =>
    ensures_ite (fun empty => ?_) (fun full => ?_)
  · rcases tight with none_ | same <;> omega
  · refine ensures_pure fun h hs => ⟨rfl, ?_, capacity_init, hs⟩
    have none_ : src.ranges = [] := by simpa [sizeofIprange, Ipset.rangecount] using empty
    simp [Ipset.spans, none_, initIpset]
  · refine ensures_bind (allocate_served full) fun ok h hs => ?_
    obtain ⟨rfl, hs⟩ := hs
    have same : src.rangecount = src.maxranges := by
      refine tight.resolve_left fun none_ => full ?_
      rw [none_, Nat.mul_zero]
    exact ⟨rfl, rfl, ⟨same.le, same.ge⟩, hs⟩

section Operations
variable [Leftover Iprange]

theorem Capacity.moved {i : Ipset} (fits : Capacity i) : i.moved = i.ranges := by
  have inside : i.ranges.length ≤ i.cells := fits.counted.trans fits.allocated
  rw [Ipset.moved, List.take_of_length_le inside]
  exact regrow_self _ rfl

theorem extendIpset_served (i : Ipset) (fits : Capacity i) :
    Ensures Served (extendIpset i) (fun r h => r.1 = true ∧ r.2.ranges = i.ranges ∧
      i.rangecount < r.2.maxranges ∧ r.2.maxranges ≤ r.2.cells ∧ Served h) := by
  refine ensures_ite (fun full => ?_) (fun room => ensures_pure fun _ hs => ?_)
  · refine ensures_bind (allocate_served (by simp [sizeofIprange])) fun ok => ?_
    refine fun h hs => ?_
    obtain ⟨rfl, hs⟩ := hs
    exact ⟨rfl, fits.moved, Nat.lt_succ_self _, le_rfl, hs⟩
  · exact ⟨rfl, rfl, lt_of_le_of_ne fits.counted room, fits.allocated, hs⟩

theorem appendIpset_served (i : Ipset) (ir : Iprange) (fits : Capacity i) :
    Ensures Served (appendIpset i ir) (Becomes (i.spans ++ [ir.span])) := by
  refine ensures_bind (extendIpset_served i fits) fun ⟨ok, j⟩ h hs => ?_
  obtain ⟨rfl, same, room, allocated, hs⟩ := hs
  change j.ranges = i.ranges at same
  change i.rangecount < j.maxranges at room
  refine ⟨rfl, ?_, ⟨?_, allocated⟩, hs⟩
  · change (j.ranges ++ [ir]).map Iprange.span = _
    simp [Ipset.spans, same]
  · change (j.ranges ++ [ir]).length ≤ j.maxranges
    simpa [Ipset.rangecount, same] using room

theorem insertIpset_served (i : Ipset) (pre : ℕ) (ir : Iprange) (fits : Capacity i) :
    Ensures Served (insertIpset i pre ir)
      (fun r h => r.1 = true ∧ r.2.ranges = i.ranges.take pre ++ ir :: i.ranges.drop pre ∧
        Capacity r.2 ∧ Served h) := by
  refine ensures_bind (extendIpset_served i fits) fun ⟨ok, j⟩ h hs => ?_
  obtain ⟨rfl, same, room, allocated, hs⟩ := hs
  change j.ranges = i.ranges at same
  change i.rangecount < j.maxranges at room
  refine ⟨rfl, ?_, ⟨?_, allocated⟩, hs⟩
  · change j.ranges.take pre ++ ir :: j.ranges.drop pre = _
    rw [same]
  · change (j.ranges.take pre ++ ir :: j.ranges.drop pre).length ≤ j.maxranges
    simp only [List.length_append, List.length_cons, List.length_take, List.length_drop, same]
    simp only [Ipset.rangecount] at room
    omega

theorem addIprange_served (i : Ipset) (merge : Iprange) (fits : Capacity i) :
    Ensures Served (addIprange i merge) (Becomes (adjoin merge.span i.spans)) := by
  have place : skipRanges merge i.ranges = skip merge.span i.spans := skipRanges_eq _ _
  unfold addIprange
  rw [adjoin_at, ← place]
  dsimp only
  generalize skipRanges merge i.ranges = z
  have found : i.spans[z]? = i.ranges[z]?.map Iprange.span := List.getElem?_map
  rw [found]
  cases here : i.ranges[z]? with
  | none => exact appendIpset_served i merge fits
  | some cur =>
    dsimp only [Option.map_some]
    refine ensures_ite (fun above => ?_) (fun above => ?_)
    · have gap : merge.span.hi + 1 < cur.span.lo := (below_iff merge.upper cur.lower rfl).mp above
      rw [if_pos gap]
      refine (insertIpset_served i z merge fits).mono (fun _ h => h) fun r h hr => ?_
      obtain ⟨ok, ranges, room, hs⟩ := hr
      refine ⟨ok, ?_, room, hs⟩
      rw [spans_eq, ranges]
      simp [Ipset.spans]
    · have gap : ¬ merge.span.hi + 1 < cur.span.lo := mt (below_iff merge.upper cur.lower rfl).mpr above
      rw [if_neg gap]
      obtain ⟨cur', is, upper, lower⟩ := grown_ends merge cur
      simp only [is]
      refine ensures_ite (fun past => ?_) (fun past => ?_)
      · have inside : ¬ merge.span.hi ≤ cur.span.hi := by
          rw [upper] at past
          exact not_le.mpr (UInt32.lt_iff_toNat_lt.mp past)
        obtain ⟨count, last⟩ := eatRanges_eq merge.upper (i.ranges.drop (z + 1))
        rw [if_neg inside, ← lower, span_hi, Ipset.spans, ← List.map_drop, ← last, ← count]
        generalize eatRanges merge.upper (i.ranges.drop (z + 1)) = eaten
        refine ensures_pure fun h hs => ⟨rfl, ?_, ?_, hs⟩
        · have inside : z < i.ranges.length := (List.getElem?_eq_some_iff.mp here).1
          dsimp only
          rcases Nat.eq_zero_or_pos eaten.1 with zero | pos
          · rw [if_neg (by omega), zero, spans_eq, setRange_ranges,
              List.set_eq_take_append_cons_drop, if_pos inside]
            simp [Iprange.span]
          · rw [if_pos pos, spans_eq, removeIpset_ranges, setRange_ranges,
              set_close _ _ _ _ inside]
            simp [Iprange.span]
        · dsimp only
          split_ifs
          · exact removeIpset_capacity (setRange_capacity fits _ _) _ _
          · exact setRange_capacity fits _ _
      · have inside : merge.span.hi ≤ cur.span.hi := by
          rw [upper] at past
          exact UInt32.le_iff_toNat_le.mp (UInt32.not_lt.mp past)
        rw [if_pos inside, ← lower]
        refine ensures_pure fun h hs => ⟨rfl, ?_, setRange_capacity fits _ _, hs⟩
        simp [Ipset.spans, List.map_set, Iprange.span, upper]

theorem delLoop_served (cut : Iprange) (is : Ipset) (pre rest : List Iprange)
    (split : is.ranges = pre ++ rest) (fits : Capacity is) :
    Ensures Served (delLoop cut is pre.length rest)
      (Becomes (pre.map Iprange.span ++ excise cut.span (rest.map Iprange.span))) := by
  induction rest generalizing is pre with
  | nil =>
    refine ensures_pure fun h hs => ⟨rfl, ?_, fits, hs⟩
    simp [split, excise]
  | cons cur rest ih =>
    have set_ : ∀ r : Iprange, (pre ++ cur :: rest).set pre.length r = pre ++ r :: rest := by simp
    rw [delLoop, List.map_cons, excise]
    simp only [gt_iff_lt, ge_iff_le, UInt32.lt_iff_toNat_lt, UInt32.le_iff_toNat_le,
      ← span_lo, ← span_hi]
    refine ensures_ite (fun miss => ?_) (fun hit => ensures_ite (fun low => ensures_ite
      (fun past => ?_) (fun past => ?_)) (fun low => ensures_ite (fun high => ?_) (fun high => ?_)))
    · rw [if_pos miss]
      have next := ih is (pre ++ [cur]) (by simp [split]) fits
      simpa using next
    · rw [if_neg hit, if_pos low, if_pos past]
      have up : (cut.upper + 1).toNat = cut.upper.toNat + 1 :=
        toNat_succ cut.upper (room_of_lt cut.upper cur.upper past)
      refine ensures_pure fun h hs => ⟨rfl, ?_, setRange_capacity fits _ _, hs⟩
      simp [split, Iprange.span, up]
    · rw [if_neg hit, if_pos low, if_neg past]
      refine ih (removeIpset is pre.length 1) pre ?_ (removeIpset_capacity fits _ _)
      rw [removeIpset_ranges, split]
      simp
    · rw [if_neg hit, if_neg low, if_pos high]
      have down : (cut.lower - 1).toNat = cut.lower.toNat - 1 :=
        toNat_pred cut.lower (Nat.zero_lt_of_lt (not_le.mp low))
      have next := ih (is.setRange pre.length { cur with upper := cut.lower - 1 })
        (pre ++ [{ cur with upper := cut.lower - 1 }]) (by simp [split])
        (setRange_capacity fits _ _)
      simpa [Iprange.span, down] using next
    · rw [if_neg hit, if_neg low, if_neg high]
      have down : (cut.lower - 1).toNat = cut.lower.toNat - 1 :=
        toNat_pred cut.lower (Nat.zero_lt_of_lt (not_le.mp low))
      have up : (cut.upper + 1).toNat = cut.upper.toNat + 1 :=
        toNat_succ cut.upper (room_of_lt cut.upper cur.upper (not_le.mp high))
      have wide : cur.lower.toNat ≤ (cut.lower - 1).toNat := by
        rw [span_lo, span_lo, not_le] at low
        omega
      rw [initIprange_of_le wide]
      refine ensures_bind (insertIpset_served is _ _ fits) ?_
      rintro ⟨ok, js⟩ h ⟨rfl, ranges, room, hs⟩
      refine ⟨rfl, ?_, setRange_capacity room _ _, hs⟩
      change ((js.setRange (pre.length + 1) _).ranges).map Iprange.span = _
      rw [setRange_ranges, ranges, split]
      simp [Iprange.span, down, up]

theorem delIprange_served (is : Ipset) (cut : Iprange) (fits : Capacity is) :
    Ensures Served (delIprange is cut) (Becomes (excise cut.span is.spans)) :=
  delLoop_served cut is [] is.ranges rfl fits

end Operations

def Computes (op : Ipset → Iprange → Request (Bool × Ipset))
    (f : Span → List Span → List Span) : Prop :=
  ∀ i ir, Capacity i → Ensures Served (op i ir) (Becomes (f ir.span i.spans))

theorem rebuild_served {op : Ipset → Iprange → Request (Bool × Ipset)}
    {f : Span → List Span → List Span} (computes : Computes op f) (cur arg : Ipset)
    (tight : Tight cur) :
    Ensures Served (rebuild op cur arg)
      (Becomes (arg.ranges.foldl (fun spans r => f r.span spans) cur.spans)) := by
  refine ensures_bind (cloneIpset_served cur tight) fun ⟨ok, dup⟩ h hs => ?_
  obtain ⟨rfl, spans, fits, hs⟩ := hs
  let sim (spans : List Span) (i : Ipset) (h : Heap) : Prop :=
    i.spans = spans ∧ Capacity i ∧ Served h
  have each : ∀ r ∈ arg.ranges, ∀ spans i, Ensures (sim spans i) (op i r)
      (fun q h => q.1 = true ∧ sim (f r.span spans) q.2 h) :=
    fun r _ spans i h ⟨same, fits, hs⟩ => same ▸ computes i r fits h hs
  have loop : Ensures (sim cur.spans dup) (untilFailure op dup arg.ranges) (fun q h =>
      q.1 = true ∧ sim (arg.ranges.foldl (fun spans r => f r.span spans) cur.spans) q.2 h) :=
    untilFailure_simulates arg.ranges each cur.spans dup
  refine ensures_bind loop (fun ⟨ok, dup'⟩ h hs => ?_) h ⟨spans, fits, hs⟩
  obtain ⟨rfl, hs⟩ := hs
  exact ⟨rfl, hs⟩

/-- Canonical form: every range runs upwards, and each ends at least two below
the start of any later one, in exact integers. -/
structure Canonical (rs : List Iprange) : Prop where
  ordered : ∀ r ∈ rs, r.lower ≤ r.upper
  apart : rs.Pairwise fun r s => r.upper.toNat + 1 < s.lower.toNat

def Iprange.addresses (r : Iprange) : Set UInt32 := {x | r.lower ≤ x ∧ x ≤ r.upper}

def addresses (rs : List Iprange) : Set UInt32 := {x | ∃ r ∈ rs, x ∈ r.addresses}

theorem canonical_iff_separated (rs : List Iprange) :
    Canonical rs ↔ Separated (rs.map Iprange.span) :=
  ⟨fun ⟨ordered, apart⟩ => (separated_iff rs).mpr ⟨ordered, apart⟩, fun sep =>
    ⟨((separated_iff rs).mp sep).1, ((separated_iff rs).mp sep).2⟩⟩

theorem mem_range_addresses {r : Iprange} {x : UInt32} :
    x ∈ r.addresses ↔ x.toNat ∈ r.span.points := mem_span (ρ := Iprange)

theorem mem_addresses {rs : List Iprange} {x : UInt32} :
    x ∈ addresses rs ↔ x.toNat ∈ points (rs.map Iprange.span) := mem_spans (ρ := Iprange)

inductive Change where
  | add (ir : Iprange)
  | del (ir : Iprange)
  | merge (arg : Ipset)
  | purge (arg : Ipset)

def Change.run [Leftover Iprange] (i : Ipset) : Change → Request (Bool × Ipset)
  | add ir => addIprange i ir
  | del ir => delIprange i ir
  | merge arg => mergeIpsets i arg
  | purge arg => purgeIpsets i arg

def Change.CopiesTight (i : Ipset) : Change → Prop
  | add _ | del _ => True
  | merge _ | purge _ => Tight i

instance (i : Ipset) : (c : Change) → Decidable (c.CopiesTight i)
  | .add _ | .del _ => .isTrue trivial
  | .merge _ | .purge _ => inferInstanceAs (Decidable (Tight i))

def Change.Proper : Change → Prop
  | add ir | del ir => ir.lower ≤ ir.upper
  | merge arg | purge arg => Canonical arg.ranges

def Change.effect (s : Set UInt32) : Change → Set UInt32
  | add ir => s ∪ ir.addresses
  | del ir => s \ ir.addresses
  | merge arg => s ∪ addresses arg.ranges
  | purge arg => s \ addresses arg.ranges

/-- The set `i` is canonical, holds exactly the addresses `s`, and nothing has
gone wrong on the way. -/
def Holds (s : Set UInt32) (i : Ipset) (h : Heap) : Prop :=
  Canonical i.ranges ∧ addresses i.ranges = s ∧ Capacity i ∧ Served h

theorem becomes_holds {after : List Span} {s : Set UInt32} (sep : Separated after)
    (pts : ∀ x : UInt32, x.toNat ∈ points after ↔ x ∈ s) {q : Bool × Ipset} {h : Heap}
    (becomes : Becomes after q h) : q.1 = true ∧ Holds s q.2 h := by
  have denotes : addresses q.2.ranges = s := becomes.members pts
  obtain ⟨ok, rfl, fits, served⟩ := becomes
  exact ⟨ok, (canonical_iff_separated _).mpr sep, denotes, fits, served⟩

theorem holds_init (h : Heap) (served : Served h) : Holds ∅ initIpset h :=
  ⟨⟨by simp [initIpset], List.Pairwise.nil⟩, by simp [initIpset, addresses], capacity_init, served⟩

section Changes
variable [Leftover Iprange]

theorem mergeIpsets_served {a b : Ipset} (ca : Canonical a.ranges) (cb : Canonical b.ranges)
    (tight : Tight a) : Ensures Served (mergeIpsets a b)
      (fun q h => q.1 = true ∧ Holds (addresses a.ranges ∪ addresses b.ranges) q.2 h) := by
  intro h served
  have each := ((canonical_iff_separated _).mp cb).ordered
  obtain ⟨sep, pts⟩ := foldl_adjoin_spec (b.ranges.map Iprange.span) a.spans each
    ((canonical_iff_separated _).mp ca)
  rw [List.foldl_map] at sep pts
  refine becomes_holds sep (fun x => ?_) (rebuild_served addIprange_served a b tight h served)
  rw [pts, Set.mem_union, Set.mem_union, mem_addresses, mem_addresses, Ipset.spans]

theorem purgeIpsets_served {a b : Ipset} (ca : Canonical a.ranges) (cb : Canonical b.ranges)
    (tight : Tight a) : Ensures Served (purgeIpsets a b)
      (fun q h => q.1 = true ∧ Holds (addresses a.ranges \ addresses b.ranges) q.2 h) := by
  intro h served
  have each := ((canonical_iff_separated _).mp cb).ordered
  obtain ⟨sep, pts⟩ := foldl_excise_spec (b.ranges.map Iprange.span) a.spans each
    ((canonical_iff_separated _).mp ca)
  rw [List.foldl_map] at sep pts
  refine becomes_holds sep (fun x => ?_) (rebuild_served delIprange_served a b tight h served)
  rw [pts, Set.mem_sdiff, Set.mem_sdiff, mem_addresses, mem_addresses, Ipset.spans]

theorem change_holds (c : Change) (proper : c.Proper) (s : Set UInt32) (i : Ipset)
    (tight : c.CopiesTight i) :
    Ensures (Holds s i) (c.run i) (fun q h => q.1 = true ∧ Holds (c.effect s) q.2 h) := by
  rintro h ⟨canonical, rfl, fits, served⟩
  have sep : Separated i.spans := (canonical_iff_separated _).mp canonical
  have here : ∀ x : UInt32, x.toNat ∈ points i.spans ↔ x ∈ addresses i.ranges := fun x => by
    rw [mem_addresses, Ipset.spans]
  cases c with
  | add ir =>
    have hr : ir.span.lo ≤ ir.span.hi := UInt32.le_iff_toNat_le.mp proper
    obtain ⟨sep', pts⟩ := adjoin_spec ir.span i.spans hr sep
    refine becomes_holds sep' (fun x => ?_) (addIprange_served i ir fits h served)
    rw [pts, Set.mem_union, here, ← mem_range_addresses]
    rfl
  | del ir =>
    have hr : ir.span.lo ≤ ir.span.hi := UInt32.le_iff_toNat_le.mp proper
    obtain ⟨sep', pts⟩ := excise_spec ir.span i.spans hr sep
    refine becomes_holds sep' (fun x => ?_) (delIprange_served i ir fits h served)
    rw [pts, Set.mem_sdiff, here, ← mem_range_addresses]
    rfl
  | merge arg => exact mergeIpsets_served canonical proper tight h served
  | purge arg => exact purgeIpsets_served canonical proper tight h served

end Changes

end Libdank.IpSet
