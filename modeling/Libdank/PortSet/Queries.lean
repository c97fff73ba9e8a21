import Libdank.Foundation.SpanPoints
import Libdank.PortSet.Printing

/-! The queries of `objects/portset.c`: inclusion, the number of ports, and the
iterator. Each of them slips: inclusion looks at one array twice, the number
does not fit in a port, and the iterator never leaves the first range. -/
namespace Libdank.PortSet
open Requests SeparatedRanges

section Reading

/-! Reads of arrays of ranges are recorded; `junk` is what lies behind an array. -/

abbrev Reads := StateM (List (Portset × ℕ))

variable (junk : ℕ → Portrange)

def readRange (p : Portset) (z : ℕ) : Reads Portrange := do
  modify ((p, z) :: ·)
  pure (p.ranges[z]?.getD (junk z))

def portInRange (p : Portrange) (port : UInt32) : Bool :=
  decide (port ≥ p.lower.toUInt32) && decide (port ≤ p.upper.toUInt32)

/-- The inner loop of `contains_portset` with `superz` that many short of
`super->rangecount`. The range it looks at is one of `sub`. -/
def superLoop (sub : Portset) (subpr : Portrange) : ℕ → ℕ → Reads Bool
  | 0, _ => pure false
  | left + 1, superz => do
    let superpr ← readRange junk sub superz
    if portInRange superpr subpr.lower.toUInt32 then
      if portInRange superpr subpr.upper.toUInt32 then pure true
      else superLoop sub subpr left (superz + 1)
    else superLoop sub subpr left (superz + 1)

def subLoop (super sub : Portset) : ℕ → ℕ → Reads Bool
  | 0, _ => pure true
  | left + 1, subz => do
    let subpr ← readRange junk sub subz
    if ← superLoop junk sub subpr super.rangecount 0 then subLoop super sub left (subz + 1)
    else pure false

def containsPortset (super sub : Portset) : Reads Bool := subLoop junk super sub sub.rangecount 0

end Reading

def InBounds (reads : List (Portset × ℕ)) : Prop := ∀ read ∈ reads, read.2 < read.1.rangecount

theorem points_eq_image (rs : List Portrange) :
    points (rs.map Portrange.span) = UInt16.toNat '' ports rs := by
  ext x
  constructor
  · intro hx
    obtain ⟨s, hs, lo, hi⟩ := mem_points.mp hx
    obtain ⟨r, hr, rfl⟩ := List.mem_map.mp hs
    have fits : (UInt16.ofNat x).toNat = x :=
      UInt16.toNat_ofNat_of_lt' (lt_of_le_of_lt hi r.upper.toNat_lt)
    exact ⟨UInt16.ofNat x, mem_ports.mpr (by rwa [fits]), fits⟩
  · rintro ⟨y, hy, rfl⟩
    exact mem_ports.mp hy

theorem ports_subset_iff {rs ss : List Portrange} (canonical : Canonical rs)
    (ordered : ∀ s ∈ ss, s.lower ≤ s.upper) :
    ports ss ⊆ ports rs ↔ ∀ s ∈ ss, ∃ r ∈ rs, r.lower ≤ s.lower ∧ s.upper ≤ r.upper := by
  have upwards : ∀ s ∈ ss.map Portrange.span, s.lo ≤ s.hi := by
    intro s hs
    obtain ⟨r, hr, rfl⟩ := List.mem_map.mp hs
    exact UInt16.le_iff_toNat_le.mp (ordered r hr)
  rw [← Set.image_subset_image_iff fun x y => UInt16.toNat_inj.mp, ← points_eq_image, ← points_eq_image,
    points_subset_iff ((canonical_iff_separated _).mp canonical) upwards]
  simp only [List.mem_map, exists_exists_and_eq_and, forall_exists_index, and_imp,
    forall_apply_eq_imp_iff₂, span_lo, span_hi, ← UInt16.le_iff_toNat_le]

theorem readRange_inBounds (junk : ℕ → Portrange) {p : Portset} {z : ℕ} (inside : z < p.ranges.length) :
    Ensures InBounds (readRange junk p z) (fun r reads => r = p.ranges[z] ∧ InBounds reads) := by
  intro reads bounds
  have found : (p.ranges[z]?).getD (junk z) = p.ranges[z] := by rw [List.getElem?_eq_getElem inside, Option.getD_some]
  refine ⟨found, fun read hr => ?_⟩
  rcases List.mem_cons.mp hr with rfl | hr
  · exact inside
  · exact bounds read hr

theorem portInRange_iff (p : Portrange) (port : UInt16) :
    portInRange p port.toUInt32 = true ↔ port ∈ p.ports := by
  simp [portInRange, Portrange.ports, UInt32.le_iff_toNat_le, UInt16.le_iff_toNat_le]

theorem Canonical.not_mem_earlier {rs : List Portrange} (canonical : Canonical rs) {i j : ℕ}
    (before : i < j) (earlier : i < rs.length) (inside : j < rs.length) :
    rs[j].lower ∉ rs[i].ports := by
  intro here
  have apart := List.pairwise_iff_getElem.mp canonical.apart i j earlier inside before
  have below := UInt16.le_iff_toNat_le.mp here.2
  omega

theorem superLoop_spec (junk : ℕ → Portrange) {sub : Portset} (canonical : Canonical sub.ranges) {subz : ℕ}
    (inside : subz < sub.ranges.length) (left superz : ℕ) (before : superz ≤ subz) :
    Ensures InBounds (superLoop junk sub sub.ranges[subz] left superz)
      (fun found reads => (found = true ↔ subz < superz + left) ∧ InBounds reads) := by
  induction left generalizing superz with
  | zero => exact ensures_pure fun reads bounds => ⟨by simpa using before, bounds⟩
  | succ left ih =>
    have up := canonical.ordered _ (List.getElem_mem inside)
    rw [superLoop]
    refine ensures_bind (readRange_inBounds junk (before.trans_lt inside)) fun r => ?_
    rcases before.lt_or_eq with earlier | rfl
    · intro reads read
      obtain ⟨rfl, bounds⟩ := read
      have outside := (portInRange_iff _ _).not.mpr (canonical.not_mem_earlier earlier (before.trans_lt inside) inside)
      rw [if_neg outside]
      have next := ih (superz + 1) earlier reads bounds
      rwa [Nat.add_right_comm, Nat.add_assoc] at next
    · intro reads read
      obtain ⟨rfl, bounds⟩ := read
      have lower := (portInRange_iff _ _).mpr (show _ ∈ Portrange.ports _ from ⟨UInt16.le_refl _, up⟩)
      have upper := (portInRange_iff _ _).mpr (show _ ∈ Portrange.ports _ from ⟨up, UInt16.le_refl _⟩)
      rw [if_pos lower, if_pos upper]
      exact ⟨by simp [pure_apply], bounds⟩

theorem subLoop_spec (junk : ℕ → Portrange) (super : Portset) {sub : Portset} (canonical : Canonical sub.ranges)
    (left subz : ℕ) (end_ : subz + left = sub.ranges.length) :
    Ensures InBounds (subLoop junk super sub left subz)
      (fun all reads => (all = true ↔ left = 0 ∨ subz + left ≤ super.rangecount) ∧ InBounds reads) := by
  induction left generalizing subz with
  | zero => exact ensures_pure fun reads bounds => ⟨by simp, bounds⟩
  | succ left ih =>
    have inside : subz < sub.ranges.length := by omega
    rw [subLoop]
    refine ensures_bind (readRange_inBounds junk inside) fun r reads read => ?_
    obtain ⟨rfl, bounds⟩ := read
    have looked : Ensures InBounds (superLoop junk sub sub.ranges[subz] super.rangecount 0 >>= fun found =>
        if found = true then subLoop junk super sub left (subz + 1) else pure false)
        (fun all reads => (all = true ↔ left + 1 = 0 ∨ subz + (left + 1) ≤ super.rangecount) ∧ InBounds reads) := by
      refine ensures_bind (superLoop_spec junk canonical inside super.rangecount 0 (Nat.zero_le _))
        fun found => ensures_ite (fun ok reads hr => ?_) (fun missed => ensures_pure fun reads hr => ?_)
      · obtain ⟨count, bounds⟩ := hr
        obtain ⟨rest, bounds'⟩ := ih (subz + 1) (by omega) reads bounds
        refine ⟨rest.trans ?_, bounds'⟩
        have := count.mp ok
        omega
      · obtain ⟨count, bounds⟩ := hr
        refine ⟨?_, bounds⟩
        have := mt count.mpr missed
        simp
        omega
    exact looked reads bounds

/-- Only the numbers of ranges are compared. -/
theorem containsPortset_counts (junk : ℕ → Portrange) (super : Portset) {sub : Portset}
    (canonical : Canonical sub.ranges) :
    Ensures InBounds (containsPortset junk super sub) (fun all reads =>
      (all = true ↔ sub.rangecount ≤ super.rangecount) ∧ InBounds reads) := by
  refine (subLoop_spec junk super canonical sub.rangecount 0 (Nat.zero_add _)).mono (fun _ h => h) ?_
  rintro all reads ⟨count, bounds⟩
  refine ⟨count.trans ?_, bounds⟩
  omega

/-- The answer is about the ports, and only ranges of the sets are read. -/
def ContainsExact (junk : ℕ → Portrange) (super sub : Portset) : Prop :=
  ((containsPortset junk super sub []).1 = true ↔ ports sub.ranges ⊆ ports super.ranges) ∧
    InBounds (containsPortset junk super sub []).2

def Covered (super : Portset) (r : Portrange) : Prop :=
  ∃ s ∈ super.ranges, s.lower ≤ r.lower ∧ r.upper ≤ s.upper

instance (super : Portset) (r : Portrange) : Decidable (Covered super r) :=
  inferInstanceAs (Decidable (∃ s ∈ super.ranges, s.lower ≤ r.lower ∧ r.upper ≤ s.upper))

/-- The answer is right when the numbers of ranges happen to tell it. -/
theorem containsPortset_exact_iff (junk : ℕ → Portrange) {super sub : Portset}
    (cp : Canonical super.ranges) (cb : Canonical sub.ranges) :
    ContainsExact junk super sub ↔
      (sub.rangecount ≤ super.rangecount → ∀ r ∈ sub.ranges, Covered super r) ∧
      (super.rangecount < sub.rangecount → ∃ r ∈ sub.ranges, ¬ Covered super r) := by
  obtain ⟨count, bounds⟩ := containsPortset_counts junk super cb [] (by simp [InBounds])
  have covered : ports sub.ranges ⊆ ports super.ranges ↔ ∀ r ∈ sub.ranges, Covered super r :=
    ports_subset_iff cp cb.ordered
  have some_ : (∃ r ∈ sub.ranges, ¬ Covered super r) ↔ ¬ ∀ r ∈ sub.ranges, Covered super r := by
    simp only [not_forall, exists_prop]
  rw [ContainsExact, count, covered, some_, and_iff_left bounds, ← not_le]
  tauto

theorem containsPortset_exact_first :
    ContainsExact (fun _ => ⟨0, 0⟩) ⟨[⟨80, 90⟩, ⟨443, 443⟩]⟩ ⟨[⟨81, 82⟩]⟩ :=
  (containsPortset_exact_iff (fun _ => ⟨0, 0⟩) ⟨by simp, by simp⟩ ⟨by simp, by simp⟩).mpr (by decide)

/-- Port 5 is said to be among ports 1 to 3. -/
theorem containsPortset_other :
    Canonical [⟨1, 3⟩] ∧ Canonical [⟨5, 5⟩] ∧
      (containsPortset (fun _ => ⟨0, 0⟩) ⟨[⟨1, 3⟩]⟩ ⟨[⟨5, 5⟩]⟩ []).1 = true ∧
      ¬ ports [⟨5, 5⟩] ⊆ ports [⟨1, 3⟩] := by
  refine ⟨⟨by simp, by simp⟩, ⟨by simp, by simp⟩, by decide, fun subset => ?_⟩
  have five := @subset 5 ⟨⟨5, 5⟩, by simp, by decide, by decide⟩
  simp [ports, Portrange.ports] at five

section Counting

/-- Each range is measured in `int`, and the sum stored in 16 bits. -/
def portsetPortcount (ps : Portset) : UInt16 :=
  ps.ranges.foldl (fun count r => UInt16.ofInt (int count + (int r.upper - int r.lower + 1))) 0

theorem toNat_added {count : UInt16} {r : Portrange} (up : r.lower ≤ r.upper) :
    (UInt16.ofInt (int count + (int r.upper - int r.lower + 1))).toNat =
      (count.toNat + r.span.width) % 2 ^ 16 := by
  have le := UInt16.le_iff_toNat_le.mp up
  have sum : int count + (int r.upper - int r.lower + 1) = ((count.toNat + r.span.width : ℕ) : ℤ) := by
    simp only [int, Span.width, span_lo, span_hi]
    omega
  rw [sum, UInt16.ofInt, UInt16.toNat_ofNat']
  omega

theorem foldl_portcount {rs : List Portrange} (ordered : ∀ r ∈ rs, r.lower ≤ r.upper) (count : UInt16) :
    (rs.foldl (fun count r => UInt16.ofInt (int count + (int r.upper - int r.lower + 1))) count).toNat =
      (count.toNat + extent (rs.map Portrange.span)) % 2 ^ 16 := by
  induction rs generalizing count with
  | nil => simp [extent]
  | cons r rest ih =>
    have whole : extent ((r :: rest).map Portrange.span) =
        r.span.width + extent (rest.map Portrange.span) := by simp [extent]
    rw [List.foldl_cons, ih fun s hs => ordered s (by simp [hs]), toNat_added (ordered r (by simp)), whole,
      Nat.mod_add_mod, Nat.add_assoc]

theorem ncard_ports {rs : List Portrange} (canonical : Canonical rs) :
    (ports rs).ncard = extent (rs.map Portrange.span) := by
  rw [← ((canonical_iff_separated rs).mp canonical).ncard_points, points_eq_image,
    Set.ncard_image_of_injective _ fun x y => UInt16.toNat_inj.mp]

theorem ncard_contained {ps : Portset} (canonical : Canonical ps.ranges) :
    {port | containsPort ps port = true}.ncard = extent ps.spans := by
  have held : {port | containsPort ps port = true} = ports ps.ranges := by
    ext port
    exact containsPort_iff ps canonical port
  rw [held, ncard_ports canonical, Portset.spans]

theorem portsetComplete_iff (ps : Portset) : portsetComplete ps = true ↔ ps.spans = [⟨0, 65535⟩] := by
  have one (r : Portrange) : r.span = ⟨0, 65535⟩ ↔ r.lower = 0 ∧ r.upper = 65535 := by
    rw [Span.ext_iff, span_lo, span_hi, ← UInt16.toNat_inj, ← UInt16.toNat_inj]
    rfl
  rw [portsetComplete, Portset.spans]
  rcases ps.ranges with _ | ⟨r, _ | ⟨s, rest⟩⟩
  · simp
  · simp [one]
  · simp

/-- The count is right but for the set of all ports, of which it is 0. -/
theorem portsetPortcount_exact_iff {ps : Portset} (canonical : Canonical ps.ranges) :
    (portsetPortcount ps).toNat = {port | containsPort ps port = true}.ncard ↔
      portsetComplete ps = false := by
  have sep : Separated ps.spans := (canonical_iff_separated _).mp canonical
  have inside : ∀ s ∈ ps.spans, s.hi < 65535 + 1 := by
    intro s hs
    obtain ⟨r, hr, rfl⟩ := List.mem_map.mp hs
    exact r.upper.toNat_lt
  have le := sep.extent_le inside
  rw [portsetPortcount, foldl_portcount canonical.ordered, ncard_contained canonical, UInt16.toNat_zero,
    Nat.zero_add, ← Bool.not_eq_true, portsetComplete_iff, ← sep.extent_eq_iff inside, Portset.spans]
  rw [Portset.spans] at le
  omega

theorem portsetPortcount_exact_two :
    (portsetPortcount ⟨[⟨0, 65533⟩, ⟨65535, 65535⟩]⟩).toNat =
      {port | containsPort ⟨[⟨0, 65533⟩, ⟨65535, 65535⟩]⟩ port = true}.ncard :=
  (portsetPortcount_exact_iff ⟨by simp, by simp⟩).mpr rfl

/-- The set of all ports is counted as empty. -/
theorem portsetPortcount_wraps :
    Canonical [⟨0, 65535⟩] ∧ (portsetPortcount ⟨[⟨0, 65535⟩]⟩).toNat = 0 ∧
      {port | containsPort ⟨[⟨0, 65535⟩]⟩ port = true}.ncard = 65536 := by
  have canonical : Canonical [⟨0, 65535⟩] := ⟨by simp, by simp⟩
  exact ⟨canonical, by decide, (ncard_contained canonical).trans (by decide)⟩

end Counting

section Iterating

structure PortsetIterator where
  ps : Portset
  priter : ℤ
  pridx : ℕ
deriving DecidableEq, Repr

def initPortsetIterator (ps : Portset) : PortsetIterator := ⟨ps, -1, 0⟩

variable (junk : ℕ → Portrange)

/-- The next port, `none` for the return value 0. The index is looked at only to
begin a range. -/
def portsetIterate (psi : PortsetIterator) : Option UInt32 × PortsetIterator :=
  if psi.priter < 0 ∧ psi.pridx ≥ psi.ps.rangecount then (none, psi)
  else
    let priter := if psi.priter < 0 then 0 else psi.priter
    let pr := psi.ps.ranges[psi.pridx]?.getD (junk psi.pridx)
    (some (UInt32.ofInt (int pr.lower + priter)),
      { psi with priter := if priter + 1 > int pr.upper - int pr.lower then -1 else priter + 1 })

def iteratorAfter (ps : Portset) : ℕ → PortsetIterator
  | 0 => initPortsetIterator ps
  | n + 1 => (portsetIterate junk (iteratorAfter ps n)).2

def iterated (ps : Portset) (n : ℕ) : Option UInt32 := (portsetIterate junk (iteratorAfter junk ps n)).1

/-- One call for each port of the set, in ascending order, and one that says
there are no more. -/
def Enumerates (ps : Portset) : Prop :=
  ∃ all : List UInt16, all.Pairwise (· < ·) ∧ (∀ port, port ∈ all ↔ port ∈ ports ps.ranges) ∧
    (∀ n, (inside : n < all.length) → iterated junk ps n = some all[n].toUInt32) ∧
    iterated junk ps all.length = none

def atOffset (ps : Portset) (k : ℕ) : PortsetIterator := ⟨ps, if k = 0 then -1 else k, 0⟩

theorem portsetIterate_atOffset {ps : Portset} {r : Portrange} {rest : List Portrange}
    (split : ps.ranges = r :: rest) {k : ℕ} (inside : k < r.span.width) :
    portsetIterate junk (atOffset ps k) =
      (some (UInt32.ofNat (r.lower.toNat + k)), atOffset ps ((k + 1) % r.span.width)) := by
  have first : (atOffset ps k).ps.ranges[(atOffset ps k).pridx]?.getD (junk (atOffset ps k).pridx) = r := by
    simp [atOffset, split]
  have more : ¬ ((atOffset ps k).priter < 0 ∧ (atOffset ps k).pridx ≥ (atOffset ps k).ps.rangecount) := by
    simp [atOffset, Portset.rangecount, split]
  have offset : (if (atOffset ps k).priter < 0 then 0 else (atOffset ps k).priter) = k := by
    simp only [atOffset]
    split_ifs <;> omega
  have port : UInt32.ofInt (int r.lower + k) = UInt32.ofNat (r.lower.toNat + k) := by
    rw [← UInt32.toNat_inj, UInt32.ofInt, UInt32.toNat_ofNat', UInt32.toNat_ofNat', int]
    omega
  have turn : (k : ℤ) + 1 > int r.upper - int r.lower ↔ k + 1 = r.span.width := by
    simp only [Span.width, span_lo, span_hi, int] at inside ⊢
    omega
  have next : (if (k : ℤ) + 1 > int r.upper - int r.lower then (-1 : ℤ) else k + 1) =
      (atOffset ps ((k + 1) % r.span.width)).priter := by
    rcases Nat.lt_or_eq_of_le (Nat.succ_le_of_lt inside) with more | last
    · rw [if_neg (mt turn.mp more.ne), Nat.mod_eq_of_lt more]
      rfl
    · rw [if_pos (turn.mpr last), ← last, Nat.mod_self]
      rfl
  rw [portsetIterate, if_neg more]
  dsimp only
  rw [first, offset, port, next]
  rfl

theorem width_pos {r : Portrange} (up : r.lower ≤ r.upper) : 0 < r.span.width := by
  have := UInt16.le_iff_toNat_le.mp up
  simp only [Span.width, span_lo, span_hi]
  omega

theorem iteratorAfter_cycles {ps : Portset} {r : Portrange} {rest : List Portrange}
    (split : ps.ranges = r :: rest) (up : r.lower ≤ r.upper) (n : ℕ) :
    iteratorAfter junk ps n = atOffset ps (n % r.span.width) := by
  induction n with
  | zero => rfl
  | succ n ih =>
    rw [iteratorAfter, ih, portsetIterate_atOffset junk split (Nat.mod_lt n (width_pos up)), Nat.mod_add_mod]

/-- The iterator goes round within the first range, and never leaves it. -/
theorem iterated_cycles {ps : Portset} {r : Portrange} {rest : List Portrange}
    (split : ps.ranges = r :: rest) (up : r.lower ≤ r.upper) (n : ℕ) :
    iterated junk ps n = some (UInt32.ofNat (r.lower.toNat + n % r.span.width)) := by
  rw [iterated, iteratorAfter_cycles junk split up, portsetIterate_atOffset junk split (Nat.mod_lt n (width_pos up))]

/-- Only the iteration over no ports at all ends. -/
theorem enumerates_iff {ps : Portset} (canonical : Canonical ps.ranges) :
    Enumerates junk ps ↔ ps.ranges = [] := by
  constructor
  · rintro ⟨all, -, -, -, ended⟩
    by_contra some_
    obtain ⟨r, rest, split⟩ := List.exists_cons_of_ne_nil some_
    rw [iterated_cycles junk split (canonical.ordered r (by simp [split]))] at ended
    exact Option.some_ne_none _ ended
  · intro empty
    refine ⟨[], List.Pairwise.nil, fun port => by simp [empty, ports], fun n inside => ?_, ?_⟩
    · exact absurd inside (Nat.not_lt_zero n)
    · simp [iterated, iteratorAfter, initPortsetIterator, portsetIterate, Portset.rangecount, empty]

theorem enumerates_none : Enumerates (fun _ => ⟨0, 0⟩) ⟨[]⟩ :=
  (enumerates_iff (fun _ => ⟨0, 0⟩) ⟨by simp, by simp⟩).mpr rfl

/-- The second port of two is never given. -/
theorem iterate_repeats :
    Canonical [⟨80, 80⟩, ⟨443, 443⟩] ∧
      iterated (fun _ => ⟨0, 0⟩) ⟨[⟨80, 80⟩, ⟨443, 443⟩]⟩ 0 = some 80 ∧
      iterated (fun _ => ⟨0, 0⟩) ⟨[⟨80, 80⟩, ⟨443, 443⟩]⟩ 1 = some 80 ∧
      ¬ Enumerates (fun _ => ⟨0, 0⟩) ⟨[⟨80, 80⟩, ⟨443, 443⟩]⟩ := by
  refine ⟨⟨by simp, by simp⟩, by decide, by decide, ?_⟩
  rintro ⟨all, -, -, -, ended⟩
  rw [@iterated_cycles _ ⟨[⟨80, 80⟩, ⟨443, 443⟩]⟩ ⟨80, 80⟩ [⟨443, 443⟩] rfl (by decide)] at ended
  exact Option.some_ne_none _ ended

end Iterating

end Libdank.PortSet
