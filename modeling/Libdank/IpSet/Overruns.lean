import Libdank.IpSet.Capacity
import Libdank.IpSet.Queries
import Libdank.IpSet.Steady

/-! Merging into a set that has shrunk, and purging from it. The copy worked on
claims more room than it has, so nothing is asked for while ranges are stored
past its cells. Up to the first such store the copy holds what it should. -/
namespace Libdank.IpSet
open Requests Buffers SeparatedRanges

def Shrunken (i : Ipset) : Prop := i.rangecount ≠ 0 ∧ i.rangecount < i.maxranges

instance (i : Ipset) : Decidable (Shrunken i) :=
  inferInstanceAs (Decidable (i.rangecount ≠ 0 ∧ i.rangecount < i.maxranges))

theorem tight_of_not_shrunken {i : Ipset} (sane : i.rangecount ≤ i.maxranges)
    (kept : ¬ Shrunken i) : Tight i := by
  by_contra loose
  obtain ⟨some_, short⟩ := not_or.mp loose
  exact kept ⟨some_, lt_of_le_of_ne sane short⟩

/-- However many of `args` are in, `f` leaves no more than `n` spans. -/
def Stays (f : Span → List Span → List Span) (n : ℕ) (spans args : List Span) : Prop :=
  ∀ k, ((args.take k).foldl (fun spans s => f s spans) spans).length ≤ n

def Within (n : ℕ) (s : Set UInt32) : Prop :=
  ∀ rs, Canonical rs → addresses rs = s → rs.length ≤ n

theorem Canonical.within_iff {rs : List Iprange} (canonical : Canonical rs) (n : ℕ) :
    Within n (addresses rs) ↔ rs.length ≤ n := by
  constructor
  · exact fun within => within rs canonical rfl
  · rintro few ss canonical' same
    rwa [canonical'.unique canonical same]

theorem stays_cons {f : Span → List Span → List Span} {n : ℕ} {spans : List Span} (s : Span)
    (args : List Span) :
    Stays f n spans (s :: args) ↔ spans.length ≤ n ∧ Stays f n (f s spans) args := by
  constructor
  · exact fun stays => ⟨stays 0, fun k => stays (k + 1)⟩
  · rintro ⟨first, rest⟩ k
    cases k with
    | zero => exact first
    | succ k => exact rest k

theorem stays_nil {f : Span → List Span → List Span} (dead : ∀ s, f s [] = []) (n : ℕ)
    (args : List Span) :
    Stays f n [] args ∧ args.foldl (fun spans s => f s spans) [] = [] := by
  have none_ : ∀ args : List Span, args.foldl (fun spans s => f s spans) [] = [] := by
    intro args
    induction args with
    | nil => rfl
    | cons s args ih => rwa [List.foldl_cons, dead]
  exact ⟨fun k => by simp [none_], none_ args⟩

def held (rs : List Iprange) (maxranges cells : ℕ) : Ipset :=
  if rs = [] then initIpset else ⟨rs, maxranges, cells⟩

/-- With room claimed, an operation makes no request and does what it should, and
misses the block just when it leaves more ranges than there are cells. -/
structure Strays (op : Ipset → Iprange → Request (Bool × Ipset))
    (f : Span → List Span → List Span) : Prop where
  step : ∀ (ranges : List Iprange) (ir : Iprange), ranges ≠ [] → ∃ rs : List Iprange,
    rs.map Iprange.span = f ir.span (ranges.map Iprange.span) ∧
      ∀ m c h, ranges.length ≤ c → ranges.length < m → op ⟨ranges, m, c⟩ ir h =
        ((true, held rs m c), { h with wild := h.wild || decide (c < rs.length) })
  dead : ∀ s spans, f s spans = [] → ∀ s', f s' [] = []
  idle : ∀ ir h, f ir.span [] = [] → op initIpset ir h = ((true, initIpset), h)
  remembers : ∀ i ir, Remembers (op i ir)

theorem held_some {rs : List Iprange} (some_ : rs ≠ []) (m c : ℕ) : held rs m c = ⟨rs, m, c⟩ :=
  if_neg some_

theorem held_spans (rs : List Iprange) (m c : ℕ) :
    RangeEnds.spans (held rs m c) = rs.map Iprange.span := by
  rw [held]
  split_ifs with none_
  · rw [none_]
    rfl
  · rfl

theorem removeIpset_held (rs : List Iprange) (m c at_ count : ℕ) :
    removeIpset ⟨rs, m, c⟩ at_ count = held (rs.take at_ ++ rs.drop (at_ + count)) m c := by
  rw [removeIpset, held]
  simp only [List.length_eq_zero_iff]

theorem pure_roomy {ranges rs : List Iprange} {m c : ℕ} (inside : ranges.length ≤ c)
    (fewer : rs.length ≤ ranges.length) (h : Heap) :
    (pure (true, held rs m c) : Request (Bool × Ipset)) h =
      ((true, held rs m c), { h with wild := h.wild || decide (c < rs.length) }) := by
  have kept : decide (c < rs.length) = false := decide_eq_false (by omega)
  rw [kept, Bool.or_false]
  rfl

theorem strays_step {op : Ipset → Iprange → Request (Bool × Ipset)}
    {f : Span → List Span → List Span} (computes : Computes op f) {ranges : List Iprange}
    {ir : Iprange} (roomy : ∃ rs : List Iprange, ∀ m c h, ranges.length ≤ c → ranges.length < m →
      op ⟨ranges, m, c⟩ ir h =
        ((true, held rs m c), { h with wild := h.wild || decide (c < rs.length) })) :
    ∃ rs : List Iprange, rs.map Iprange.span = f ir.span (ranges.map Iprange.span) ∧
      ∀ m c h, ranges.length ≤ c → ranges.length < m → op ⟨ranges, m, c⟩ ir h =
        ((true, held rs m c), { h with wild := h.wild || decide (c < rs.length) }) := by
  obtain ⟨rs, run⟩ := roomy
  have fits : Capacity ⟨ranges, ranges.length + 1, ranges.length + 1⟩ := ⟨Nat.le_succ _, le_rfl⟩
  obtain ⟨-, spans, -⟩ := computes _ ir fits ⟨[], false⟩ rfl
  rw [run _ _ _ (Nat.le_succ _) (Nat.lt_succ_self _), held_spans] at spans
  exact ⟨rs, spans, run⟩

section Operations
variable [Leftover Iprange]

theorem fill_roomy {ranges : List Iprange} {m c : ℕ} (room : ranges.length < m)
    (fill : List Iprange → List Iprange) (grow : (fill ranges).length = ranges.length + 1) (h : Heap) :
    (do
        let (ok, i) ← extendIpset ⟨ranges, m, c⟩
        if ok then
          store i.rangecount i.cells
          pure (true, { i with ranges := fill i.ranges })
        else pure (false, i) : Request (Bool × Ipset)) h =
      ((true, held (fill ranges) m c), { h with wild := h.wild || decide (c < (fill ranges).length) }) := by
  have some_ : fill ranges ≠ [] := fun none_ => by simp [none_] at grow
  have there : extendIpset ⟨ranges, m, c⟩ = pure (true, ⟨ranges, m, c⟩) := if_neg room.ne
  have last : decide (c < (fill ranges).length) = decide (c ≤ ranges.length) :=
    decide_eq_decide.mpr (by rw [grow, Nat.lt_succ_iff])
  rw [there, last, held_some some_]
  rfl

theorem insertIpset_roomy {ranges : List Iprange} {m c : ℕ} (room : ranges.length < m) (pre : ℕ)
    (ir : Iprange) (h : Heap) : insertIpset ⟨ranges, m, c⟩ pre ir h =
      ((true, held (ranges.take pre ++ ir :: ranges.drop pre) m c),
        { h with wild := h.wild || decide (c < (ranges.take pre ++ ir :: ranges.drop pre).length) }) := by
  refine fill_roomy room (fun rs => rs.take pre ++ ir :: rs.drop pre) ?_ h
  simp only [List.length_append, List.length_cons, List.length_take, List.length_drop]
  omega

theorem addIprange_roomy (ranges : List Iprange) (merge : Iprange) : ∃ rs : List Iprange,
    ∀ m c h, ranges.length ≤ c → ranges.length < m → addIprange ⟨ranges, m, c⟩ merge h =
      ((true, held rs m c), { h with wild := h.wild || decide (c < rs.length) }) := by
  unfold addIprange
  dsimp only
  generalize skipRanges merge ranges = z
  cases here : ranges[z]? with
  | none => exact ⟨_, fun m c h _ room => fill_roomy room (· ++ [merge]) (by simp) h⟩
  | some cur =>
    have set_ : ∀ ir m c, Ipset.setRange ⟨ranges, m, c⟩ z ir = held (ranges.set z ir) m c := by
      intro ir m c
      refine (held_some (fun none_ => ?_) m c).symm
      have gone : ranges = [] := by simpa using none_
      simp [gone] at here
    dsimp only
    generalize (if merge.lower ≤ cur.lower - 1 ∧ cur.lower ≠ 0 then
      ({ cur with lower := merge.lower } : Iprange) else cur) = cur'
    generalize eatRanges merge.upper (ranges.drop (z + 1)) = eaten
    simp only [set_]
    split_ifs with above past eats
    · exact ⟨_, fun m c h _ room => insertIpset_roomy room z merge h⟩
    · refine ⟨(ranges.set z { cur' with upper := eaten.2 }).take (z + 1) ++
        (ranges.set z { cur' with upper := eaten.2 }).drop (z + 1 + eaten.1), fun m c h inside _ => ?_⟩
      rw [← set_, Ipset.setRange, removeIpset_held]
      refine pure_roomy inside ?_ h
      simp only [List.length_append, List.length_take, List.length_drop, List.length_set]
      omega
    · exact ⟨_, fun m c h inside _ => pure_roomy inside (List.length_set ..).le h⟩
    · exact ⟨_, fun m c h inside _ => pure_roomy inside (List.length_set ..).le h⟩

theorem delLoop_roomy (cut : Iprange) (pre rest : List Iprange) (some_ : pre ++ rest ≠ []) :
    ∃ rs : List Iprange, ∀ m c h, (pre ++ rest).length ≤ c → (pre ++ rest).length < m →
      delLoop cut ⟨pre ++ rest, m, c⟩ pre.length rest h =
        ((true, held rs m c), { h with wild := h.wild || decide (c < rs.length) }) := by
  induction rest generalizing pre with
  | nil =>
    refine ⟨pre ++ [], fun m c h inside _ => ?_⟩
    rw [delLoop, ← held_some some_ m c]
    exact pure_roomy inside le_rfl h
  | cons cur rest ih =>
    have set_ : ∀ r : Iprange, (pre ++ cur :: rest).set pre.length r = pre ++ r :: rest := by simp
    have shift : ∀ r : Iprange, pre ++ r :: rest = (pre ++ [r]) ++ rest := by simp
    have past : ∀ r : Iprange, (pre ++ [r]).length = pre.length + 1 := by simp
    have next : ∀ r : Iprange, ∃ rs : List Iprange, ∀ m c h, (pre ++ cur :: rest).length ≤ c →
        (pre ++ cur :: rest).length < m →
          delLoop cut ⟨pre ++ r :: rest, m, c⟩ (pre.length + 1) rest h =
            ((true, held rs m c), { h with wild := h.wild || decide (c < rs.length) }) := by
      intro r
      obtain ⟨rs, run⟩ := ih (pre ++ [r]) (by simp)
      refine ⟨rs, fun m c h inside room => ?_⟩
      rw [shift, ← past r]
      exact run m c h (by simpa using inside) (by simpa using room)
    simp only [delLoop, Ipset.setRange, set_]
    split_ifs with miss low trim high
    · exact next cur
    · refine ⟨pre ++ { cur with lower := cut.upper + 1 } :: rest, fun m c h inside _ => ?_⟩
      rw [← held_some (by simp) m c]
      exact pure_roomy inside (by simp) h
    · simp only [removeIpset_held]
      have left : (pre ++ cur :: rest).take pre.length ++ (pre ++ cur :: rest).drop (pre.length + 1) =
          pre ++ rest := by simp
      rw [left]
      by_cases gone : pre ++ rest = []
      · obtain ⟨rfl, rfl⟩ := List.append_eq_nil_iff.mp gone
        refine ⟨[], fun m c h inside _ => ?_⟩
        exact pure_roomy inside (Nat.zero_le _) h
      · obtain ⟨rs, run⟩ := ih pre gone
        refine ⟨rs, fun m c h inside room => ?_⟩
        simp only [List.length_append, List.length_cons] at inside room
        rw [held_some gone]
        exact run m c h (by rw [List.length_append]; omega) (by rw [List.length_append]; omega)
    · exact next { cur with upper := cut.lower - 1 }
    · refine ⟨pre ++ initIprange cur.lower (cut.lower - 1) ::
        { cur with lower := cut.upper + 1 } :: rest, fun m c h inside room => ?_⟩
      have split : (pre ++ cur :: rest).take pre.length ++ initIprange cur.lower (cut.lower - 1) ::
          (pre ++ cur :: rest).drop pre.length =
            (pre ++ [initIprange cur.lower (cut.lower - 1)]) ++ cur :: rest := by simp
      rw [bind_apply, insertIpset_roomy room, split, held_some (by simp), held_some (by simp)]
      simp [pure_apply]

theorem extendIpset_remembers (i : Ipset) : Remembers (extendIpset i) :=
  remembers_ite (remembers_bind (remembers_allocate _) fun _ =>
    remembers_ite (remembers_pure _) (remembers_pure _)) (remembers_pure _)

theorem fill_remembers (i : Ipset) (fill : List Iprange → List Iprange) :
    Remembers (do
      let (ok, i) ← extendIpset i
      if ok then
        store i.rangecount i.cells
        pure (true, { i with ranges := fill i.ranges })
      else pure (false, i)) :=
  remembers_bind (extendIpset_remembers i) fun _ => remembers_ite
    (remembers_bind (remembers_store _ _) fun _ => remembers_pure _) (remembers_pure _)

theorem addIprange_remembers (i : Ipset) (merge : Iprange) : Remembers (addIprange i merge) := by
  unfold addIprange
  dsimp only
  cases i.ranges[skipRanges merge i.ranges]? with
  | none => exact fill_remembers i (· ++ [merge])
  | some cur =>
    exact remembers_ite (fill_remembers i fun rs => rs.take _ ++ merge :: rs.drop _)
      (remembers_ite (remembers_pure _) (remembers_pure _))

theorem delLoop_remembers (cut : Iprange) (is : Ipset) (z : ℕ) (rest : List Iprange) :
    Remembers (delLoop cut is z rest) := by
  induction rest generalizing is z with
  | nil => exact remembers_pure _
  | cons cur rest ih =>
    rw [delLoop]
    refine remembers_ite (ih _ _) (remembers_ite (remembers_ite (remembers_pure _) (ih _ _))
      (remembers_ite (ih _ _) ?_))
    exact remembers_bind (fill_remembers is fun rs => rs.take z ++ _ :: rs.drop z) fun _ =>
      remembers_pure _

theorem addIprange_strays : Strays addIprange adjoin where
  step ranges ir _ := strays_step addIprange_served (addIprange_roomy ranges ir)
  dead s spans gone := absurd gone (adjoin_ne_nil s spans)
  idle ir _ gone := absurd gone (adjoin_ne_nil ir.span [])
  remembers := addIprange_remembers

theorem delIprange_strays : Strays delIprange excise where
  step ranges ir some_ := strays_step delIprange_served (delLoop_roomy ir [] ranges some_)
  dead _ _ _ _ := rfl
  idle _ _ _ := rfl
  remembers i ir := delLoop_remembers ir i 0 i.ranges

end Operations

section Copies
variable {op : Ipset → Iprange → Request (Bool × Ipset)} {f : Span → List Span → List Span}

theorem untilFailure_idle (strays : Strays op f) (dead : ∀ s, f s [] = []) (items : List Iprange)
    (h : Heap) : untilFailure op initIpset items h = ((true, initIpset), h) := by
  induction items with
  | nil => rfl
  | cons ir items ih => rw [untilFailure_cons, strays.idle ir h (dead _), if_pos rfl, ih]

/-- The loop over a copy of `c` cells that claims more: nothing is stored past them
if no stage has more ranges, and then it does what it should. -/
theorem untilFailure_strays (strays : Strays op f) {m c : ℕ} (claims : c < m) (items : List Iprange)
    {ranges : List Iprange} (some_ : ranges ≠ []) (inside : ranges.length ≤ c) {h : Heap}
    (tame : Tame h) :
    let q := untilFailure op ⟨ranges, m, c⟩ items h
    (Tame q.2 ↔ Stays f c (ranges.map Iprange.span) (items.map Iprange.span)) ∧
      (Tame q.2 → q.1.1 = true ∧ q.1.2.spans =
        (items.map Iprange.span).foldl (fun spans s => f s spans) (ranges.map Iprange.span)) := by
  induction items generalizing ranges h with
  | nil =>
    refine ⟨iff_of_true tame fun k => ?_, fun _ => ⟨rfl, rfl⟩⟩
    simpa using inside
  | cons ir items ih =>
    obtain ⟨rs, spans, run⟩ := strays.step ranges ir some_
    have here := run m c h inside (inside.trans_lt claims)
    rw [untilFailure_cons, here, if_pos rfl, List.map_cons, stays_cons, List.length_map,
      and_iff_right inside, List.foldl_cons, ← spans]
    by_cases past : c < rs.length
    · have wild : (untilFailure op (held rs m c) items
          { h with wild := h.wild || decide (c < rs.length) }).2.wild = true :=
        remembers_untilFailure strays.remembers _ _ _ (by simp [past])
      have not_ : ¬ Tame (untilFailure op (held rs m c) items
          { h with wild := h.wild || decide (c < rs.length) }).2 := fun calm => by
        rw [Tame, wild] at calm
        exact Bool.noConfusion calm
      refine ⟨iff_of_false not_ fun stays => ?_, fun calm => absurd calm not_⟩
      have first := stays 0
      rw [List.take_zero, List.foldl_nil, List.length_map] at first
      exact absurd first (not_le.mpr past)
    · have same : ({ h with wild := h.wild || decide (c < rs.length) } : Heap) = h := by
        rw [decide_eq_false past, Bool.or_false]
      rw [same]
      by_cases gone : rs = []
      · have dead : ∀ s, f s [] = [] := by
          rw [gone] at spans
          exact strays.dead _ _ spans.symm
        obtain ⟨stays, empty⟩ := stays_nil dead c (items.map Iprange.span)
        rw [gone, held, if_pos rfl, untilFailure_idle strays dead]
        exact ⟨iff_of_true tame stays, fun _ => ⟨rfl, empty.symm⟩⟩
      · rw [held_some gone]
        exact ih gone (not_lt.mp past) tame

theorem rebuild_shrunken {cur : Ipset} (shrunken : Shrunken cur) (arg : Ipset) (h : Heap) :
    rebuild op cur arg h =
      if h.answer 0 = true then
        (untilFailure op ⟨cur.ranges, cur.maxranges, cur.rangecount⟩ arg.ranges >>= fun q =>
          pure (q.1, if q.1 then q.2 else cur)) (h.later 1)
      else ((false, cur), h.later 1) := by
  have full : sizeofIprange * cur.rangecount ≠ 0 := by
    simpa [sizeofIprange] using shrunken.1
  have sane : ¬ cur.rangecount > cur.maxranges := not_lt.mpr shrunken.2.le
  rw [rebuild, cloneIpset, if_neg sane, if_neg full, bind_apply, bind_apply, allocate_eq full]
  cases h.answer 0 <;> rfl

/-- Only the copy of a set that has shrunk is overrun, and only by more ranges
than the set has. -/
theorem rebuild_tame_iff (strays : Strays op f)
    (keeps : ∀ i ir, Capacity i → Ensures Tame (op i ir) (fun r h => Sound r.2 h)) (cur arg : Ipset) :
    (∀ h, Tame h → Tame (rebuild op cur arg h).2) ↔
      (Shrunken cur → Stays f cur.rangecount cur.spans arg.spans) := by
  constructor
  · intro calm shrunken
    have some_ : cur.ranges ≠ [] := fun none_ => shrunken.1 (by rw [Ipset.rangecount, none_]; rfl)
    have loop := (untilFailure_strays strays shrunken.2 arg.ranges some_ le_rfl
      (rfl : Tame ⟨[], false⟩)).1
    have end_ := calm ⟨[], false⟩ rfl
    rw [rebuild_shrunken shrunken] at end_
    exact loop.mp end_
  · intro stays h tame
    by_cases shrunken : Shrunken cur
    · have some_ : cur.ranges ≠ [] := fun none_ => shrunken.1 (by rw [Ipset.rangecount, none_]; rfl)
      rw [rebuild_shrunken shrunken]
      split_ifs
      · exact (untilFailure_strays strays shrunken.2 arg.ranges some_ le_rfl
          (show Tame (h.later 1) from tame)).1.mpr (stays shrunken)
      · exact tame
    · by_cases sane : cur.rangecount ≤ cur.maxranges
      · exact (rebuild_sound keeps cur arg (tight_of_not_shrunken sane shrunken) h tame).2
      · have refused : cloneIpset cur = pure (false, initIpset) := if_pos (not_le.mp sane)
        rw [rebuild, refused]
        exact tame

theorem rebuild_stays (strays : Strays op f) {cur arg : Ipset} (shrunken : Shrunken cur)
    (stays : Stays f cur.rangecount cur.spans arg.spans) {h : Heap} (tame : Tame h)
    (ok : (rebuild op cur arg h).1.1 = true) : (rebuild op cur arg h).1.2.spans =
      arg.spans.foldl (fun spans s => f s spans) cur.spans := by
  have some_ : cur.ranges ≠ [] := fun none_ => shrunken.1 (by rw [Ipset.rangecount, none_]; rfl)
  rw [rebuild_shrunken shrunken] at ok ⊢
  split_ifs at ok ⊢
  · obtain ⟨calm, does⟩ := untilFailure_strays strays shrunken.2 arg.ranges some_ le_rfl
      (show Tame (h.later 1) from tame)
    obtain ⟨well, spans⟩ := does (calm.mpr stays)
    rw [bind_apply, pure_apply]
    dsimp only
    rw [if_pos well, spans]
    rfl

/-- A call that succeeds within its copy does what it does on an array of just the ranges. -/
theorem rebuild_within {op : Ipset → Iprange → Request (Bool × Ipset)}
    {f : Span → List Span → List Span} (strays : Strays op f) (computes : Computes op f)
    (steady : ∀ i ir, Steady Well (op i ir)) {cur arg : Ipset}
    (within : Shrunken cur → Stays f cur.rangecount cur.spans arg.spans) {h : Heap} (tame : Tame h)
    (ok : (rebuild op cur arg h).1.1 = true) :
    (rebuild op cur arg h).1.2.ranges =
      (rebuild op ⟨cur.ranges, cur.rangecount, cur.rangecount⟩ arg ⟨[], false⟩).1.2.ranges := by
  have calm : Served ⟨[], false⟩ := rfl
  have result (i : Ipset) (tight : Tight i) := (rebuild_served computes i arg tight ⟨[], false⟩ calm).2.1
  refine span_injective.list_map ((?_ : Ipset.spans _ = _).trans
    (result ⟨cur.ranges, cur.rangecount, cur.rangecount⟩ (.inr rfl)).symm)
  by_cases shrunken : Shrunken cur
  · rw [rebuild_stays strays shrunken (within shrunken) tame ok]
    exact List.foldl_map
  · have sane : cur.rangecount ≤ cur.maxranges := by
      by_contra more
      rw [rebuild, cloneIpset, if_pos (not_le.mp more)] at ok
      exact Bool.noConfusion ok
    rw [← (rebuild_steady steady cur arg h ⟨[], false⟩ calm).2 ok]
    exact result cur (tight_of_not_shrunken sane shrunken)

theorem Canonical.take {rs : List Iprange} (canonical : Canonical rs) (k : ℕ) : Canonical (rs.take k) :=
  ⟨fun r hr => canonical.ordered r (List.mem_of_mem_take hr), canonical.apart.take⟩

/-- How many ranges there are at each stage, told from the addresses. -/
theorem stays_iff {effect : Set UInt32 → Set UInt32 → Set UInt32} (computes : Computes op f)
    (does : ∀ {a b : Ipset}, Canonical a.ranges → Canonical b.ranges → Tight a →
      Ensures Served (rebuild op a b) (fun q h =>
        q.1 = true ∧ Holds (effect (addresses a.ranges) (addresses b.ranges)) q.2 h))
    {a b : Ipset} (ca : Canonical a.ranges) (cb : Canonical b.ranges) (n : ℕ) :
    Stays f n a.spans b.spans ↔
      ∀ k, Within n (effect (addresses a.ranges) (addresses (b.ranges.take k))) := by
  refine forall_congr' fun k => ?_
  have tight : Tight ⟨a.ranges, a.rangecount, a.rangecount⟩ := .inr rfl
  obtain ⟨-, spans, -⟩ := rebuild_served computes ⟨a.ranges, a.rangecount, a.rangecount⟩
    ⟨b.ranges.take k, 0, 0⟩ tight ⟨[], false⟩ rfl
  obtain ⟨-, canonical, denotes, -⟩ := @does ⟨a.ranges, a.rangecount, a.rangecount⟩
    ⟨b.ranges.take k, 0, 0⟩ ca (cb.take k) tight ⟨[], false⟩ rfl
  have count := congrArg List.length spans
  rw [spans_eq, List.length_map] at count
  rw [← denotes, canonical.within_iff, count, Ipset.spans, Ipset.spans, Ipset.spans,
    ← List.map_take, List.foldl_map]

end Copies

section Changes
variable {a b : Ipset}

/-- If `a` has shrunk, at no stage of the merge are there more ranges than `a` has. -/
def MergeStays (a b : Ipset) : Prop := Shrunken a → Stays adjoin a.rangecount a.spans b.spans

def PurgeStays (a b : Ipset) : Prop := Shrunken a → Stays excise a.rangecount a.spans b.spans

def MergesWithin (a b : Ipset) : Prop :=
  Shrunken a → ∀ k, Within a.rangecount (addresses a.ranges ∪ addresses (b.ranges.take k))

def PurgesWithin (a b : Ipset) : Prop :=
  Shrunken a → ∀ k, Within a.rangecount (addresses a.ranges \ addresses (b.ranges.take k))

variable [Leftover Iprange]

theorem mergeStays_iff (ca : Canonical a.ranges) (cb : Canonical b.ranges) :
    MergeStays a b ↔ MergesWithin a b :=
  imp_congr_right fun _ => stays_iff addIprange_served mergeIpsets_served ca cb a.rangecount

theorem purgeStays_iff (ca : Canonical a.ranges) (cb : Canonical b.ranges) :
    PurgeStays a b ↔ PurgesWithin a b :=
  imp_congr_right fun _ => stays_iff delIprange_served purgeIpsets_served ca cb a.rangecount

theorem mergeIpsets_tame_iff (a b : Ipset) :
    (∀ h, Tame h → Tame (mergeIpsets a b h).2) ↔ MergeStays a b :=
  rebuild_tame_iff addIprange_strays addIprange_sound a b

theorem purgeIpsets_tame_iff (a b : Ipset) :
    (∀ h, Tame h → Tame (purgeIpsets a b h).2) ↔ PurgeStays a b :=
  rebuild_tame_iff delIprange_strays delIprange_sound a b

theorem mergeIpsets_within (ca : Canonical a.ranges) (cb : Canonical b.ranges)
    (stays : MergeStays a b) {h : Heap} (tame : Tame h) (ok : (mergeIpsets a b h).1.1 = true) :
    Canonical (mergeIpsets a b h).1.2.ranges ∧
      addresses (mergeIpsets a b h).1.2.ranges = addresses a.ranges ∪ addresses b.ranges := by
  obtain ⟨-, canonical, denotes, -⟩ := @mergeIpsets_served _ ⟨a.ranges, a.rangecount, a.rangecount⟩ b
    ca cb (.inr rfl) ⟨[], false⟩ rfl
  rw [mergeIpsets, rebuild_within addIprange_strays addIprange_served addIprange_steady stays tame ok]
  exact ⟨canonical, denotes⟩

theorem purgeIpsets_within (ca : Canonical a.ranges) (cb : Canonical b.ranges)
    (stays : PurgeStays a b) {h : Heap} (tame : Tame h) (ok : (purgeIpsets a b h).1.1 = true) :
    Canonical (purgeIpsets a b h).1.2.ranges ∧
      addresses (purgeIpsets a b h).1.2.ranges = addresses a.ranges \ addresses b.ranges := by
  obtain ⟨-, canonical, denotes, -⟩ := @purgeIpsets_served _ ⟨a.ranges, a.rangecount, a.rangecount⟩ b
    ca cb (.inr rfl) ⟨[], false⟩ rfl
  rw [purgeIpsets, rebuild_within delIprange_strays delIprange_served delIprange_steady stays tame ok]
  exact ⟨canonical, denotes⟩

end Changes

end Libdank.IpSet
