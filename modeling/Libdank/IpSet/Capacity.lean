import Libdank.IpSet.Canonical
import Libdank.IpSet.Parse

/-! The capacity of the array behind a set: `rangecount` within `maxranges`
within the cells allocated. Every operation keeps it but the copy of a set that
has shrunk, which records more room than it has. -/
namespace Libdank.IpSet
open Requests Buffers Parse

def Sound (i : Ipset) (h : Heap) : Prop := Capacity i ∧ Tame h

section Operations
variable [Leftover Iprange]

theorem extendIpset_sound (i : Ipset) (fits : Capacity i) :
    Ensures Tame (extendIpset i) (fun r h => Tame h ∧ Capacity r.2 ∧ r.2.ranges = i.ranges ∧
      (r.1 = true → i.rangecount < r.2.maxranges)) := by
  have moved := fits.moved
  obtain ⟨counted, allocated⟩ := fits
  refine ensures_ite (fun full => ?_) (fun room => ensures_pure fun _ hs => ?_)
  · refine ensures_bind (allocate_tame _) fun ok => ensures_ite (fun served => ?_) (fun refused => ?_)
    · refine ensures_pure fun h hs => ⟨hs, ⟨?_, le_rfl⟩, moved, fun _ => Nat.lt_succ_self _⟩
      exact (congrArg List.length moved).le.trans (Nat.le_succ _)
    · exact ensures_pure fun h hs => ⟨hs, ⟨counted, allocated⟩, rfl, by simp⟩
  · exact ⟨hs, ⟨counted, allocated⟩, rfl, fun _ => lt_of_le_of_ne counted room⟩

/-- Both ways of filling the cell just opened: the array grows by one range and
the last cell written is the last one in use. -/
theorem fill_sound (i : Ipset) (fits : Capacity i) (fill : List Iprange → List Iprange)
    (grow : ∀ rs, (fill rs).length = rs.length + 1) :
    Ensures Tame (do
        let (ok, i) ← extendIpset i
        if ok then
          store i.rangecount i.cells
          pure (true, { i with ranges := fill i.ranges })
        else pure (false, i)) (fun r h => Sound r.2 h) := by
  refine ensures_bind (extendIpset_sound i fits) fun ⟨ok, j⟩ => ?_
  refine ensures_ite (fun served => ?_) (fun refused => ?_)
  · intro h hs
    obtain ⟨tame, ⟨counted, allocated⟩, same, room⟩ := hs
    have room : i.rangecount < j.maxranges := room served
    have count : j.rangecount = i.rangecount := congrArg List.length same
    have inside : j.rangecount < j.cells := by
      rw [count]
      exact lt_of_lt_of_le room allocated
    refine ⟨⟨?_, allocated⟩, store_tame inside h tame⟩
    change (fill j.ranges).length ≤ j.maxranges
    rw [← count] at room
    rw [grow]
    exact room
  · exact ensures_pure fun h hs => ⟨hs.2.1, hs.1⟩

theorem appendIpset_sound (i : Ipset) (ir : Iprange) (fits : Capacity i) :
    Ensures Tame (appendIpset i ir) (fun r h => Sound r.2 h) :=
  fill_sound i fits (· ++ [ir]) (by simp)

theorem insertIpset_sound (i : Ipset) (pre : ℕ) (ir : Iprange) (fits : Capacity i) :
    Ensures Tame (insertIpset i pre ir) (fun r h => Sound r.2 h) :=
  fill_sound i fits (fun rs => rs.take pre ++ ir :: rs.drop pre) fun rs => by
    simp only [List.length_append, List.length_cons, List.length_take, List.length_drop]
    omega

theorem addIprange_sound (i : Ipset) (merge : Iprange) (fits : Capacity i) :
    Ensures Tame (addIprange i merge) (fun r h => Sound r.2 h) := by
  unfold addIprange
  dsimp only
  cases i.ranges[skipRanges merge i.ranges]? with
  | none => exact appendIpset_sound i merge fits
  | some cur =>
    refine ensures_ite (fun _ => insertIpset_sound i _ merge fits) fun _ =>
      ensures_ite (fun _ => ensures_pure fun h hs => ⟨?_, hs⟩)
        (fun _ => ensures_pure fun h hs => ⟨setRange_capacity fits _ _, hs⟩)
    dsimp only
    split_ifs
    all_goals first
      | exact removeIpset_capacity (setRange_capacity fits _ _) _ _
      | exact setRange_capacity fits _ _

theorem delLoop_sound (cut : Iprange) (is : Ipset) (z : ℕ) (rest : List Iprange)
    (fits : Capacity is) : Ensures Tame (delLoop cut is z rest) (fun r h => Sound r.2 h) := by
  induction rest generalizing is z with
  | nil => exact ensures_pure fun h hs => ⟨fits, hs⟩
  | cons cur rest ih =>
    rw [delLoop]
    refine ensures_ite (fun _ => ih _ _ fits) fun _ => ensures_ite (fun _ => ensures_ite
      (fun _ => ?_) (fun _ => ?_)) (fun _ => ensures_ite (fun _ => ?_) (fun _ => ?_))
    · exact ensures_pure fun h hs => ⟨setRange_capacity fits _ _, hs⟩
    · exact ih _ _ (removeIpset_capacity fits _ _)
    · exact ih _ _ (setRange_capacity fits _ _)
    · refine ensures_bind (insertIpset_sound is z _ fits) ?_
      rintro ⟨ok, js⟩
      refine ensures_pure fun h hs => ⟨?_, hs.2⟩
      cases ok with
      | false => exact hs.1
      | true => exact setRange_capacity hs.1 _ _

theorem delIprange_sound (is : Ipset) (cut : Iprange) (fits : Capacity is) :
    Ensures Tame (delIprange is cut) (fun r h => Sound r.2 h) :=
  delLoop_sound cut is 0 is.ranges fits

end Operations

theorem cloneIpset_sound (src : Ipset) (tight : Tight src) :
    Ensures Tame (cloneIpset src) (fun r h => Sound r.2 h) := by
  refine ensures_ite (fun _ => ensures_pure fun h hs => ⟨capacity_init, hs⟩) fun sane =>
    ensures_ite (fun _ => ensures_pure fun h hs => ⟨capacity_init, hs⟩) fun full => ?_
  refine ensures_bind (allocate_tame _) fun ok => ensures_ite (fun _ => ?_) (fun _ => ?_)
  · refine ensures_pure fun h hs => ⟨⟨not_lt.mp sane, ?_⟩, hs⟩
    rcases tight with empty | same
    · exact absurd (by rw [empty, Nat.mul_zero]) full
    · exact same.ge
  · exact ensures_pure fun h hs => ⟨capacity_init, hs⟩

/-- The copy of a set that is not tight overstates its room. -/
theorem cloneIpset_loose (src : Ipset) (fits : Capacity src) (loose : ¬ Tight src) (h : Heap)
    (ok : (cloneIpset src h).1.1 = true) : ¬ Capacity (cloneIpset src h).1.2 := by
  obtain ⟨some_, short⟩ : src.rangecount ≠ 0 ∧ src.rangecount ≠ src.maxranges := by
    simpa [Tight] using loose
  have full : ¬ sizeofIprange * src.rangecount = 0 := by simp [sizeofIprange, some_]
  have sane : ¬ src.rangecount > src.maxranges := not_lt.mpr fits.counted
  have outcome : cloneIpset src h =
      (if (allocate (sizeofIprange * src.rangecount) h).1 = true then
        pure (true, ⟨src.ranges, src.maxranges, src.rangecount⟩)
      else pure (false, initIpset) : Request (Bool × Ipset))
        (allocate (sizeofIprange * src.rangecount) h).2 := by
    rw [cloneIpset, if_neg sane, if_neg full]
    rfl
  rw [outcome] at ok ⊢
  split_ifs at ok ⊢ with served
  · exact fun c => absurd c.allocated (not_le.mpr (lt_of_le_of_ne fits.counted short))
  · cases ok

theorem rebuild_sound {op : Ipset → Iprange → Request (Bool × Ipset)}
    (keeps : ∀ i ir, Capacity i → Ensures Tame (op i ir) (fun r h => Sound r.2 h))
    (cur arg : Ipset) (tight : Tight cur) :
    Ensures Tame (rebuild op cur arg) (fun r h => (Capacity cur → Capacity r.2) ∧ Tame h) := by
  refine ensures_bind (cloneIpset_sound cur tight) fun ⟨ok, dup⟩ => ?_
  refine ensures_ite (fun _ => ?_) (fun _ => ensures_pure fun h hs => ⟨id, hs.2⟩)
  have each : ∀ ir ∈ arg.ranges, ∀ i,
      Ensures (Sound i) (op i ir) (fun q h => Sound q.2 h) :=
    fun ir _ i h hs => keeps i ir hs.1 h hs.2
  have loop := untilFailure_preserves arg.ranges each dup
  refine ensures_bind loop fun ⟨ok, dup'⟩ => ensures_pure fun h hs => ⟨fun fits => ?_, hs.2⟩
  cases ok with
  | false => exact fits
  | true => exact hs.1

section Changes
variable [Leftover Iprange]

theorem change_tame (c : Change) (i : Ipset) (fits : Capacity i) (tight : c.CopiesTight i) :
    Ensures Tame (c.run i) (fun _ => Tame) := by
  intro h tame
  cases c with
  | add ir => exact (addIprange_sound i ir fits h tame).2
  | del ir => exact (delIprange_sound i ir fits h tame).2
  | merge arg => exact (rebuild_sound addIprange_sound i arg tight h tame).2
  | purge arg => exact (rebuild_sound delIprange_sound i arg tight h tame).2

/-- From the empty set, a run of proper changes in which no set that has shrunk
is copied succeeds at every step and ends canonical, holding the addresses the
same run gives on plain sets, with no store outside its block. -/
theorem changes_hold (changes : List Change) (proper : ∀ c ∈ changes, c.Proper) (h : Heap)
    (served : Served h) (tame : Tame h)
    (tight : Along (fun i c _ => Change.CopiesTight i c) Change.run initIpset h changes) :
    let q := untilFailure Change.run initIpset changes h
    q.1.1 = true ∧ Canonical q.1.2.ranges ∧
      addresses q.1.2.ranges = changes.foldl Change.effect ∅ ∧ Tame q.2 := by
  have each : ∀ c ∈ changes, ∀ s i, Ensures (fun h => Change.CopiesTight i c ∧ Holds s i h ∧ Tame h)
      (c.run i) (fun q h => q.1 = true ∧ Holds (Change.effect s c) q.2 h ∧ Tame h) := by
    rintro c hc s i h ⟨tight, holds, tame⟩
    obtain ⟨ok, next⟩ := change_holds c (proper c hc) s i tight h holds
    exact ⟨ok, next, change_tame c i holds.2.2.1 tight h tame⟩
  obtain ⟨ok, ⟨canonical, denotes, -⟩, tame'⟩ := untilFailure_along changes each ∅ initIpset h
    ⟨holds_init h served, tame⟩ tight
  exact ⟨ok, canonical, denotes, tame'⟩

end Changes

section Bridged
open scoped Zeroed

/-- The first and the last address, a bridge between them, a split and a merge. -/
theorem changes_hold_bridge :
    let run := untilFailure Change.run initIpset
      [.add ⟨0, 0⟩, .add ⟨0xffffffff, 0xffffffff⟩, .add ⟨1, 0xfffffffe⟩, .del ⟨7, 9⟩,
        .merge ⟨[⟨8, 8⟩], 1, 1⟩] ⟨[], false⟩
    run.1.2.ranges = [⟨0, 6⟩, ⟨8, 8⟩, ⟨10, 0xffffffff⟩] ∧
      Canonical [⟨0, 6⟩, ⟨8, 8⟩, ⟨10, 0xffffffff⟩] ∧ Tame run.2 := by
  have run := changes_hold
    [.add ⟨0, 0⟩, .add ⟨0xffffffff, 0xffffffff⟩, .add ⟨1, 0xfffffffe⟩, .del ⟨7, 9⟩,
      .merge ⟨[⟨8, 8⟩], 1, 1⟩]
    (by simpa [Change.Proper] using (⟨by simp, by simp⟩ : Canonical [⟨8, 8⟩])) ⟨[], false⟩ rfl rfl
    (by decide)
  have ranges : (untilFailure Change.run initIpset
      [.add ⟨0, 0⟩, .add ⟨0xffffffff, 0xffffffff⟩, .add ⟨1, 0xfffffffe⟩, .del ⟨7, 9⟩,
        .merge ⟨[⟨8, 8⟩], 1, 1⟩] ⟨[], false⟩).1.2.ranges = [⟨0, 6⟩, ⟨8, 8⟩, ⟨10, 0xffffffff⟩] := by
    decide
  exact ⟨ranges, ranges ▸ run.2.1, run.2.2.2⟩

def shrunkenMerge : List Change :=
  [.add ⟨1, 1⟩, .add ⟨3, 3⟩, .add ⟨5, 5⟩, .del ⟨3, 3⟩, .merge ⟨[⟨7, 7⟩, ⟨9, 9⟩], 2, 2⟩]

/-- {1, 5} is left of {1, 3, 5}, and its copy has two cells. The 7 of {7, 9} is
stored past them, and lost when the copy is moved to make room for the 9. -/
theorem shrunken_merge_loses :
    let run := untilFailure Change.run initIpset shrunkenMerge ⟨[], false⟩
    (∀ c ∈ shrunkenMerge, c.Proper) ∧ run.1.1 = true ∧
      run.1.2.ranges = [⟨1, 1⟩, ⟨5, 5⟩, ⟨0, 0⟩, ⟨9, 9⟩] ∧ ¬ Canonical run.1.2.ranges ∧
        (7 : UInt32) ∉ addresses run.1.2.ranges ∧ ¬ Tame run.2 := by
  have ranges : (untilFailure Change.run initIpset shrunkenMerge ⟨[], false⟩).1.2.ranges =
      [⟨1, 1⟩, ⟨5, 5⟩, ⟨0, 0⟩, ⟨9, 9⟩] := by decide
  refine ⟨?_, by decide, ranges, fun canonical => ?_, ?_, by unfold Tame; decide⟩
  · simpa [shrunkenMerge, Change.Proper] using (⟨by simp, by simp⟩ : Canonical [⟨7, 7⟩, ⟨9, 9⟩])
  · rw [ranges] at canonical
    exact absurd canonical.apart (by decide)
  · rw [ranges]
    simp [addresses, Iprange.addresses]

end Bridged

inductive Call where
  | init (i : ℕ)
  | parse (i : ℕ) (text : Text)
  | merge (cur add : ℕ)
  | purge (cur del : ℕ)
  | clone (src dst : ℕ)
  | free (i : ℕ)

abbrev Pool := ℕ → Ipset

/-- The set a call copies, if any, can be copied faithfully. Merging into a set
and purging from it both start from a copy. -/
def Call.CopiesTight (pool : Pool) : Call → Prop
  | merge cur _ | purge cur _ => Tight (pool cur)
  | clone src _ => Tight (pool src)
  | _ => True

instance (pool : Pool) (c : Call) : Decidable (Call.CopiesTight pool c) :=
  match c with
  | .merge cur _ | .purge cur _ => inferInstanceAs (Decidable (Tight (pool cur)))
  | .clone src _ => inferInstanceAs (Decidable (Tight (pool src)))
  | .init _ | .parse _ _ | .free _ => .isTrue trivial

def PoolSound (pool : Pool) (h : Heap) : Prop := (∀ i, Capacity (pool i)) ∧ Tame h

theorem pool_update {pool : Pool} {h : Heap} (sound : ∀ i, Capacity (pool i)) (i : ℕ)
    {is : Ipset} (new : Sound is h) : PoolSound (Function.update pool i is) h := by
  refine ⟨fun j => ?_, new.2⟩
  rcases eq_or_ne j i with rfl | other
  · simpa using new.1
  · simpa [other] using sound j

section Runs
variable [Leftover Iprange] (inetPton : Text → Option UInt32)

theorem parseIprangesLoop_sound (buf : Text) (passes ret : ℕ) (is : Ipset) (fits : Capacity is) :
    Ensures Tame (parseIprangesLoop inetPton buf passes ret is) (fun r h => Sound r.2 h) := by
  induction passes generalizing ret is with
  | zero => exact ensures_pure fun h hs => ⟨fits, hs⟩
  | succ passes ih =>
    rw [parseIprangesLoop]
    cases parseIpv4range inetPton (buf.drop ret) with
    | none => exact ensures_pure fun h hs => ⟨fits, hs⟩
    | some found =>
      obtain ⟨r, ir⟩ := found
      refine ensures_bind (addIprange_sound is ir fits) fun ⟨ok, js⟩ => ensures_ite (fun _ => ?_)
        (fun _ => ensures_pure fun h hs => ⟨capacity_init, hs.2⟩)
      refine ensures_ite (fun _ h hs => ?_) (fun _ => ensures_pure fun h hs => hs)
      exact ih _ js hs.1 h hs.2

theorem addIprangeAll_tight (h : Heap) : Tight (addIprange initIpset iprangeAll h).1.2 := by
  obtain ⟨outcomes, wild⟩ := h
  match outcomes with
  | [] => exact .inr rfl
  | true :: _ => exact .inr rfl
  | false :: _ => exact .inl rfl

theorem addIprangeAll_sound : Ensures Tame (addIprange initIpset iprangeAll)
    (fun r h => Sound r.2 h ∧ Tight r.2) :=
  fun h hs => ⟨addIprange_sound initIpset iprangeAll capacity_init h hs, addIprangeAll_tight h⟩

theorem postparseIpset_sound (addr : Ipset) (invert : Bool) (fits : Capacity addr) :
    Ensures Tame (postparseIpset addr invert) (fun r h => Sound r.2 h) := by
  refine ensures_bind (?_ : Ensures Tame _ (fun (r : Bool × Ipset) h => Sound r.2 h))
    fun ⟨ok, is⟩ => ensures_pure fun h hs => hs
  refine ensures_ite (fun _ => ?_) (fun _ => ensures_pure fun h hs => ⟨fits, hs⟩)
  refine ensures_bind addIprangeAll_sound fun ⟨ok, tmp⟩ => ensures_ite (fun _ h hs => ?_)
    (fun _ => ensures_pure fun h hs => ⟨capacity_init, hs.1.2⟩)
  have purge := (rebuild_sound delIprange_sound tmp addr hs.2).mono (fun _ tame => tame)
    fun (r : Bool × Ipset) h (kept : _ ∧ _) => (⟨kept.1 hs.1.1, kept.2⟩ : Sound r.2 h)
  have swap : Ensures Tame (purgeIpsets tmp addr >>= fun r =>
      pure (r.1, if r.1 = true then r.2 else freeIpset addr)) (fun r h => Sound r.2 h) := by
    refine ensures_bind purge fun ⟨ok, tmp⟩ => ensures_pure fun h hs => ⟨?_, hs.2⟩
    cases ok with
    | false => exact capacity_init
    | true => exact hs.1
  exact swap h hs.1.2

theorem closeIpset_sound (start text : Text) (inbracket invert : Bool) (is : Ipset)
    (fits : Capacity is) :
    Ensures Tame (closeIpset start text inbracket invert is) (fun r h => Sound r.2 h) := by
  refine ensures_ite (fun _ => ensures_pure fun h hs => ⟨capacity_init, hs⟩) fun _ => ?_
  exact ensures_bind (postparseIpset_sound is invert fits) fun ⟨ok, is⟩ => ensures_pure fun h hs => hs

theorem parseIpset_sound (text : Text) :
    Ensures Tame (parseIpset inetPton text) (fun r h => Sound r.2 h) := by
  refine ensures_ite (fun _ => ?_) (fun _ => ?_)
  · refine ensures_bind (addIprange_sound _ _ capacity_init) fun ⟨ok, is⟩ =>
      ensures_ite (fun _ h hs => ?_) (fun _ => ensures_pure fun h hs => hs)
    exact closeIpset_sound _ _ _ _ is hs.1 h hs.2
  · refine ensures_bind (parseIprangesLoop_sound inetPton _ _ _ _ capacity_init) fun ⟨read, is⟩ => ?_
    cases read with
    | none => exact ensures_pure fun h hs => hs
    | some i => exact fun h hs => closeIpset_sound _ _ _ _ is hs.1 h hs.2

def Call.run (pool : Pool) : Call → Request (Bool × Pool)
  | init i => pure (true, Function.update pool i initIpset)
  | parse i text => do
    let (read, is) ← parseIpset inetPton text
    pure (read.isSome, Function.update pool i is)
  | merge cur add => do
    let (ok, is) ← mergeIpsets (pool cur) (pool add)
    pure (ok, Function.update pool cur is)
  | purge cur del => do
    let (ok, is) ← purgeIpsets (pool cur) (pool del)
    pure (ok, Function.update pool cur is)
  | clone src dst => do
    let (ok, is) ← cloneIpset (pool src)
    pure (ok, Function.update pool dst is)
  | free i => pure (true, Function.update pool i (freeIpset (pool i)))

theorem call_sound (c : Call) (pool : Pool) (tight : c.CopiesTight pool) :
    Ensures (PoolSound pool) (c.run inetPton pool) (fun q h => PoolSound q.2 h) := by
  rintro h ⟨sound, tame⟩
  cases c with
  | init i => exact pool_update sound i ⟨capacity_init, tame⟩
  | parse i text => exact pool_update sound i (parseIpset_sound inetPton text h tame)
  | merge cur add =>
    obtain ⟨fits, tame'⟩ := rebuild_sound addIprange_sound _ (pool add) tight h tame
    exact pool_update sound cur ⟨fits (sound cur), tame'⟩
  | purge cur del =>
    obtain ⟨fits, tame'⟩ := rebuild_sound delIprange_sound _ (pool del) tight h tame
    exact pool_update sound cur ⟨fits (sound cur), tame'⟩
  | clone src dst => exact pool_update sound dst (cloneIpset_sound _ tight h tame)
  | free i => exact pool_update sound i ⟨capacity_init, tame⟩

/-- Whatever requests fail, a run in which no call copies a set that has shrunk
leaves every set with its capacity and no store outside its block. -/
theorem tight_calls_sound (calls : List Call) (h : Heap) (tame : Tame h)
    (tight : Along (fun pool c _ => Call.CopiesTight pool c) (Call.run inetPton)
      (fun _ => initIpset) h calls) :
    (∀ i, Capacity ((runAll (Call.run inetPton) (fun _ => initIpset) calls h).1 i)) ∧
      Tame (runAll (Call.run inetPton) (fun _ => initIpset) calls h).2 := by
  have each : ∀ (c : Call) pool,
      Ensures (fun h => c.CopiesTight pool ∧ PoolSound pool h) (c.run inetPton pool)
        (fun q h => PoolSound q.2 h) :=
    fun c pool h now => call_sound inetPton c pool now.1 h now.2
  exact runAll_along each calls _ h ⟨fun _ => capacity_init, tame⟩ tight

end Runs

/-- `inet_pton` on addresses whose four numbers have one digit each. -/
def digitPton : Text → Option UInt32
  | [a, '.', b, '.', c, '.', d] =>
    let digit (x : Char) : UInt32 := (x.toNat - '0'.toNat).toUInt32
    some (digit a ||| (digit b <<< 8) ||| (digit c <<< 16) ||| (digit d <<< 24))
  | _ => none

section Overrun
open scoped Zeroed

def shrunkenClone : List Call :=
  [.parse 0 ['0', '.', '0', '.', '0', '.', '1', ',', '0', '.', '0', '.', '0', '.', '3', ',',
      '0', '.', '0', '.', '0', '.', '5'],
    .parse 1 ['0', '.', '0', '.', '0', '.', '3'], .purge 0 1, .clone 0 2]

/-- The clone of {1, 5}, left of {1, 3, 5}, has two cells and claims three; the
merge of {3} then writes a third. -/
theorem shrunken_clone_overruns :
    ¬ Capacity ((runAll (Call.run digitPton) (fun _ => initIpset) shrunkenClone ⟨[], false⟩).1 2) ∧
      ¬ Tame (runAll (Call.run digitPton) (fun _ => initIpset)
        (shrunkenClone ++ [.merge 2 1]) ⟨[], false⟩).2 :=
  ⟨fun fits => absurd fits.allocated (by decide +kernel), by
    unfold Tame
    decide +kernel⟩

theorem tight_calls_sound_copies :
    let calls : List Call :=
      [.parse 0 ['0', '.', '0', '.', '0', '.', '1', ',', '0', '.', '0', '.', '0', '.', '3'],
        .clone 0 1, .merge 1 0, .purge 1 0, .clone 1 0, .free 0]
    (∀ i, Capacity ((runAll (Call.run digitPton) (fun _ => initIpset) calls ⟨[], false⟩).1 i)) ∧
      Tame (runAll (Call.run digitPton) (fun _ => initIpset) calls ⟨[], false⟩).2 :=
  tight_calls_sound digitPton _ _ rfl (by decide +kernel)

end Overrun

end Libdank.IpSet
