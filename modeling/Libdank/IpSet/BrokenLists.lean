import Libdank.IpSet.Reading

/-! What a set is left with when it cannot be parsed. Every failure gives the
array back, but for one: a list that breaks off after a range has been added. -/
namespace Libdank.IpSet
open Requests Buffers Parse

def Bare (i : Ipset) : Prop := i.ranges = [] → i = initIpset

theorem bare_init : Bare initIpset := fun _ => rfl

theorem bare_of_ne_nil {i : Ipset} (some_ : i.ranges ≠ []) : Bare i := fun none_ => absurd none_ some_

theorem setRange_bare {i : Ipset} (bare : Bare i) (z : ℕ) (ir : Iprange) : Bare (i.setRange z ir) := by
  intro none_
  have empty : i.ranges = [] := by simpa using none_
  obtain rfl := bare empty
  rfl

theorem setRange_ne_nil {i : Ipset} (some_ : i.ranges ≠ []) (z : ℕ) (ir : Iprange) :
    (i.setRange z ir).ranges ≠ [] := by
  rw [setRange_ranges]
  exact fun none_ => some_ (by simpa using none_)

theorem removeIpset_ne_nil {i : Ipset} {z : ℕ} (inside : z < i.ranges.length) (count : ℕ) :
    (removeIpset i (z + 1) count).ranges ≠ [] := by
  rw [removeIpset_ranges]
  refine List.append_ne_nil_of_left_ne_nil ?_ _
  rw [List.take_succ_eq_append_getElem inside]
  exact List.append_ne_nil_of_right_ne_nil _ (List.cons_ne_nil _ _)

theorem ite_ranges_ne_nil {c : Prop} [Decidable c] {i j : Ipset} (yes : i.ranges ≠ [])
    (no : j.ranges ≠ []) : (if c then i else j).ranges ≠ [] := by
  split_ifs
  · exact yes
  · exact no

theorem removeIpset_bare (i : Ipset) (at_ count : ℕ) : Bare (removeIpset i at_ count) := by
  rw [removeIpset]
  split_ifs with none_
  · exact bare_init
  · exact bare_of_ne_nil fun h => none_ (List.length_eq_zero_iff.mpr h)

abbrev Whatever : Heap → Prop := fun _ => True

/-- A call that fails changes nothing, and one that succeeds leaves ranges. -/
def Adds (i : Ipset) (q : Bool × Ipset) (_ : Heap) : Prop :=
  (q.1 = false → q.2 = i) ∧ (q.1 = true → q.2.ranges ≠ [])

theorem cloneIpset_bare (src : Ipset) : Ensures Whatever (cloneIpset src) (fun q _ => Bare q.2) := by
  refine ensures_ite (fun _ => ensures_pure fun _ _ => bare_init) fun _ =>
    ensures_ite (fun _ => ensures_pure fun _ _ => bare_init) fun full => ?_
  refine ensures_bind (ensures_true _) fun ok => ensures_ite (fun _ => ensures_pure fun _ _ => ?_)
    fun _ => ensures_pure fun _ _ => bare_init
  refine bare_of_ne_nil fun none_ => full ?_
  rw [Ipset.rangecount, none_, List.length_nil, Nat.mul_zero]

section Operations
variable [Leftover Iprange]

theorem extendIpset_failed (i : Ipset) :
    Ensures Whatever (extendIpset i) (fun q _ => q.1 = false → q.2 = i) := by
  refine ensures_ite (fun _ => ?_) (fun _ => ensures_pure fun _ _ _ => rfl)
  exact ensures_bind (ensures_true _) fun ok => ensures_ite
    (fun _ => ensures_pure fun _ _ failed => Bool.noConfusion failed) fun _ => ensures_pure fun _ _ _ => rfl

theorem fill_adds (i : Ipset) (fill : List Iprange → List Iprange) (some_ : ∀ rs, fill rs ≠ []) :
    Ensures Whatever (do
        let (ok, i) ← extendIpset i
        if ok then
          store i.rangecount i.cells
          pure (true, { i with ranges := fill i.ranges })
        else pure (false, i)) (Adds i) := by
  refine ensures_bind (extendIpset_failed i) fun q => ?_
  obtain ⟨ok, j⟩ := q
  refine ensures_ite (fun _ => ?_) (fun refused => ensures_pure fun h hq => ?_)
  · exact ensures_bind (ensures_true _) fun _ => ensures_pure fun _ _ =>
      ⟨fun failed => Bool.noConfusion failed, fun _ => some_ _⟩
  · exact ⟨fun _ => hq (Bool.eq_false_iff.mpr refused), fun ok => Bool.noConfusion ok⟩

theorem addIprange_adds (i : Ipset) (merge : Iprange) : Ensures Whatever (addIprange i merge) (Adds i) := by
  unfold addIprange
  dsimp only
  cases here : i.ranges[skipRanges merge i.ranges]? with
  | none => exact fill_adds i (· ++ [merge]) (by simp)
  | some cur =>
    obtain ⟨inside, -⟩ := List.getElem?_eq_some_iff.mp here
    have some_ : i.ranges ≠ [] := List.ne_nil_of_length_pos (by omega)
    refine ensures_ite (fun _ => fill_adds i (fun rs => rs.take _ ++ merge :: rs.drop _) (by simp))
      fun _ => ensures_ite (fun _ => ensures_pure fun h _ => ⟨fun failed => Bool.noConfusion failed, ?_⟩)
        fun _ => ensures_pure fun h _ => ⟨fun failed => Bool.noConfusion failed, ?_⟩
    · intro _
      refine ite_ranges_ne_nil (removeIpset_ne_nil ?_ _) (setRange_ne_nil some_ _ _)
      rwa [setRange_ranges, List.length_set]
    · exact fun _ => setRange_ne_nil some_ _ _

theorem addIprange_bare {i : Ipset} (bare : Bare i) (merge : Iprange) :
    Ensures Whatever (addIprange i merge) (fun q _ => Bare q.2) := by
  refine (addIprange_adds i merge).mono (fun _ h => h) fun q h adds => ?_
  cases ok : q.1 with
  | false =>
    rw [adds.1 ok]
    exact bare
  | true => exact bare_of_ne_nil (adds.2 ok)

theorem delLoop_bare (cut : Iprange) {is : Ipset} (bare : Bare is) (z : ℕ) (rest : List Iprange) :
    Ensures Whatever (delLoop cut is z rest) (fun q _ => Bare q.2) := by
  induction rest generalizing is z with
  | nil => exact ensures_pure fun _ _ => bare
  | cons cur rest ih =>
    rw [delLoop]
    refine ensures_ite (fun _ => ih bare _) fun _ => ensures_ite (fun _ => ensures_ite
      (fun _ => ?_) (fun _ => ?_)) (fun _ => ensures_ite (fun _ => ?_) (fun _ => ?_))
    · exact ensures_pure fun _ _ => setRange_bare bare _ _
    · exact ih (removeIpset_bare _ _ _) _
    · exact ih (setRange_bare bare _ _) _
    · refine ensures_bind (fill_adds is (fun rs => rs.take z ++ _ :: rs.drop z) (by simp)) fun q => ?_
      obtain ⟨ok, js⟩ := q
      refine ensures_pure fun h adds => ?_
      cases ok with
      | false =>
        obtain rfl : js = is := adds.1 rfl
        exact bare
      | true => exact setRange_bare (bare_of_ne_nil (adds.2 rfl)) _ _

theorem purgeIpsets_bare {cur : Ipset} (bare : Bare cur) (arg : Ipset) :
    Ensures Whatever (purgeIpsets cur arg) (fun q _ => Bare q.2) := by
  refine ensures_bind (cloneIpset_bare cur) fun q => ?_
  obtain ⟨ok, dup⟩ := q
  refine ensures_ite (fun _ => ?_) (fun _ => ensures_pure fun _ _ => bare)
  have each : ∀ ir ∈ arg.ranges, ∀ i, Ensures (fun _ => Bare i) (delIprange i ir) (fun q _ => Bare q.2) :=
    fun ir _ i h bare => delLoop_bare ir bare 0 i.ranges h trivial
  refine ensures_bind (untilFailure_preserves arg.ranges each dup) fun q => ?_
  obtain ⟨ok, dup'⟩ := q
  refine ensures_pure fun h bare' => ?_
  cases ok with
  | false => exact bare
  | true => exact bare'

theorem cutFromAll_leaves (is : Ipset) :
    Ensures Whatever (cutFromAll is) (fun q _ => (q.1 = false → q.2 = initIpset) ∧ Bare q.2) := by
  refine ensures_bind (addIprange_bare bare_init iprangeAll) fun q =>
    ensures_ite (fun _ h bare => ?_) (fun _ => ensures_pure fun _ _ => ⟨fun _ => rfl, bare_init⟩)
  have kept : Ensures Whatever
      (purgeIpsets q.2 is >>= fun r => pure (r.1, if r.1 then r.2 else freeIpset is))
      (fun q _ => (q.1 = false → q.2 = initIpset) ∧ Bare q.2) := by
    refine ensures_bind (purgeIpsets_bare bare is) fun r => ensures_pure fun h bare' => ?_
    cases ok : r.1 with
    | false => exact ⟨fun _ => rfl, bare_init⟩
    | true => exact ⟨fun failed => Bool.noConfusion failed, bare'⟩
  exact kept h trivial

theorem closeIpset_leaves (start text : Text) (inbracket invert : Bool) {is : Ipset} (bare : Bare is) :
    Ensures Whatever (closeIpset start text inbracket invert is) (fun q _ => q.1 = none → q.2 = initIpset) := by
  rw [closeIpset_eq, postparseIpset_eq]
  refine ensures_ite (fun _ => ensures_pure fun _ _ _ => rfl) fun _ => ?_
  have settled : Ensures Whatever (if invert then cutFromAll is else pure (true, is))
      (fun q _ => (q.1 = false → q.2 = initIpset) ∧ Bare q.2) :=
    ensures_ite (fun _ => cutFromAll_leaves is) fun _ => ensures_pure fun _ _ =>
      ⟨fun failed => Bool.noConfusion failed, bare⟩
  rw [bind_assoc]
  refine ensures_bind settled fun q h hq => ?_
  obtain ⟨failed, bare'⟩ := hq
  rw [bind_apply, pure_apply, pure_apply]
  intro refused
  dsimp only at refused ⊢
  cases ok : q.1 with
  | false => exact failed ok
  | true =>
    refine bare' (List.length_eq_zero_iff.mp ?_)
    by_contra some_
    simp [ok, Ipset.rangecount, some_] at refused

end Operations

section Texts

variable [Leftover Iprange] (inetPton : Text → Option UInt32)

/-- A range is missing in the list after at least one that is there, and memory
has not run out before that. -/
structure BrokenOff (list : Text) (h : Heap) : Prop where
  plain : ¬ startsWithKeyword ['a', 'n', 'y'] list = true
  begun : (rangesRead inetPton list 0).1 ≠ []
  missing : (rangesRead inetPton list 0).2 = none
  added : (untilFailure addIprange initIpset (rangesRead inetPton list 0).1 h).1.1 = true

variable {inetPton}

theorem addAll_fills (is : Ipset) {irs : List Iprange} (begun : irs ≠ []) :
    Ensures Whatever (untilFailure addIprange is irs) (fun q _ => q.1 = true → q.2.ranges ≠ []) := by
  obtain ⟨ir, rest, rfl⟩ := List.exists_cons_of_ne_nil begun
  refine ensures_bind (addIprange_adds is ir) fun q => ?_
  obtain ⟨ok, js⟩ := q
  refine ensures_ite (fun ok h adds => ?_) (fun failed => ensures_pure fun h adds ok => Bool.noConfusion ok)
  have each : ∀ ir ∈ rest, ∀ i, Ensures (fun _ => i.ranges ≠ []) (addIprange i ir)
      (fun q _ => q.2.ranges ≠ []) := by
    intro ir _ i h some_
    obtain ⟨same, fills⟩ := addIprange_adds i ir h trivial
    cases ok : (addIprange i ir h).1.1 with
    | false => rwa [same ok]
    | true => exact fills ok
  exact fun _ => untilFailure_preserves rest each js h (adds.2 ok)

theorem addAll_bare (irs : List Iprange) :
    Ensures Whatever (untilFailure addIprange initIpset irs) (fun q _ => Bare q.2) := by
  have each : ∀ ir ∈ irs, ∀ i, Ensures (fun _ => Bare i) (addIprange i ir) (fun q _ => Bare q.2) :=
    fun ir _ i h bare => addIprange_bare bare ir h trivial
  exact fun h _ => untilFailure_preserves irs each initIpset h bare_init

theorem afterList_leaves (start body : Text) (inbracket invert : Bool) {read : Option ℕ × Ipset}
    (bare : Bare read.2) (left : read.1 = none → read.2 = initIpset) :
    Ensures Whatever (afterList start body inbracket invert read) (fun q _ => q.1 = none → q.2 = initIpset) := by
  obtain ⟨_ | i, is⟩ := read
  · exact ensures_pure fun _ _ _ => left rfl
  · exact closeIpset_leaves start (body.drop i) inbracket invert bare

theorem readIpranges_keyword {text : Text} (keyword : startsWithKeyword ['a', 'n', 'y'] text = true) (h : Heap) :
    ((readIpranges inetPton text h).1.1 = none → (readIpranges inetPton text h).1.2 = initIpset) ∧
      Bare (readIpranges inetPton text h).1.2 := by
  rw [readIpranges, if_pos keyword]
  refine ⟨fun refused => (addIprange_adds initIpset iprangeAll h trivial).1 ?_,
    addIprange_bare bare_init iprangeAll h trivial⟩
  rw [bind_apply, pure_apply] at refused
  exact Bool.eq_false_iff.mpr fun ok => by simp [ok] at refused

theorem readIpranges_list {text : Text} (list : ¬ startsWithKeyword ['a', 'n', 'y'] text = true) (h : Heap) :
    (readIpranges inetPton text h).1 =
      if (untilFailure addIprange initIpset (rangesRead inetPton text 0).1 h).1.1 = true then
        ((rangesRead inetPton text 0).2,
          (untilFailure addIprange initIpset (rangesRead inetPton text 0).1 h).1.2)
      else (none, initIpset) := by
  rw [readIpranges, if_neg list, parseIpranges_eq]
  rfl

end Texts

open scoped Zeroed

end Libdank.IpSet
