import Libdank.SlabAllocator.Traversal

/-! The allocator as its user sees it: a stock of objects that `slalloc_new`
adds to and `slalloc_free` takes from, and that a walk goes through. The blocks
are mapped at `place 0`, `place 1` and so on. What an object holds is blank from
the mapping of its block to its first user, and again from one user to the next. -/
namespace Libdank.SlabAllocator
open Requests Buffers

variable {w : ℕ} {place : ℕ → ℕ+} {s : Slalloc w} {objs : List ℕ}

def Layout.Apart (l : Layout w) (place : ℕ → ℕ+) : Prop :=
  ∀ b c, b ≠ c → Disjoint (l.region (place b)) (l.region (place c))

/-- `objs` have been handed out and not been given back. -/
def Stocked (place : ℕ → ℕ+) (s : Slalloc w) (objs : List ℕ) : Prop :=
  ∃ l v live, Represents l v s ∧ Owned l v live ∧ objs.Perm (live.map Grant.obj) ∧
    l.Apart place ∧ ∀ b < v.count, v.base b = place b

theorem stocked_start {l : Layout w} (apart : l.Apart place) (bytes : Bytes) :
    Stocked place (.start l bytes) [] := by
  obtain ⟨l', v, rep, owned, -⟩ := @start_kept w l bytes ⟨[], false⟩ rfl
  obtain rfl : l = l' := rep.layout
  refine ⟨l, v, [], rep, owned, .refl _, apart, fun b hb => ?_⟩
  have none : v.count = 0 := rep.count.symm
  omega

theorem Stocked.perm {objs' : List ℕ} (stocked : Stocked place s objs)
    (same : objs'.Perm objs) : Stocked place s objs' := by
  obtain ⟨l, v, live, rep, owned, perm, rest⟩ := stocked
  exact ⟨l, v, live, rep, owned, same.trans perm, rest⟩

theorem Stocked.visited_perm (stocked : Stocked place s objs) :
    s.visited.Perm objs ∧ objs.Nodup := by
  obtain ⟨l, v, live, rep, owned, perm, -⟩ := stocked
  obtain ⟨walk, once⟩ := SlabAllocator.visited_perm owned
  rw [visited_eq rep]
  have same := walk.trans perm.symm
  exact ⟨same, same.nodup_iff.mp once⟩

theorem Stocked.nodup (stocked : Stocked place s objs) : objs.Nodup := stocked.visited_perm.2

theorem Slabs.new_base {l : Layout w} {v : Slabs} (placed : ∀ b < v.count, v.base b = place b)
    (h : Heap) (b : ℕ) (hb : b < (v.new l (place v.count) h).1.2.count) :
    (v.new l (place v.count) h).1.2.base b = place b := by
  cases head : v.nonfull with
  | cons c rest =>
    rw [Slabs.new, head] at hb ⊢
    exact placed b hb
  | nil =>
    rw [Slabs.new_nil head] at hb ⊢
    cases ok : (acquire l v.count h).1 with
    | false =>
      rw [ok] at hb
      exact placed b hb
    | true =>
      rw [ok] at hb
      change Function.update v.base v.count (place v.count) b = place b
      by_cases new : b = v.count
      · rw [new, Function.update_self]
      · rw [Function.update_of_ne new]
        exact placed b (Nat.lt_of_le_of_ne (Nat.le_of_lt_succ hb) new)

theorem Stocked.new [Leftover ℕ] (stocked : Stocked place s objs) {h : Heap} (granted : ¬ PagesRefused s h) :
    let r := (slallocNew (place s.blockcount) s h).1
    Stocked place r.2 (r.1.toList ++ objs) := by
  obtain ⟨l, v, live, rep, owned, perm, apart, placed⟩ := stocked
  rw [rep.count]
  obtain ⟨s', run, rep'⟩ := slallocNew_eq rep owned.sound (place v.count) h granted
  have fresh : v.nonfull = [] →
      ∀ b < v.count, Disjoint (l.region (v.base b)) (l.region (place v.count)) := fun _ b hb => by
    rw [placed b hb]
    exact apart b v.count hb.ne
  have placed' := Slabs.new_base (l := l) placed h
  rw [run]
  rcases new_cases owned.sound fresh h with refused | ⟨p, v', result, gives⟩
  · rw [refused] at rep' ⊢
    exact ⟨l, v, live, rep', owned, perm, apart, placed⟩
  · rw [result] at rep' placed' ⊢
    exact ⟨l, v', _, rep', owned.new gives, perm.cons _, apart, placed'⟩

theorem Stocked.free (stocked : Stocked place s objs) {obj : ℕ} (mem : obj ∈ objs) (h : Heap) :
    Stocked place (slallocFree s obj h).1 (objs.erase obj) := by
  have once := stocked.nodup
  obtain ⟨l, v, live, rep, owned, perm, apart, placed⟩ := stocked
  obtain ⟨g, hg, rfl⟩ := List.mem_map.mp (perm.mem_iff.mp mem)
  obtain ⟨p, used, rfl⟩ := owned.of_mem hg
  obtain ⟨s', run, rep'⟩ := slallocFree_eq rep owned.sound used h
  rw [Slabs.granted, run]
  refine ⟨l, v.release l p, _, rep', owned.free used, ?_, apart, placed⟩
  rw [once.erase_eq_filter]
  refine (perm.filter _).trans (.of_eq ?_)
  rw [List.filter_map]
  refine congrArg _ (List.filter_congr fun g' _ => ?_)
  rw [Function.comp_apply, bne, beq_eq_decide, ← decide_not]

theorem Owned.mem_objs {l : Layout w} {v : Slabs} {live : List Grant} (owned : Owned l v live)
    (perm : objs.Perm (live.map Grant.obj)) {a : ℕ} :
    a ∈ objs ↔ ∃ p, v.Uses p ∧ v.address l p = a := by
  obtain ⟨ps, rfl, -, all⟩ := owned.places
  simp [perm.mem_iff, Slabs.granted, all]

def Slalloc.Lies (s : Slalloc w) (a : ℕ) : Prop :=
  ∃ b < s.blockcount, ∃ i < s.layout.objsperblock, s.object b i = a

section Blank
variable {β : Type} {blank : β} {held : ℕ → β} {l : Layout w} {v : Slabs}

def blanked (blank : β) (start len : ℕ) (held : ℕ → β) : ℕ → β :=
  fun a => if start ≤ a ∧ a < start + len then blank else held a

def Slabs.Blank (l : Layout w) (v : Slabs) (blank : β) (held : ℕ → β) : Prop :=
  ∀ p, v.Exists l p → ¬ v.Uses p → held (v.address l p) = blank

theorem Slabs.Blank.grant (clean : v.Blank l blank held) {b : ℕ} {rest : List ℕ} (hb : b < v.count) :
    (v.grant l b rest).Blank l blank held := fun p here unused =>
  clean p here fun uses => unused ((Slabs.uses_grant hb).mpr (.inr uses))

theorem Slabs.Blank.grow (clean : v.Blank l blank held) (base : ℕ+) :
    (v.grow l base).Blank l blank (blanked blank base l.blockBytes held) := by
  intro p here unused
  rw [blanked]
  split_ifs with inside
  · rfl
  · by_cases new : p.1 = v.count
    · have start : (v.grow l base).address l p = base + l.offset p.2 := by
        simp [Slabs.address, Slabs.grow, new]
      rw [start] at inside
      exact absurd (l.extent_subset_region here.2 (l.start_mem_extent _)) inside
    · have old : p.1 < v.count := Nat.lt_of_le_of_ne (Nat.le_of_lt_succ here.1) new
      rw [Slabs.address_grow old]
      exact clean p ⟨old, here.2⟩ fun uses => unused (Slabs.uses_grow.mpr uses)

theorem Slabs.Blank.new (clean : v.Blank l blank held) (sound : Sound l v) {base : ℕ+} {h : Heap}
    (fresh : v.nonfull = [] → ∀ b < v.count, Disjoint (l.region (v.base b)) (l.region base))
    {p : Place} {v' : Slabs} (given : (v.new l base h).1 = (some p, v')) {held' : ℕ → β}
    (after : held' = if v'.count = v.count then held else blanked blank base l.blockBytes held) :
    v'.Blank l blank held' ∧ held' (v'.address l p) = blank ∧
      ∀ q, v.Uses q → held' (v.address l q) = held (v.address l q) := by
  cases head : v.nonfull with
  | cons b rest =>
    rw [Slabs.new, head] at given
    cases given
    obtain ⟨here, unused⟩ := sound.exists_next head
    have same : (v.grant l b rest).count = v.count := rfl
    rw [if_pos same] at after
    rw [after]
    exact ⟨clean.grant here.1, clean _ here unused, fun _ _ => rfl⟩
  | nil =>
    rw [Slabs.new_nil head] at given
    cases ok : (acquire l v.count h).1 with
    | false =>
      rw [ok] at given
      cases given
    | true =>
      rw [ok] at given
      cases given
      have larger : ((v.grow l base).grant l v.count []).count ≠ v.count := Nat.succ_ne_self _
      rw [if_neg larger] at after
      rw [after]
      have grown := clean.grow base
      have here : (v.grow l base).Exists l (v.count, 0) := ⟨Nat.lt_succ_self _, l.objsperblock_pos⟩
      refine ⟨grown.grant here.1, grown _ here fun uses => ?_, fun q uses => if_neg fun inside => ?_⟩
      · have old := Slabs.uses_grow.mp uses
        exact absurd old.1 (lt_irrefl _)
      · have mine := l.extent_subset_region (sound.within q uses).2 (l.start_mem_extent (v.address l q))
        exact Set.disjoint_left.mp (fresh head q.1 uses.1) mine inside

/-- The objects in stock are `objs`, and what is in none of them is blank. -/
structure CleanStock (blank : β) (place : ℕ → ℕ+) (s : Slalloc w) (objs : List ℕ) (held : ℕ → β) :
    Prop where
  stocked : Stocked place s objs
  vacant : ∀ a, s.Lies a → a ∉ objs → held a = blank

theorem lies_iff (rep : Represents l v s) {a : ℕ} :
    s.Lies a ↔ ∃ p, v.Exists l p ∧ v.address l p = a := by
  rw [Slalloc.Lies, rep.count, rep.layout]
  constructor
  · rintro ⟨b, hb, i, hi, rfl⟩
    exact ⟨(b, i), ⟨hb, hi⟩, (@Represents.object_eq _ _ _ _ rep (b, i) hb).symm⟩
  · rintro ⟨p, ⟨hb, hi⟩, rfl⟩
    exact ⟨p.1, hb, p.2, hi, rep.object_eq hb⟩

theorem vacant_iff (rep : Represents l v s) {live : List Grant} (owned : Owned l v live)
    (perm : objs.Perm (live.map Grant.obj)) :
    (∀ a, s.Lies a → a ∉ objs → held a = blank) ↔ v.Blank l blank held := by
  constructor
  · intro vacant p here unused
    refine vacant _ ((lies_iff rep).mpr ⟨p, here, rfl⟩) fun mem => ?_
    obtain ⟨q, uses, same⟩ := (owned.mem_objs perm).mp mem
    have ne : q ≠ p := fun eq => unused (eq ▸ uses)
    have apart := owned.sound.places_disjoint (owned.sound.within q uses) here ne
    rw [same] at apart
    exact Set.disjoint_left.mp apart (l.start_mem_extent _) (l.start_mem_extent _)
  · intro clean a lies new
    obtain ⟨p, here, rfl⟩ := (lies_iff rep).mp lies
    exact clean p here fun uses => new ((owned.mem_objs perm).mpr ⟨p, uses, rfl⟩)

namespace CleanStock

theorem nodup (clean : CleanStock blank place s objs held) : objs.Nodup := clean.stocked.nodup

theorem perm {objs' : List ℕ} (clean : CleanStock blank place s objs held) (same : objs'.Perm objs) :
    CleanStock blank place s objs' held where
  stocked := clean.stocked.perm same
  vacant a lies new := clean.vacant a lies (mt same.mem_iff.mpr new)

theorem write (clean : CleanStock blank place s objs held) {a : ℕ} (mem : a ∈ objs) (x : β) :
    CleanStock blank place s objs (Function.update held a x) where
  stocked := clean.stocked
  vacant b lies new := by
    rw [Function.update_of_ne (ne_of_mem_of_not_mem mem new).symm]
    exact clean.vacant b lies new

theorem free (clean : CleanStock blank place s objs held) {obj : ℕ} (mem : obj ∈ objs) (h : Heap) :
    CleanStock blank place (slallocFree s obj h).1 (objs.erase obj)
      (Function.update held obj blank) := by
  have stocked' := clean.stocked.free mem h
  refine ⟨stocked', fun a lies new => ?_⟩
  rw [Function.update_apply]
  split_ifs with same
  · rfl
  · have old : a ∉ objs := fun inside => new ((List.mem_erase_of_ne same).mpr inside)
    refine clean.vacant a ?_ old
    obtain ⟨l, v, live, rep, owned, perm, -⟩ := clean.stocked
    obtain ⟨g, hg, rfl⟩ := List.mem_map.mp (perm.mem_iff.mp mem)
    obtain ⟨p, used, rfl⟩ := owned.of_mem hg
    obtain ⟨s', run, rep'⟩ := slallocFree_eq rep owned.sound used h
    rw [Slabs.granted, run] at lies
    exact (lies_iff rep).mpr ((lies_iff rep').mp lies)

theorem new [Leftover ℕ] (clean : CleanStock blank place s objs held) {h : Heap}
    (granted : ¬ PagesRefused s h) {r : Pointer ℕ × Slalloc w}
    (run : (slallocNew (place s.blockcount) s h).1 = r) {held' : ℕ → β}
    (after : held' = if r.2.blockcount = s.blockcount then held
      else blanked blank (place s.blockcount) s.blockBytes held) :
    CleanStock blank place r.2 (r.1.toList ++ objs) held' ∧ (∀ a ∈ objs, held' a = held a) ∧
      ∀ a ∈ r.1, held' a = blank := by
  have stocked' := clean.stocked.new granted
  rw [run] at stocked'
  obtain ⟨l, v, live, rep, owned, perm, apart, placed⟩ := clean.stocked
  have empty := (vacant_iff rep owned perm).mp clean.vacant
  have size : s.blockBytes = l.blockBytes := by
    rw [Slalloc.blockBytes, rep.layout]
    rfl
  obtain ⟨s', result, rep'⟩ := slallocNew_eq rep owned.sound (place s.blockcount) h granted
  have fresh : v.nonfull = [] → ∀ b < v.count,
      Disjoint (l.region (v.base b)) (l.region (place s.blockcount)) := fun _ b hb => by
    rw [placed b hb, rep.count]
    exact apart b v.count hb.ne
  rw [result] at run
  subst run
  rcases new_cases owned.sound fresh h with refused | ⟨p, v', given, gives⟩
  · rw [refused] at rep' stocked' after ⊢
    rw [if_pos (rep'.count.trans rep.count.symm)] at after
    rw [after]
    exact ⟨⟨stocked', (vacant_iff rep' owned perm).mpr empty⟩, fun _ _ => rfl, by simp⟩
  · rw [given] at rep' stocked' after ⊢
    rw [rep'.count, rep.count, size] at after
    obtain ⟨clean', blank', kept⟩ := empty.new owned.sound (rep.count ▸ fresh) (rep.count ▸ given) after
    refine ⟨⟨stocked', (vacant_iff rep' (owned.new gives) (perm.cons _)).mpr clean'⟩, fun a mem => ?_, ?_⟩
    · obtain ⟨q, uses, rfl⟩ := (owned.mem_objs perm).mp mem
      exact kept q uses
    · rintro a ⟨⟩
      exact blank'

end CleanStock

end Blank

end Libdank.SlabAllocator
