import Libdank.SlabAllocator.Sessions

/-! What holds of the objects and the usemaps after any run of successful
calls on an allocator of any object size up to a page. -/
namespace Libdank.SlabAllocator
open Requests Buffers Bitmap

variable {w : ℕ} {l : Layout w} {v : Slabs}

structure Accounted [Leftover ℕ] (u : Session w) : Prop where
  apart : u.live.Pairwise fun g g' =>
    Disjoint (u.slalloc.layout.extent g.obj) (u.slalloc.layout.extent g'.obj)
  inside : ∀ g ∈ u.live, ∃ b < u.slalloc.blockcount,
    u.slalloc.layout.extent g.obj ⊆ u.slalloc.layout.region (u.slalloc.pgarray.getD b 0)
  counted : ∀ b < u.slalloc.blockcount, (u.slalloc.pgdata b).unallocated =
    ((Finset.range u.slalloc.layout.objsperblock).filter fun i =>
      bit (u.slalloc.pgdata b).usemap i = false).card
  nonfull : ∃ bs, u.slalloc.Nonfull bs ∧ bs.Nodup ∧
    ∀ b, b ∈ bs ↔ b < u.slalloc.blockcount ∧ 0 < (u.slalloc.pgdata b).unallocated
  given : ∀ base h obj s', (Call.new base).Legal u →
    (slallocNew base u.slalloc h).1 = (some obj, s') →
    (∀ a ∈ s'.layout.extent obj, s'.bytes a = 0) ∧
      (∀ g ∈ u.live, Disjoint (s'.layout.extent g.obj) (s'.layout.extent obj)) ∧
      ∃ p ∉ u.slalloc.marks, s'.marks = insert p u.slalloc.marks
  freed : ∀ g ∈ u.live, ∃ p ∈ u.slalloc.marks, g.bits = {p} ∧
    ∀ h, (slallocFree u.slalloc g.obj h).1.marks = u.slalloc.marks.erase p

theorem unallocated_eq {pd : Pgdata w} {used : Finset ℕ} (tracks : pd.Tracks l used)
    (within : used ⊆ Finset.range l.objsperblock) : pd.unallocated =
      ((Finset.range l.objsperblock).filter fun i => bit pd.usemap i = false).card := by
  have clear : ((Finset.range l.objsperblock).filter fun i => bit pd.usemap i = false) =
      Finset.range l.objsperblock \ used := by
    ext i
    rw [Finset.mem_filter, Finset.mem_sdiff, ← tracks.marks, mem_marked, Bool.not_eq_true]
  have count := tracks.unallocated
  rw [clear, Finset.card_sdiff_of_subset within, Finset.card_range]
  omega

theorem owned_accounted [Leftover ℕ] {u : Session w} (rep : Represents l v u.slalloc)
    (owned : Owned l v u.live) : Accounted u where
  apart := by
    rw [rep.layout]
    obtain ⟨ps, live, once, all⟩ := owned.places
    rw [live, List.pairwise_map]
    refine once.imp_of_mem fun hp hq ne => ?_
    exact owned.sound.places_disjoint (owned.sound.within _ ((all _).mp hp))
      (owned.sound.within _ ((all _).mp hq)) ne
  inside g mem := by
    obtain ⟨p, used, rfl⟩ := owned.of_mem mem
    obtain ⟨hb, fits⟩ := owned.sound.within p used
    refine ⟨p.1, rep.count ▸ hb, ?_⟩
    rw [rep.layout, List.getD_eq_getElem?_getD, rep.pages _ hb, Option.getD_some]
    exact l.extent_subset_region fits
  counted b hb := by
    rw [rep.count] at hb
    obtain ⟨pd, cell, tracks⟩ := rep.maps b hb
    rw [pgdata_eq cell, rep.layout]
    exact unallocated_eq tracks fun i used =>
      Finset.mem_range.mpr (owned.sound.within (b, i) ⟨hb, used⟩).2
  nonfull := by
    refine ⟨v.nonfull, rep.nonfull, owned.sound.once, fun b => ?_⟩
    rw [owned.sound.listed, rep.count]
    refine and_congr_right fun hb => ?_
    obtain ⟨pd, cell, tracks⟩ := rep.maps b hb
    have count := tracks.unallocated
    rw [pgdata_eq cell]
    omega
  given base h obj s' legal success := by
    have small : u.slalloc.blockcount < 2 ^ 32 := rep.count ▸ rep.small
    have granted : ¬ PagesRefused u.slalloc h := fun refused => by
      rw [slallocNew_refused refused small] at success
      cases success
    obtain ⟨s₁, run, rep₁⟩ := slallocNew_eq rep owned.sound base h granted
    rcases new_cases owned.sound
      (fun empty => (fresh_iff rep base).mp (legal (rep.head_none_iff.mpr empty))) h with
      refused | ⟨p, v', result, gives⟩
    · rw [run, refused] at success
      cases success
    · rw [result] at run rep₁
      rw [run] at success
      cases success
      refine ⟨?_, fun g mem => ?_, p, ?_, ?_⟩
      · rw [rep₁.layout, rep₁.bytes]
        exact gives.zeroed
      · obtain ⟨q, used, rfl⟩ := owned.of_mem mem
        have ne : q ≠ p := fun same => gives.unused (same ▸ used)
        have old := gives.sound.within q ((gives.uses q).mpr (.inr used))
        have new := gives.sound.within p ((gives.uses p).mpr (.inl rfl))
        rw [rep₁.layout, Slabs.granted, ← gives.address q used]
        exact gives.sound.places_disjoint old new ne
      · exact fun mem => gives.unused ((mem_marks rep).mp mem)
      · ext q
        rw [mem_marks rep₁, gives.uses, Finset.mem_insert, mem_marks rep]
  freed g mem := by
    obtain ⟨p, used, rfl⟩ := owned.of_mem mem
    refine ⟨p, (mem_marks rep).mpr used, rfl, fun h => ?_⟩
    obtain ⟨s', run, rep'⟩ := slallocFree_eq rep owned.sound used h
    rw [Slabs.granted, run]
    ext q
    rw [mem_marks rep', Slabs.uses_release, Finset.mem_erase, mem_marks rep, and_comm]

def Slalloc.start (l : Layout w) (bytes : Bytes) : Slalloc w := ⟨l, 0, [], [], 0, none, bytes⟩

theorem createSlalloc_eq (word : 32 ≤ w ∧ w ≤ 64) (pgsiz : Int32) (bytes : Bytes) {objsize : ℕ}
    (nonempty : 0 < objsize) (fits : objsize ≤ pgsiz.toInt.toNat) {h : Heap}
    (served : h.answer 0 = true) :
    ∃ l : Layout w, l.objsize = objsize ∧
      (createSlalloc word pgsiz bytes objsize h).1 = some (.start l bytes) := by
  have int : pgsiz.toInt.toNat < 2 ^ 31 := by
    have := pgsiz.toInt_lt
    omega
  refine ⟨⟨objsize, pgsiz.toInt.toNat, word, nonempty, fits, int⟩, rfl, ?_⟩
  rw [createSlalloc, dif_neg nonempty.ne', if_pos (by omega), dif_pos fits, bind_apply,
    allocate_eq (by decide), served]
  rfl

theorem createSlalloc_start {word : 32 ≤ w ∧ w ≤ 64} {pgsiz : Int32} {bytes : Bytes}
    {objsize : ℕ} {h : Heap} {s : Slalloc w}
    (created : (createSlalloc word pgsiz bytes objsize h).1 = some s) :
    ∃ l : Layout w, s = .start l bytes := by
  unfold createSlalloc at created
  split_ifs at created with empty some_ fits
  · cases created
  · rw [bind_apply] at created
    cases ok : (allocate 56 h).1 with
    | false =>
      rw [ok] at created
      cases created
    | true =>
      rw [ok] at created
      cases created
      exact ⟨_, rfl⟩
  · cases created
  · cases created

/-- The allocator stands for some slabs, and the live objects are theirs. -/
def Kept (u : Session w) (h : Heap) : Prop :=
  ∃ l v, Represents l v u.slalloc ∧ Owned l v u.live ∧ Tame h

theorem start_kept (l : Layout w) (bytes : Bytes) {h : Heap} (tame : Tame h) :
    Kept ⟨.start l bytes, [], []⟩ h := by
  refine ⟨l, ⟨0, fun _ => 1, fun _ => ∅, [], bytes⟩, ?_, ⟨sound_empty _ _ _, [], rfl,
    List.nodup_nil, by simp [Slabs.Uses]⟩, tame⟩
  exact ⟨rfl, rfl, rfl, Nat.two_pow_pos 32, by simp, by simp, rfl⟩

section Runs
variable [Leftover ℕ]

theorem call_kept (c : Call) (u : Session w) :
    Ensures (fun h => (c.Legal u ∧ c.Granted u h) ∧ Kept u h) (c.run u)
      (fun q h => Kept q.2 h) := by
  obtain ⟨s, live, log⟩ := u
  rintro h ⟨⟨legal, granted⟩, l, v, rep, owned, tame⟩
  obtain ⟨v', live', ok, out, h', owned', tame', same⟩ := call_steps c rep owned legal h granted
  obtain ⟨s', run, rep'⟩ := same s log rep
  rw [run]
  exact ⟨l, v', rep', owned', tame' tame⟩

theorem granted_of_success {c : Call} {u : Session w} {h : Heap} (kept : Kept u h)
    (success : (c.run u h).1.1 = true) : c.Granted u h := by
  obtain ⟨l, v, rep, -⟩ := kept
  cases c with
  | new base =>
    intro refused
    have run : ((Call.new base).run u h).1.1 = (slallocNew base u.slalloc h).1.1.isSome := rfl
    rw [run, slallocNew_refused refused (rep.count ▸ rep.small)] at success
    cases success
  | free obj => trivial
  | write a byte => trivial
  | foreach stop => trivial

theorem successful_calls_kept (l : Layout w) (bytes : Bytes) (calls : List Call) (h : Heap)
    (tame : Tame h)
    (along : Along (fun u c h => c.Legal u ∧ (c.run u h).1.1 = true) Call.run
      ⟨.start l bytes, [], []⟩ h calls) :
    Kept (runAll Call.run ⟨.start l bytes, [], []⟩ calls h).1
      (runAll Call.run ⟨.start l bytes, [], []⟩ calls h).2 := by
  have each : ∀ (c : Call) (u : Session w),
      Ensures (fun h => (c.Legal u ∧ (c.run u h).1.1 = true) ∧ Kept u h) (c.run u)
        (fun q h => Kept q.2 h) := fun c u h ⟨⟨legal, success⟩, kept⟩ =>
    call_kept c u h ⟨⟨legal, granted_of_success kept success⟩, kept⟩
  exact runAll_along each calls _ h (start_kept l bytes tame) along

/-- For every object size up to a page and every run of successful calls by a
user who keeps to the rules, the accounts are right, and no call follows a
pointer to a node that has moved or a usemap that was freed. -/
theorem successful_calls_accounted (word : 32 ≤ w ∧ w ≤ 64) (pgsiz : Int32) (bytes : Bytes)
    (objsize : ℕ) (nonempty : 0 < objsize) (fits : objsize ≤ pgsiz.toInt.toNat) (h₀ : Heap)
    (served : h₀.answer 0 = true) :
    ∃ s : Slalloc w, (createSlalloc word pgsiz bytes objsize h₀).1 = some s ∧
      ∀ calls h, Tame h →
        Along (fun u c h => c.Legal u ∧ (c.run u h).1.1 = true) Call.run ⟨s, [], []⟩ h calls →
        Accounted (runAll Call.run ⟨s, [], []⟩ calls h).1 ∧
          Tame (runAll Call.run ⟨s, [], []⟩ calls h).2 := by
  obtain ⟨l, -, created⟩ := createSlalloc_eq word pgsiz bytes nonempty fits served
  refine ⟨.start l bytes, created, fun calls h tame along => ?_⟩
  obtain ⟨l, v, rep, owned, tame'⟩ := successful_calls_kept l bytes calls h tame along
  exact ⟨owned_accounted rep owned, tame'⟩

end Runs

namespace Unset

/-- Some memory that `realloc` adds to an array of pointers and that is not zero. -/
scoped instance cells : Leftover ℕ := ⟨fun _ => 65536⟩

end Unset

open scoped Unset

def twoToAPage : Layout 64 :=
  ⟨2000, 4096, by decide, by decide, by decide, by decide⟩

/-- The first object is written to, freed and given again. -/
theorem successful_calls_accounted_again :
    (createSlalloc twoToAPage.word 4096 (fun _ => 1) 2000 ⟨[], false⟩).1 =
        some (.start twoToAPage fun _ => 1) ∧
      Accounted (runAll Call.run ⟨.start twoToAPage fun _ => 1, [], []⟩
        [.new 8192, .new 8192, .write 8200 7, .free 8192, .new 8192] ⟨[], false⟩).1 := by
  have created : (createSlalloc twoToAPage.word 4096 (fun _ => 1) 2000 ⟨[], false⟩).1 =
    some (.start twoToAPage fun _ => 1) := rfl
  obtain ⟨s, created', runs⟩ := successful_calls_accounted twoToAPage.word 4096
    (fun _ => 1) 2000 (by decide) (by decide) ⟨[], false⟩ rfl
  obtain rfl := Option.some.inj (created.symm.trans created')
  exact ⟨created, (runs [.new 8192, .new 8192, .write 8200 7, .free 8192, .new 8192] ⟨[], false⟩ rfl
    (by decide +kernel)).1⟩

end Libdank.SlabAllocator
