import Libdank.SlabAllocator.Accounting

/-! A `slalloc_new` that fails. Three of the four requests of a growth can be
refused without a trace. The fourth, for the pages, cannot: the new usemap has
been linked by then, and it is freed but not unlinked. -/
namespace Libdank.SlabAllocator
open Requests Buffers ThreadedList

variable {w : ℕ} {l : Layout w} {v : Slabs} {s s' : Slalloc w}

/-- The same blocks, the same list, and no way to a freed usemap. -/
structure Undisturbed (s s' : Slalloc w) : Prop where
  blockcount : s'.blockcount = s.blockcount
  nonfull : ∀ bs, s'.Nonfull bs ↔ s.Nonfull bs
  listed : ∀ bs, s'.Nonfull bs → ∀ b ∈ bs, (s'.pgdata b).held = true
  held : ∀ b < s'.blockcount, (s'.pgdata b).held = true
  objects : s'.visited = s.visited
  bytes : s'.bytes = s.bytes

/-- No run of calls tells the two apart, nor does the destruction after it. -/
def Interchangeable [Leftover ℕ] (u u' : Session w) : Prop :=
  ∀ calls h, Along (fun u c h => c.Legal u ∧ c.Granted u h) Call.run u h calls →
    let r := runAll Call.run u calls h
    let r' := runAll Call.run u' calls h
    r'.1.log = r.1.log ∧ r'.1.live = r.1.live ∧ r'.1.slalloc.bytes = r.1.slalloc.bytes ∧
      destroySlalloc r'.1.slalloc r'.2 = destroySlalloc r.1.slalloc r.2

theorem nonfull_iff (rep : Represents l v s) (bs : List ℕ) : s.Nonfull bs ↔ bs = v.nonfull := by
  have inj : Function.Injective (Node.mk s.generation) := fun b c same => (Node.mk.inj same).2
  constructor
  · intro links
    exact List.map_injective_iff.mpr inj (Threaded.unique links rep.nonfull)
  · rintro rfl
    exact rep.nonfull

theorem Represents.held (rep : Represents l v s) {b : ℕ} (hb : b < v.count) :
    (s.pgdata b).held = true := by
  obtain ⟨pd, cell, tracks⟩ := rep.maps b hb
  rw [pgdata_eq cell]
  exact tracks.held

theorem undisturbed (rep : Represents l v s) (rep' : Represents l v s') (sound : Sound l v) :
    Undisturbed s s' where
  blockcount := rep'.count.trans rep.count.symm
  nonfull bs := by rw [nonfull_iff rep', nonfull_iff rep]
  listed bs links b mem := by
    rw [nonfull_iff rep'] at links
    exact rep'.held ((sound.listed b).mp (links ▸ mem)).1
  held b hb := rep'.held (rep'.count ▸ hb)
  objects := (visited_eq rep').trans (visited_eq rep).symm
  bytes := rep'.bytes.trans rep.bytes.symm

theorem returnBlocks_eq (rep : Represents l v s) (zs : List ℕ) (old : ∀ z ∈ zs, z < v.count)
    (h : Heap) :
    returnBlocks s zs h = (zs.map fun z => ((v.base z : ℕ), l.pagesperblock * l.pgsize), h) := by
  induction zs with
  | nil => rfl
  | cons z rest ih =>
    have hz := old z (by simp)
    have tail := ih fun y hy => old y (by simp [hy])
    rw [returnBlocks, bind_apply, visit_eq (rep.held hz), bind_apply, tail]
    rw [List.getD_eq_getElem?_getD, rep.pages z hz, Option.getD_some, rep.layout]
    rfl

/-- Two allocators that stand for the same slabs stay so, call after call. -/
theorem runs_alike [Leftover ℕ] (calls : List Call) {u : Session w} (rep : Represents l v u.slalloc)
    (rep' : Represents l v s') (owned : Owned l v u.live) (h : Heap)
    (kept : Along (fun u c h => c.Legal u ∧ c.Granted u h) Call.run u h calls) :
    ∃ v₁, Represents l v₁ (runAll Call.run u calls h).1.slalloc ∧
      Represents l v₁ (runAll Call.run { u with slalloc := s' } calls h).1.slalloc ∧
      (runAll Call.run { u with slalloc := s' } calls h).1.live =
        (runAll Call.run u calls h).1.live ∧
      (runAll Call.run { u with slalloc := s' } calls h).1.log =
        (runAll Call.run u calls h).1.log ∧
      (runAll Call.run { u with slalloc := s' } calls h).2 = (runAll Call.run u calls h).2 := by
  induction calls generalizing u s' v h with
  | nil => exact ⟨v, rep, rep', rfl, rfl, rfl⟩
  | cons c rest ih =>
    obtain ⟨s, live, log⟩ := u
    obtain ⟨⟨legal, granted⟩, later⟩ := kept
    obtain ⟨v₁, live₁, ok, out, h₁, owned₁, -, same⟩ := call_steps c rep owned legal h granted
    obtain ⟨t, run, rep₁⟩ := same s log rep
    obtain ⟨t', run', rep₁'⟩ := same s' log rep'
    have first : runAll Call.run ⟨s, live, log⟩ (c :: rest) h =
        runAll Call.run (c.run ⟨s, live, log⟩ h).1.2 rest (c.run ⟨s, live, log⟩ h).2 := rfl
    have first' : runAll Call.run ⟨s', live, log⟩ (c :: rest) h =
        runAll Call.run (c.run ⟨s', live, log⟩ h).1.2 rest (c.run ⟨s', live, log⟩ h).2 := rfl
    rw [run] at first later
    rw [run'] at first'
    rw [first, first']
    exact ih rep₁ rep₁' owned₁ h₁ later

theorem interchangeable [Leftover ℕ] {u : Session w} (rep : Represents l v u.slalloc)
    (rep' : Represents l v s') (owned : Owned l v u.live) :
    Interchangeable u { u with slalloc := s' } := by
  intro calls h kept
  obtain ⟨v₁, rep₁, rep₁', live, log, heap⟩ := runs_alike calls rep rep' owned h kept
  refine ⟨log, live, rep₁'.bytes.trans rep₁.bytes.symm, ?_⟩
  have old : ∀ z ∈ List.range v₁.count, z < v₁.count := fun z hz => List.mem_range.mp hz
  rw [destroySlalloc, destroySlalloc, rep₁'.count, rep₁.count, heap, returnBlocks_eq rep₁' _ old,
    returnBlocks_eq rep₁ _ old]

/-- After a run in which no call was refused the pages of a block, a call that
fails leaves things as they were exactly if it is not refused them either. -/
theorem failed_new_undone_iff [Leftover ℕ] {word : 32 ≤ w ∧ w ≤ 64} {pgsiz : Int32} {bytes : Bytes}
    {objsize : ℕ} {h₀ : Heap} (created : (createSlalloc word pgsiz bytes objsize h₀).1 = some s)
    (calls : List Call) (h : Heap) (tame : Tame h)
    (kept : Along (fun u c h => c.Legal u ∧ c.Granted u h) Call.run ⟨s, [], []⟩ h calls)
    (base : ℕ+) (h' : Heap)
    (failed : (slallocNew base (runAll Call.run ⟨s, [], []⟩ calls h).1.slalloc h').1.1 = none) :
    let u := (runAll Call.run ⟨s, [], []⟩ calls h).1
    let s' := (slallocNew base u.slalloc h').1.2
    (Undisturbed u.slalloc s' ∧ Interchangeable u { u with slalloc := s' }) ↔
      ¬ PagesRefused u.slalloc h' := by
  obtain ⟨l, rfl⟩ := createSlalloc_start created
  obtain ⟨l, v, rep, owned, -⟩ :=
    runAll_along call_kept calls _ h (start_kept l bytes tame) kept
  generalize (runAll Call.run _ calls h).1 = u at *
  intro u₁ s'
  constructor
  · rintro ⟨undisturbed, -⟩ refused
    have small : u.slalloc.blockcount < 2 ^ 32 := rep.count ▸ rep.small
    have result : s' = u.slalloc.stranded := by
      change (slallocNew base u.slalloc h').1.2 = _
      rw [slallocNew_refused refused small]
    have empty : u.slalloc.Nonfull [] := refused.1
    have listed := (undisturbed.nonfull []).mpr empty
    rw [result] at listed
    cases listed
  · intro granted
    obtain ⟨t, run, rep'⟩ := slallocNew_eq rep owned.sound base h' granted
    have result : s' = t := by
      change (slallocNew base u.slalloc h').1.2 = _
      rw [run]
    rw [run] at failed
    rw [Slabs.new_none (Option.map_eq_none_iff.mp failed)] at rep'
    rw [result]
    exact ⟨undisturbed rep rep' owned.sound, interchangeable rep rep' owned⟩

open scoped Unset

/-- All places of a block are taken, and the longer array of usemaps refused. -/
theorem failed_new_undone_full :
    let u := (runAll Call.run ⟨.start twoToAPage fun _ => 1, [], []⟩
      (List.replicate 64 (.new 8192)) ⟨[], false⟩).1
    let s' := (slallocNew 8192 u.slalloc ⟨[true, false], false⟩).1.2
    Undisturbed u.slalloc s' ∧ Interchangeable u { u with slalloc := s' } :=
  (failed_new_undone_iff (show (createSlalloc twoToAPage.word 4096 (fun _ => 1) 2000
      ⟨[], false⟩).1 = some (.start twoToAPage fun _ => 1) from rfl)
    (List.replicate 64 (.new 8192)) ⟨[], false⟩ rfl (by decide +kernel) 8192
    ⟨[true, false], false⟩ (by decide +kernel)).mpr (by decide +kernel)

/-- The first object of all is asked for and the pages are refused. The next request
follows the list to the freed usemap, and makes an object from what the array of
pages happens to hold for a block that was never mapped. -/
theorem refused_pages_strand :
    let s : Slalloc 64 := .start twoToAPage fun _ => 1
    let s' := (slallocNew 8192 s ⟨[true, true, true, false], false⟩).1.2
    (slallocNew 8192 s ⟨[true, true, true, false], false⟩).1.1 = none ∧
      s.nonfullUsemaps = none ∧ s'.nonfullUsemaps = some ⟨1, 0⟩ ∧ (s'.pgdata 0).held = false ∧
      (slallocNew 8192 s' ⟨[], false⟩).1.1 = some 65536 ∧ (slallocNew 8192 s' ⟨[], false⟩).2.wild = true ∧
      ¬ Undisturbed s s' ∧ ¬ Interchangeable ⟨s, [], []⟩ ⟨s', [], []⟩ := by
  refine ⟨by decide +kernel, rfl, by decide +kernel, by decide +kernel, by decide +kernel,
    by decide +kernel, fun undisturbed => ?_, fun same => ?_⟩
  · have linked := (undisturbed.nonfull []).mpr rfl
    have head : (slallocNew 8192 (.start twoToAPage fun _ => 1)
      ⟨[true, true, true, false], false⟩).1.2.nonfullUsemaps = some ⟨1, 0⟩ := by decide +kernel
    rw [Slalloc.Nonfull, head] at linked
    cases linked
  · have log := (same [.new 8192] ⟨[], false⟩ (by decide +kernel)).1
    exact absurd log (by decide +kernel)

end Libdank.SlabAllocator
