import Libdank.SlabAllocator.Refinement

/-! Runs of calls on one allocator by a user who frees live objects only and
writes inside them only. Which objects are live, and which usemap bits changed
when each was given, is recorded beside the allocator. -/
namespace Libdank.SlabAllocator
open Requests Buffers Bitmap

variable {w : ℕ}

def Slalloc.marks (s : Slalloc w) : Finset Place :=
  (Finset.range s.blockcount ×ˢ Finset.range (w * s.layout.objwordsperblock)).filter fun p =>
    bit (s.pgdata p.1).usemap p.2 = true

/-- A live object and the bits its `slalloc_new` turned on. -/
structure Grant where
  obj : ℕ
  bits : Finset Place
deriving DecidableEq

inductive Output where
  | new (obj : Pointer ℕ)
  | free (ret : ℤ)
  | foreach (ret : ℤ) (seen : List ℕ)
deriving DecidableEq, Repr

structure Session (w : ℕ) where
  slalloc : Slalloc w
  live : List Grant
  log : List Output

/-- `new base` gets a block at `base` if it maps one; `stop` decides from the
objects seen so far whether the callback asks to stop. -/
inductive Call where
  | new (base : ℕ+)
  | free (obj : ℕ)
  | write (a : ℕ) (byte : UInt8)
  | foreach (stop : List ℕ → Bool)

def Call.run [Leftover ℕ] (u : Session w) : Call → Request (Bool × Session w)
  | new base => do
    let (obj, s) ← slallocNew base u.slalloc
    let grants := obj.toList.map fun obj => ⟨obj, s.marks \ u.slalloc.marks⟩
    pure (obj.isSome, ⟨s, grants ++ u.live, .new obj :: u.log⟩)
  | free obj => do
    let s ← slallocFree u.slalloc obj
    pure (true, ⟨s, u.live.filter (·.obj ≠ obj), .free 0 :: u.log⟩)
  | write a byte =>
    let s := { u.slalloc with bytes := Function.update u.slalloc.bytes a byte }
    pure (true, ⟨s, u.live, u.log⟩)
  | foreach stop =>
    let fxn (seen : List ℕ) (obj : ℕ) := (stop (seen ++ [obj]), seen ++ [obj])
    let (ret, seen) := slallocForeach u.slalloc [] fxn
    pure (true, ⟨u.slalloc, u.live, .foreach ret seen :: u.log⟩)

def Slalloc.Fresh (s : Slalloc w) (base : ℕ) : Prop :=
  ∀ z < s.blockcount, s.pgarray.getD z 0 + s.blockBytes ≤ base ∨
    base + s.blockBytes ≤ s.pgarray.getD z 0

instance (s : Slalloc w) (base : ℕ) : Decidable (s.Fresh base) :=
  inferInstanceAs (Decidable (∀ z < _, _))

/-- What the user and the system keep to. -/
def Call.Legal (u : Session w) : Call → Prop
  | new base => u.slalloc.nonfullUsemaps = none → u.slalloc.Fresh base
  | free obj => ∃ g ∈ u.live, g.obj = obj
  | write a _ => ∃ g ∈ u.live, g.obj ≤ a ∧ a < g.obj + u.slalloc.layout.objsize
  | foreach _ => True

instance (u : Session w) : (c : Call) → Decidable (c.Legal u)
  | .new base => inferInstanceAs (Decidable (_ → u.slalloc.Fresh base))
  | .free _ => inferInstanceAs (Decidable (∃ g ∈ _, _))
  | .write _ _ => inferInstanceAs (Decidable (∃ g ∈ _, _))
  | .foreach _ => inferInstanceAs (Decidable True)

def Call.Granted (u : Session w) (h : Heap) : Call → Prop
  | new _ => ¬ PagesRefused u.slalloc h
  | _ => True

instance (u : Session w) (h : Heap) : (c : Call) → Decidable (c.Granted u h)
  | .new _ => inferInstanceAs (Decidable (¬ _))
  | .free _ => inferInstanceAs (Decidable True)
  | .write _ _ => inferInstanceAs (Decidable True)
  | .foreach _ => inferInstanceAs (Decidable True)

variable {l : Layout w} {v : Slabs} {s : Slalloc w} {live : List Grant}

theorem mem_marks (rep : Represents l v s) {p : Place} : p ∈ s.marks ↔ v.Uses p := by
  simp only [Slalloc.marks, Finset.mem_filter, Finset.mem_product, Finset.mem_range, rep.count,
    Slabs.Uses]
  constructor
  · rintro ⟨⟨hb, -⟩, on⟩
    obtain ⟨pd, cell, tracks⟩ := rep.maps _ hb
    rw [pgdata_eq cell] at on
    exact ⟨hb, tracks.marks ▸ mem_marked.mpr on⟩
  · rintro ⟨hb, used⟩
    obtain ⟨pd, cell, tracks⟩ := rep.maps _ hb
    rw [← tracks.marks] at used
    obtain ⟨inside, on⟩ := Finset.mem_filter.mp used
    rw [tracks.words, Finset.mem_range] at inside
    exact ⟨⟨hb, rep.layout ▸ inside⟩, by rwa [pgdata_eq cell]⟩

theorem fresh_iff (rep : Represents l v s) (base : ℕ) :
    s.Fresh base ↔ ∀ b < v.count, Disjoint (l.region (v.base b)) (l.region base) := by
  have bytes : s.blockBytes = l.blockBytes := by
    rw [Slalloc.blockBytes, rep.layout]
    rfl
  have pos := (Nat.add_pos_right (l.offset 0) l.nonempty).trans_le (l.offset_fits l.objsperblock_pos)
  simp only [Slalloc.Fresh, rep.count, bytes]
  refine forall₂_congr fun b hb => ?_
  rw [List.getD_eq_getElem?_getD, rep.pages b hb, Option.getD_some, Layout.region, Layout.region,
    Set.Ico_disjoint_Ico]
  omega

structure Gives (l : Layout w) (v : Slabs) (p : Place) (v' : Slabs) : Prop where
  sound : Sound l v'
  unused : ¬ v.Uses p
  uses : ∀ q, v'.Uses q ↔ q = p ∨ v.Uses q
  address : ∀ q, v.Uses q → v'.address l q = v.address l q
  zeroed : ∀ a ∈ l.extent (v'.address l p), v'.bytes a = 0

theorem grant_gives (sound : Sound l v) {b : ℕ} {rest : List ℕ} (head : v.nonfull = b :: rest) :
    Gives l v (v.next b) (v.grant l b rest) where
  sound := sound.grant head
  unused := (sound.exists_next head).2
  uses _ := Slabs.uses_grant (sound.exists_next head).1.1
  address _ _ := rfl
  zeroed := sound.clean _ (sound.exists_next head).1 (sound.exists_next head).2

theorem new_cases (sound : Sound l v) {base : ℕ+}
    (fresh : v.nonfull = [] → ∀ b < v.count, Disjoint (l.region (v.base b)) (l.region base))
    (h : Heap) :
    (v.new l base h).1 = (none, v) ∨
      ∃ p v', (v.new l base h).1 = (some p, v') ∧ Gives l v p v' := by
  cases head : v.nonfull with
  | cons b rest =>
    refine .inr ⟨v.next b, v.grant l b rest, ?_, grant_gives sound head⟩
    rw [Slabs.new, head]
    rfl
  | nil =>
    rw [Slabs.new_nil head]
    cases (acquire l v.count h).1 with
    | false => exact .inl rfl
    | true =>
      have larger := sound.grow (fresh head)
      have gives := grant_gives larger (show (v.grow l base).nonfull = v.count :: [] by
        rw [Slabs.grow, head])
      rw [next_grow] at gives
      exact .inr ⟨_, _, rfl, {
        sound := gives.sound
        unused := fun uses => gives.unused (Slabs.uses_grow.mpr uses)
        uses := fun q => (gives.uses q).trans (or_congr_right Slabs.uses_grow)
        address := fun q uses => (gives.address q (Slabs.uses_grow.mpr uses)).trans
          (Slabs.address_grow uses.1)
        zeroed := gives.zeroed }⟩

def Slabs.granted (l : Layout w) (v : Slabs) (p : Place) : Grant := ⟨v.address l p, {p}⟩

/-- The live objects are the places in use, each once. -/
structure Owned (l : Layout w) (v : Slabs) (live : List Grant) : Prop where
  sound : Sound l v
  places : ∃ ps : List Place, live = ps.map (v.granted l) ∧ ps.Nodup ∧ ∀ p, p ∈ ps ↔ v.Uses p

theorem Owned.of_mem (owned : Owned l v live) {g : Grant} (mem : g ∈ live) :
    ∃ p, v.Uses p ∧ g = v.granted l p := by
  obtain ⟨ps, rfl, -, all⟩ := owned.places
  obtain ⟨p, hp, rfl⟩ := List.mem_map.mp mem
  exact ⟨p, (all p).mp hp, rfl⟩

theorem Owned.new (owned : Owned l v live) {p : Place} {v' : Slabs} (gives : Gives l v p v') :
    Owned l v' (v'.granted l p :: live) := by
  obtain ⟨ps, rfl, once, all⟩ := owned.places
  refine ⟨gives.sound, p :: ps, ?_, List.nodup_cons.mpr ⟨?_, once⟩, fun q => ?_⟩
  · rw [List.map_cons]
    congr 1
    refine List.map_congr_left fun q hq => ?_
    rw [Slabs.granted, Slabs.granted, gives.address q ((all q).mp hq)]
  · exact fun hp => gives.unused ((all p).mp hp)
  · rw [List.mem_cons, gives.uses, all]

theorem Owned.free (owned : Owned l v live) {p : Place} (used : v.Uses p) :
    Owned l (v.release l p) (live.filter (·.obj ≠ v.address l p)) := by
  obtain ⟨ps, rfl, once, all⟩ := owned.places
  refine ⟨owned.sound.release used, ps.filter (· ≠ p), ?_, once.filter _, fun q => ?_⟩
  · rw [List.filter_map]
    refine congrArg _ (List.filter_congr fun q hq => ?_)
    have same : v.address l q = v.address l p ↔ q = p :=
      ⟨owned.sound.address_inj ((all q).mp hq) used, fun eq => by rw [eq]⟩
    simp [Slabs.granted, same]
  · rw [Slabs.uses_release, ← all]
    simp

theorem Owned.write (owned : Owned l v live) {p : Place} (used : v.Uses p) {a : ℕ} {byte : UInt8}
    (inside : a ∈ l.extent (v.address l p)) : Owned l (v.write a byte) live :=
  ⟨owned.sound.write used inside, owned.places⟩

theorem Represents.write (rep : Represents l v s) (a : ℕ) (byte : UInt8) :
    Represents l (v.write a byte) { s with bytes := Function.update s.bytes a byte } where
  layout := rep.layout
  bytes := by rw [Slabs.write, rep.bytes]
  count := rep.count
  small := rep.small
  pages := rep.pages
  maps := rep.maps
  nonfull := rep.nonfull

def Slabs.visited (l : Layout w) (v : Slabs) : List ℕ :=
  (List.range v.count).flatMap fun b =>
    (List.range l.objwordsperblock).flatMap fun z =>
      ((List.range (l.objsperthisword z)).filter fun y => z * w + y ∈ v.used b).map fun y =>
        v.address l (b, z * w + y)

theorem visited_eq (rep : Represents l v s) : s.visited = v.visited l := by
  have layout := rep.layout
  subst layout
  rw [Slalloc.visited, Slabs.visited, rep.count]
  refine List.flatMap_congr fun b hb => List.flatMap_congr fun z hz => ?_
  rw [List.mem_range] at hb hz
  obtain ⟨pd, cell, tracks⟩ := rep.maps b hb
  rw [List.map_congr_left fun y _ => @Represents.object_eq _ _ _ _ rep (b, z * w + y) hb,
    pgdata_eq cell]
  refine congrArg _ (List.filter_congr fun y hy => ?_)
  rw [Layout.objsperthisword, if_pos hz, List.mem_range] at hy
  obtain ⟨word, inside⟩ := (div_mod_iff hy).mpr (rfl : z * w + y = z * w + y)
  rw [← tracks.marks]
  simp [bit, word, inside]

theorem acquire_tame (l : Layout w) (blocks : ℕ) :
    Ensures Tame (acquire l blocks) (fun _ => Tame) := by
  refine ensures_bind (allocate_tame _) fun _ => ensures_ite (fun _ => ?_) fun _ =>
    ensures_pure fun _ h => h
  refine ensures_bind (allocate_tame _) fun _ => ensures_ite (fun _ => ?_) fun _ =>
    ensures_pure fun _ h => h
  exact ensures_bind (allocate_tame _) fun _ => ensures_ite (fun _ => allocate_tame _) fun _ =>
    ensures_pure fun _ h => h

theorem Slabs.new_tame (l : Layout w) (base : ℕ+) (v : Slabs) :
    Ensures Tame (v.new l base) (fun _ => Tame) := by
  unfold Slabs.new
  split
  · exact ensures_pure fun _ h => h
  · exact ensures_bind (acquire_tame l _) fun _ => ensures_ite (fun _ => ensures_pure fun _ h => h)
      fun _ => ensures_pure fun _ h => h

theorem marks_sdiff {v' : Slabs} {s' : Slalloc w} (rep : Represents l v s)
    (rep' : Represents l v' s') {p : Place} (gives : Gives l v p v') :
    s'.marks \ s.marks = {p} := by
  ext q
  rw [Finset.mem_sdiff, mem_marks rep', mem_marks rep, gives.uses, Finset.mem_singleton]
  constructor
  · rintro ⟨rfl | old, new⟩
    · rfl
    · exact absurd old new
  · rintro rfl
    exact ⟨.inl rfl, gives.unused⟩

theorem call_steps [Leftover ℕ] (c : Call) {u : Session w} (rep : Represents l v u.slalloc)
    (owned : Owned l v u.live) (legal : c.Legal u) (h : Heap) (granted : c.Granted u h) :
    ∃ v' live' ok out h', Owned l v' live' ∧ (Tame h → Tame h') ∧
      ∀ s log, Represents l v s → ∃ s',
        c.run ⟨s, u.live, log⟩ h = ((ok, ⟨s', live', out ++ log⟩), h') ∧ Represents l v' s' := by
  have sound := owned.sound
  cases c with
  | new base =>
    have fresh : v.nonfull = [] →
        ∀ b < v.count, Disjoint (l.region (v.base b)) (l.region base) := fun empty =>
      (fresh_iff rep base).mp (legal (rep.head_none_iff.mpr empty))
    have runs : ∀ s, Represents l v s → _ := fun s rep' =>
      slallocNew_eq rep' sound base h ((pagesRefused_congr rep rep' h).not.mp granted)
    have tame := Slabs.new_tame l base v h
    rcases new_cases sound fresh h with refused | ⟨p, v', given, gives⟩
    · rw [refused] at runs
      refine ⟨v, u.live, false, [.new none], (v.new l base h).2, owned, tame, fun s log rep' => ?_⟩
      obtain ⟨s', run, rep''⟩ := runs s rep'
      refine ⟨s', ?_, rep''⟩
      rw [Call.run, bind_apply, run]
      rfl
    · rw [given] at runs
      refine ⟨v', v'.granted l p :: u.live, true, [.new (some (v'.address l p))],
        (v.new l base h).2, owned.new gives, tame, fun s log rep' => ?_⟩
      obtain ⟨s', run, rep''⟩ := runs s rep'
      refine ⟨s', ?_, rep''⟩
      rw [Call.run, bind_apply, run, Slabs.granted, ← marks_sdiff rep' rep'' gives]
      rfl
  | free obj =>
    obtain ⟨g, mem, rfl⟩ := legal
    obtain ⟨p, used, rfl⟩ := owned.of_mem mem
    refine ⟨v.release l p, u.live.filter (·.obj ≠ v.address l p), true, [.free 0], h,
      owned.free used, id, fun s log rep' => ?_⟩
    obtain ⟨s', run, rep''⟩ := slallocFree_eq rep' sound used h
    refine ⟨s', ?_, rep''⟩
    rw [Call.run, Slabs.granted, bind_apply, run]
    rfl
  | write a byte =>
    obtain ⟨g, mem, inside⟩ := legal
    obtain ⟨p, used, rfl⟩ := owned.of_mem mem
    rw [rep.layout] at inside
    exact ⟨v.write a byte, u.live, true, [], h, owned.write used inside, id, fun s log rep' =>
      ⟨_, rfl, rep'.write a byte⟩⟩
  | foreach stop =>
    let fxn (seen : List ℕ) (obj : ℕ) := (stop (seen ++ [obj]), seen ++ [obj])
    let result := foreachCore fxn [] (v.visited l)
    refine ⟨v, u.live, true, [.foreach result.1 result.2], h, owned, id, fun s log rep' =>
      ⟨s, ?_, rep'⟩⟩
    rw [Call.run, slallocForeach, visited_eq rep']
    rfl

end Libdank.SlabAllocator
