import Libdank.SlabAllocator.Accounting

/-! What the walks over all objects come to. They look at every bit of every word
of a usemap, those past the last object of the block included, and compute the
addresses anew. -/
namespace Libdank.SlabAllocator
open Requests Buffers Bitmap

variable {w : ℕ} {l : Layout w} {v : Slabs}

def Slabs.places (l : Layout w) (v : Slabs) : List Place :=
  (List.range v.count).flatMap fun b =>
    (List.range l.objwordsperblock).flatMap fun z =>
      ((List.range (l.objsperthisword z)).filter fun y => z * w + y ∈ v.used b).map fun y =>
        (b, z * w + y)

theorem visited_places (l : Layout w) (v : Slabs) :
    v.visited l = (v.places l).map (v.address l) := by
  simp only [Slabs.visited, Slabs.places, List.map_flatMap, List.map_map]
  rfl

theorem mem_places (sound : Sound l v) {p : Place} : p ∈ v.places l ↔ v.Uses p := by
  obtain ⟨b, i⟩ := p
  simp only [Slabs.places, List.mem_flatMap, List.mem_map, List.mem_filter, List.mem_range,
    decide_eq_true_eq, Prod.mk.injEq]
  constructor
  · rintro ⟨b, hb, z, hz, y, ⟨hy, used⟩, rfl, rfl⟩
    exact ⟨hb, used⟩
  · rintro ⟨hb, used⟩
    have inside := (sound.within (b, i) ⟨hb, used⟩).2.trans_le l.objsperblock_le_words
    have pos : 0 < w := by
      have := l.word
      omega
    have word : i / w < l.objwordsperblock := Nat.div_lt_of_lt_mul inside
    refine ⟨b, hb, i / w, word, i % w, ⟨?_, ?_⟩, rfl, Nat.div_add_mod' i w⟩
    · rw [Layout.objsperthisword, if_pos word]
      exact Nat.mod_lt i pos
    · rwa [Nat.div_add_mod']

theorem nodup_places (l : Layout w) (v : Slabs) : (v.places l).Nodup := by
  refine List.nodup_flatMap.mpr ⟨fun b _ => List.nodup_flatMap.mpr ⟨fun z _ => ?_, ?_⟩, ?_⟩
  · refine List.Nodup.map_on (fun y _ y' _ same => ?_) (List.nodup_range.filter _)
    exact Nat.add_left_cancel (Prod.mk.inj same).2
  · refine List.nodup_range.imp_of_mem fun {z z'} hz hz' ne q hq hq' => ne ?_
    obtain ⟨y, hy, rfl⟩ := List.mem_map.mp hq
    obtain ⟨y', hy', same⟩ := List.mem_map.mp hq'
    have bound : ∀ {z y}, z ∈ List.range l.objwordsperblock →
        y ∈ (List.range (l.objsperthisword z)).filter (fun y => z * w + y ∈ v.used b) → y < w := by
      intro z y hz hy
      rw [List.mem_filter, List.mem_range, Layout.objsperthisword, if_pos (List.mem_range.mp hz)] at hy
      exact hy.1
    have index : z' * w + y' = z * w + y := (Prod.mk.inj same).2
    have first := (div_mod_iff (bound hz hy)).mpr (rfl : z * w + y = z * w + y)
    have second := (div_mod_iff (bound hz' hy')).mpr index.symm
    exact first.1.symm.trans second.1
  · refine List.nodup_range.imp fun {b b'} ne q hq hq' => ne ?_
    simp only [List.mem_flatMap, List.mem_map] at hq hq'
    obtain ⟨z, -, y, -, rfl⟩ := hq
    obtain ⟨z', -, y', -, same⟩ := hq'
    exact (Prod.mk.inj same).1.symm

/-- The walk comes to the live objects, each once. -/
theorem visited_perm {live : List Grant} (owned : Owned l v live) :
    (v.visited l).Perm (live.map Grant.obj) ∧ (v.visited l).Nodup := by
  obtain ⟨ps, rfl, once, all⟩ := owned.places
  have uses : ∀ p ∈ v.places l, v.Uses p := fun p hp => (mem_places owned.sound).mp hp
  have same : (v.places l).Perm ps :=
    (List.perm_ext_iff_of_nodup (nodup_places l v) once).mpr fun p =>
      (mem_places owned.sound).trans (all p).symm
  rw [visited_places]
  refine ⟨?_, (nodup_places l v).map_on fun p hp q hq => ?_⟩
  · rw [List.map_map]
    exact same.map _
  · exact owned.sound.address_inj (uses p hp) (uses q hq)

section Calls

variable {σ : Type}

theorem foreachCore_all {fxn : σ → ℕ → Bool × σ} (goes : ∀ state obj, (fxn state obj).1 = false)
    (objs : List ℕ) (state : σ) :
    foreachCore fxn state objs = (0, objs.foldl (fun state obj => (fxn state obj).2) state) := by
  induction objs generalizing state with
  | nil => rfl
  | cons obj rest ih =>
    simp only [foreachCore, goes, Bool.false_eq_true, if_false]
    exact ih _

theorem foreachVoidCore_eq (fxn : σ → ℕ → σ) (objs : List ℕ) (state : σ) :
    foreachVoidCore fxn state objs = objs.foldl fxn state := by
  induction objs generalizing state with
  | nil => rfl
  | cons obj rest ih => exact ih _

end Calls

/-- Each of the four walks is one call of the function for each live object, in
some order, with the address the object was given at. -/
def WalksLive (u : Session w) : Prop :=
  ∃ objs : List ℕ, objs.Perm (u.live.map Grant.obj) ∧ objs.Nodup ∧
    ∀ (σ : Type) (state : σ),
      (∀ fxn : σ → ℕ → Bool × σ, (∀ state obj, (fxn state obj).1 = false) →
        slallocForeach u.slalloc state fxn =
            (0, objs.foldl (fun state obj => (fxn state obj).2) state) ∧
          slallocConstForeach u.slalloc state fxn =
            (0, objs.foldl (fun state obj => (fxn state obj).2) state)) ∧
      ∀ fxn : σ → ℕ → σ, slallocVoidForeach u.slalloc state fxn = objs.foldl fxn state ∧
        slallocConstVoidForeach u.slalloc state fxn = objs.foldl fxn state

theorem walksLive {u : Session w} (rep : Represents l v u.slalloc) (owned : Owned l v u.live) :
    WalksLive u := by
  obtain ⟨perm, once⟩ := visited_perm owned
  refine ⟨v.visited l, perm, once, fun σ state => ⟨fun fxn goes => ?_, fun fxn => ?_⟩⟩
  · rw [slallocForeach, slallocConstForeach, visited_eq rep]
    exact ⟨foreachCore_all goes _ _, foreachCore_all goes _ _⟩
  · rw [slallocVoidForeach, slallocConstVoidForeach, visited_eq rep]
    exact ⟨foreachVoidCore_eq fxn _ _, foreachVoidCore_eq fxn _ _⟩

/-- For every object size up to a page, in every state that successful calls by a
user who keeps to the rules lead to. -/
theorem successful_calls_walked [Leftover ℕ] (word : 32 ≤ w ∧ w ≤ 64) (pgsiz : Int32) (bytes : Bytes)
    (objsize : ℕ) (nonempty : 0 < objsize) (fits : objsize ≤ pgsiz.toInt.toNat) (h₀ : Heap)
    (served : h₀.answer 0 = true) :
    ∃ s : Slalloc w, (createSlalloc word pgsiz bytes objsize h₀).1 = some s ∧
      ∀ calls h, Tame h →
        Along (fun u c h => c.Legal u ∧ (c.run u h).1.1 = true) Call.run ⟨s, [], []⟩ h calls →
        WalksLive (runAll Call.run ⟨s, [], []⟩ calls h).1 := by
  obtain ⟨l, -, created⟩ := createSlalloc_eq word pgsiz bytes nonempty fits served
  refine ⟨.start l bytes, created, fun calls h tame along => ?_⟩
  obtain ⟨l, v, rep, owned, -⟩ := successful_calls_kept l bytes calls h tame along
  exact walksLive rep owned

open scoped Unset in
theorem successful_calls_walked_again :
    (createSlalloc twoToAPage.word 4096 (fun _ => 1) 2000 ⟨[], false⟩).1 =
        some (.start twoToAPage fun _ => 1) ∧
      WalksLive (runAll Call.run ⟨.start twoToAPage fun _ => 1, [], []⟩
        [.new 8192, .new 8192, .free 8192, .new 8192] ⟨[], false⟩).1 := by
  have created : (createSlalloc twoToAPage.word 4096 (fun _ => 1) 2000 ⟨[], false⟩).1 =
    some (.start twoToAPage fun _ => 1) := rfl
  obtain ⟨s, created', runs⟩ := successful_calls_walked twoToAPage.word 4096
    (fun _ => 1) 2000 (by decide) (by decide) ⟨[], false⟩ rfl
  obtain rfl := Option.some.inj (created.symm.trans created')
  exact ⟨created, runs [.new 8192, .new 8192, .free 8192, .new 8192] ⟨[], false⟩ rfl (by decide +kernel)⟩

end Libdank.SlabAllocator
