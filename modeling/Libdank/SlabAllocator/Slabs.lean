import Libdank.SlabAllocator.Geometry

/-! What the allocator is for: blocks of places, each place used or not, and a
list of the blocks that have room. A request is served from the lowest unused
place of the first such block. -/
namespace Libdank.SlabAllocator

variable {w : ℕ}

def lowest (used : Finset ℕ) : ℕ := Nat.find (Infinite.exists_notMem_finset used)

theorem lowest_notMem (used : Finset ℕ) : lowest used ∉ used :=
  Nat.find_spec (Infinite.exists_notMem_finset used)

theorem mem_of_lt_lowest {used : Finset ℕ} {i : ℕ} (lt : i < lowest used) : i ∈ used :=
  not_not.mp (Nat.find_min (Infinite.exists_notMem_finset used) lt)

theorem lowest_lt {used : Finset ℕ} {n : ℕ} (room : used.card < n) : lowest used < n := by
  by_contra past
  have all : Finset.range n ⊆ used := fun i hi =>
    mem_of_lt_lowest ((Finset.mem_range.mp hi).trans_le (not_lt.mp past))
  have card := Finset.card_le_card all
  rw [Finset.card_range] at card
  omega

/-- Blocks are numbered below `count`; `used` are the places taken in each. -/
structure Slabs where
  count : ℕ
  base : ℕ → ℕ+
  used : ℕ → Finset ℕ
  nonfull : List ℕ
  bytes : Bytes

abbrev Place := ℕ × ℕ

namespace Slabs

def Exists (l : Layout w) (v : Slabs) (p : Place) : Prop := p.1 < v.count ∧ p.2 < l.objsperblock

def Uses (v : Slabs) (p : Place) : Prop := p.1 < v.count ∧ p.2 ∈ v.used p.1

def address (l : Layout w) (v : Slabs) (p : Place) : ℕ := v.base p.1 + l.offset p.2

def next (v : Slabs) (b : ℕ) : Place := (b, lowest (v.used b))

def grant (l : Layout w) (v : Slabs) (b : ℕ) (rest : List ℕ) : Slabs :=
  { v with
    used := Function.update v.used b (insert (lowest (v.used b)) (v.used b))
    nonfull := if (v.used b).card + 1 = l.objsperblock then rest else b :: rest }

def grow (l : Layout w) (base : ℕ+) (v : Slabs) : Slabs where
  count := v.count + 1
  base := Function.update v.base v.count base
  used := Function.update v.used v.count ∅
  nonfull := v.count :: v.nonfull
  bytes := zero v.bytes base l.blockBytes

def release (l : Layout w) (p : Place) (v : Slabs) : Slabs :=
  { v with
    used := Function.update v.used p.1 ((v.used p.1).erase p.2)
    nonfull := if (v.used p.1).card = l.objsperblock then p.1 :: v.nonfull else v.nonfull
    bytes := zero v.bytes (v.address l p) l.objsize }

def write (a : ℕ) (byte : UInt8) (v : Slabs) : Slabs :=
  { v with bytes := Function.update v.bytes a byte }

end Slabs

structure Sound (l : Layout w) (v : Slabs) : Prop where
  within : ∀ p, v.Uses p → v.Exists l p
  once : v.nonfull.Nodup
  listed : ∀ b, b ∈ v.nonfull ↔ b < v.count ∧ (v.used b).card < l.objsperblock
  apart : ∀ b < v.count, ∀ c < v.count, b ≠ c → Disjoint (l.region (v.base b)) (l.region (v.base c))
  clean : ∀ p, v.Exists l p → ¬ v.Uses p → ∀ a ∈ l.extent (v.address l p), v.bytes a = 0

variable {l : Layout w} {v : Slabs}

theorem sound_empty (base : ℕ → ℕ+) (used : ℕ → Finset ℕ) (bytes : Bytes) :
    Sound l ⟨0, base, used, [], bytes⟩ where
  within := by simp [Slabs.Uses]
  once := List.nodup_nil
  listed := by simp
  apart := by simp
  clean := by simp [Slabs.Exists]

namespace Sound

theorem card_le (sound : Sound l v) {b : ℕ} (hb : b < v.count) :
    (v.used b).card ≤ l.objsperblock := by
  have all : v.used b ⊆ Finset.range l.objsperblock := fun i hi =>
    Finset.mem_range.mpr (sound.within (b, i) ⟨hb, hi⟩).2
  simpa using Finset.card_le_card all

theorem places_disjoint (sound : Sound l v) {p q : Place} (hp : v.Exists l p)
    (hq : v.Exists l q) (ne : p ≠ q) :
    Disjoint (l.extent (v.address l p)) (l.extent (v.address l q)) := by
  by_cases same : p.1 = q.1
  · have other : p.2 ≠ q.2 := fun eq => ne (Prod.ext same eq)
    rw [Slabs.address, Slabs.address, same]
    exact l.extents_disjoint other
  · exact (sound.apart _ hp.1 _ hq.1 same).mono (l.extent_subset_region hp.2)
      (l.extent_subset_region hq.2)

theorem address_inj (sound : Sound l v) {p q : Place} (hp : v.Uses p) (hq : v.Uses q)
    (same : v.address l p = v.address l q) : p = q := by
  by_contra ne
  have apart := sound.places_disjoint (sound.within _ hp) (sound.within _ hq) ne
  rw [same] at apart
  exact Set.disjoint_left.mp apart (l.start_mem_extent _) (l.start_mem_extent _)

end Sound

theorem zero_eq {bytes : Bytes} {start len a : ℕ} (inside : start ≤ a ∧ a < start + len) :
    zero bytes start len a = 0 := if_pos inside

theorem zero_of_eq {bytes : Bytes} {start len a : ℕ} (h : bytes a = 0) :
    zero bytes start len a = 0 := by
  rw [zero]
  split
  · rfl
  · exact h

section Grant

variable {b : ℕ} {rest : List ℕ}

theorem Slabs.uses_grant {p : Place} (hb : b < v.count) :
    (v.grant l b rest).Uses p ↔ p = v.next b ∨ v.Uses p := by
  obtain ⟨c, i⟩ := p
  by_cases same : c = b
  · subst same
    simp [Slabs.Uses, Slabs.grant, Slabs.next, hb]
  · simp [Slabs.Uses, Slabs.grant, Slabs.next, same]

theorem Sound.exists_next (sound : Sound l v) (head : v.nonfull = b :: rest) :
    v.Exists l (v.next b) ∧ ¬ v.Uses (v.next b) := by
  obtain ⟨hb, room⟩ := (sound.listed b).mp (by simp [head])
  exact ⟨⟨hb, lowest_lt room⟩, fun uses => lowest_notMem _ uses.2⟩

theorem Sound.grant (sound : Sound l v) (head : v.nonfull = b :: rest) :
    Sound l (v.grant l b rest) where
  within p uses := by
    obtain ⟨here, -⟩ := sound.exists_next head
    rcases (Slabs.uses_grant here.1).mp uses with rfl | uses
    · exact here
    · exact sound.within p uses
  once := by
    have once := sound.once
    rw [head] at once
    simp only [Slabs.grant]
    split
    · exact once.of_cons
    · exact once
  listed c := by
    have listed := sound.listed c
    obtain ⟨hb, room⟩ := (sound.listed b).mp (by simp [head])
    have once := sound.once
    rw [head, List.nodup_cons] at once
    rw [head, List.mem_cons] at listed
    have card := Finset.card_insert_of_notMem (lowest_notMem (v.used b))
    simp only [Slabs.grant]
    by_cases same : c = b
    · subst same
      rw [Function.update_self, card]
      split_ifs with last
      · simp only [once.1, false_iff]
        omega
      · simp only [List.mem_cons, true_or, true_iff]
        omega
    · rw [Function.update_of_ne same, ← listed]
      split_ifs <;> simp [same]
  apart := sound.apart
  clean p here unused := sound.clean p here fun uses =>
    unused ((Slabs.uses_grant (sound.exists_next head).1.1).mpr (.inr uses))

end Grant

section Grow

variable {base : ℕ+}

theorem Slabs.uses_grow {p : Place} : (v.grow l base).Uses p ↔ v.Uses p := by
  obtain ⟨c, i⟩ := p
  by_cases same : c = v.count
  · subst same
    simp [Slabs.Uses, Slabs.grow]
  · simp only [Slabs.Uses, Slabs.grow, Function.update_of_ne same]
    exact and_congr_left fun _ => by omega

theorem Slabs.address_grow {p : Place} (old : p.1 < v.count) :
    (v.grow l base).address l p = v.address l p := by
  simp [Slabs.address, Slabs.grow, old.ne]

theorem Sound.grow (sound : Sound l v)
    (fresh : ∀ b < v.count, Disjoint (l.region (v.base b)) (l.region base)) :
    Sound l (v.grow l base) where
  within p uses := by
    obtain ⟨old, inside⟩ := sound.within p (Slabs.uses_grow.mp uses)
    exact ⟨Nat.lt_succ_of_lt old, inside⟩
  once := List.nodup_cons.mpr ⟨fun mem => by
    have := (sound.listed _).mp mem
    omega, sound.once⟩
  listed b := by
    have listed := sound.listed b
    have pos := l.objsperblock_pos
    simp only [Slabs.grow, List.mem_cons]
    by_cases new : b = v.count
    · subst new
      simpa using pos
    · rw [Function.update_of_ne new, listed]
      omega
  apart b hb c hc ne := by
    simp only [Slabs.grow] at hb hc ⊢
    by_cases newb : b = v.count
    · subst newb
      rw [Function.update_self, Function.update_of_ne ne.symm]
      exact (fresh c (by omega)).symm
    · rw [Function.update_of_ne newb]
      by_cases newc : c = v.count
      · subst newc
        rw [Function.update_self]
        exact fresh b (by omega)
      · rw [Function.update_of_ne newc]
        exact sound.apart b (by omega) c (by omega) ne
  clean p here unused a ha := by
    by_cases new : p.1 = v.count
    · have start : (v.grow l base).address l p = base + l.offset p.2 := by
        simp [Slabs.address, Slabs.grow, new]
      rw [start] at ha
      exact zero_eq (l.extent_subset_region here.2 ha)
    · have old : p.1 < v.count := by
        have := here.1
        simp only [Slabs.grow] at this
        omega
      rw [Slabs.address_grow old] at ha
      exact zero_of_eq (sound.clean p ⟨old, here.2⟩ (fun uses => unused (Slabs.uses_grow.mpr uses))
        a ha)

end Grow

theorem Slabs.uses_release {p q : Place} :
    (v.release l p).Uses q ↔ v.Uses q ∧ q ≠ p := by
  obtain ⟨b, i⟩ := p
  obtain ⟨c, j⟩ := q
  by_cases same : c = b
  · subst same
    simp only [Slabs.Uses, Slabs.release, Function.update_self, Finset.mem_erase, Ne,
      Prod.mk.injEq, true_and]
    tauto
  · simp [Slabs.Uses, Slabs.release, same]

theorem Sound.release (sound : Sound l v) {p : Place} (used : v.Uses p) :
    Sound l (v.release l p) where
  within q uses := sound.within q (Slabs.uses_release.mp uses).1
  once := by
    simp only [Slabs.release]
    split_ifs with full
    · refine List.nodup_cons.mpr ⟨fun mem => ?_, sound.once⟩
      have := ((sound.listed _).mp mem).2
      omega
    · exact sound.once
  listed b := by
    have listed := sound.listed b
    have card := Finset.card_erase_of_mem used.2
    have some_ := Finset.card_pos.mpr ⟨p.2, used.2⟩
    have le := sound.card_le used.1
    simp only [Slabs.release]
    by_cases same : b = p.1
    · subst same
      rw [Function.update_self, card]
      have hb := used.1
      split_ifs with full
      · simp only [List.mem_cons, true_or, true_iff]
        omega
      · rw [listed]
        omega
    · rw [Function.update_of_ne same, ← listed]
      split_ifs <;> simp [same]
  apart := sound.apart
  clean q here unused a ha := by
    by_cases same : q = p
    · subst same
      exact zero_eq ha
    · exact zero_of_eq (sound.clean q here
        (fun uses => unused (Slabs.uses_release.mpr ⟨uses, same⟩)) a ha)

theorem Sound.write (sound : Sound l v) {p : Place} (used : v.Uses p) {a : ℕ} {byte : UInt8}
    (inside : a ∈ l.extent (v.address l p)) : Sound l (v.write a byte) where
  within := sound.within
  once := sound.once
  listed := sound.listed
  apart := sound.apart
  clean q here unused a' ha' := by
    have ne : q ≠ p := fun same => unused (same ▸ used)
    have other : a' ≠ a := fun same => by
      subst same
      exact Set.disjoint_left.mp
        (sound.places_disjoint here (sound.within _ used) ne) ha' inside
    change Function.update v.bytes a byte a' = 0
    rw [Function.update_of_ne other]
    exact sound.clean q here unused a' ha'

end Libdank.SlabAllocator
