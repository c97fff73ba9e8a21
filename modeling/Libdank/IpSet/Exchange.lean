import Libdank.IpSet.Capacity
import Libdank.IpSet.Comparisons

/-! Swapping two sets. `swap_ipsets` leaves `maxranges` where it is, so each set
takes over the array of the other and goes on claiming its own room. -/
namespace Libdank.IpSet
open Requests Buffers

/-- The cells belong to the array, and go with the pointer to it. -/
def swapIpsets (i0 i1 : Ipset) : Ipset × Ipset :=
  ({ i0 with ranges := i1.ranges, cells := i1.cells }, { i1 with ranges := i0.ranges, cells := i0.cells })

inductive Later where
  | merge (cur add : ℕ)
  | purge (cur del : ℕ)
  | clone (src dst : ℕ)
  | equal (i0 i1 : ℕ)
  | clash (i0 i1 : ℕ)
  | encloses (is ipsub : ℕ)
  | cmp (is0 is1 : ℕ)
  | free (i : ℕ)
deriving DecidableEq, Repr

def code (ok : Bool) : ℤ := if ok then 0 else -1

/-- Nothing is left over in the array. -/
structure Exact (i : Ipset) : Prop where
  counted : i.rangecount ≤ i.maxranges
  allocated : i.maxranges = i.cells

section Runs
variable [Leftover Iprange]

def Later.run (pool : Pool) : Later → Request (ℤ × Pool)
  | merge cur add => do
    let (ok, is) ← mergeIpsets (pool cur) (pool add)
    pure (code ok, Function.update pool cur is)
  | purge cur del => do
    let (ok, is) ← purgeIpsets (pool cur) (pool del)
    pure (code ok, Function.update pool cur is)
  | clone src dst => do
    let (ok, is) ← cloneIpset (pool src)
    pure (code ok, Function.update pool dst is)
  | equal i0 i1 => pure ((ipsetsEqual (pool i0) (pool i1)).toInt, pool)
  | clash i0 i1 => pure ((ipsetsClash (pool i0) (pool i1)).toInt, pool)
  | encloses is ipsub => pure ((ipsetEncloses (pool is) (pool ipsub)).toInt, pool)
  | cmp is0 is1 => pure (ipsetCmp (pool is0) (pool is1), pool)
  | free i => pure (0, Function.update pool i (freeIpset (pool i)))

def runLater (pool : Pool) : List Later → Request (List ℤ × Pool)
  | [] => pure ([], pool)
  | op :: rest => do
    let (result, pool) ← op.run pool
    let (results, pool) ← runLater pool rest
    pure (result :: results, pool)

/-- Swapped, each set keeps its capacity and behaves as the other did before. -/
structure Exchanged (i0 i1 : Ipset) : Prop where
  first : Capacity (swapIpsets i0 i1).1
  second : Capacity (swapIpsets i0 i1).2
  later : ∀ (pool : Pool) (i j : ℕ), i ≠ j → ∀ (ops : List Later) (h : Heap),
    runLater (Function.update (Function.update pool i (swapIpsets i0 i1).1) j (swapIpsets i0 i1).2) ops h =
      runLater (Function.update (Function.update pool i i1) j i0) ops h

/-- A swap exchanges two sets just when they have the same room. -/
theorem swapIpsets_exchanges_iff {i0 i1 : Ipset} (exact0 : Exact i0) (exact1 : Exact i1) :
    Exchanged i0 i1 ↔ i0.maxranges = i1.maxranges := by
  constructor
  · intro exchanged
    have first : i0.maxranges ≤ i1.cells := exchanged.first.allocated
    have second : i1.maxranges ≤ i0.cells := exchanged.second.allocated
    rw [← exact1.allocated] at first
    rw [← exact0.allocated] at second
    exact le_antisymm first second
  · intro same
    have swapped : swapIpsets i0 i1 = (i1, i0) := by
      obtain ⟨ranges0, maxranges0, cells0⟩ := i0
      obtain ⟨ranges1, maxranges1, cells1⟩ := i1
      obtain rfl : maxranges0 = maxranges1 := same
      rfl
    refine ⟨?_, ?_, ?_⟩
    · rw [swapped]
      exact ⟨exact1.counted, exact1.allocated.le⟩
    · rw [swapped]
      exact ⟨exact0.counted, exact0.allocated.le⟩
    · intro pool i j apart ops h
      rw [swapped]

end Runs

open scoped Zeroed

theorem swapIpsets_exchanges_two :
    Exchanged ⟨[⟨1, 1⟩], 1, 1⟩ ⟨[⟨5, 9⟩], 1, 1⟩ :=
  (swapIpsets_exchanges_iff ⟨le_rfl, rfl⟩ ⟨le_rfl, rfl⟩).mpr rfl

/-- Of a set of one range and one of two, the first cannot be copied after the
swap, and a merge into the second stores a range past its array. -/
theorem swapped_overruns :
    let i0 : Ipset := ⟨[⟨1, 1⟩], 1, 1⟩
    let i1 : Ipset := ⟨[⟨5, 5⟩, ⟨9, 9⟩], 2, 2⟩
    ¬ Exchanged i0 i1 ∧
      (cloneIpset (swapIpsets i0 i1).1 ⟨[], false⟩).1.1 = false ∧
      (cloneIpset i1 ⟨[], false⟩).1.1 = true ∧
      (mergeIpsets (swapIpsets i0 i1).2 i1 ⟨[], false⟩).2.wild = true ∧
      (mergeIpsets i0 i1 ⟨[], false⟩).2.wild = false := by
  refine ⟨fun exchanged => absurd exchanged.first.counted (by decide), ?_⟩
  decide +kernel

end Libdank.IpSet
