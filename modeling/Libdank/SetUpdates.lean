import Libdank.Foundation.ScratchCopy
import Libdank.IpSet.Overruns
import Libdank.PortSet.Parse

/-! The calls that merge one set of a program into another, or purge it: all of
them work on a copy of the first, in place, while the second is read. -/
namespace Libdank

namespace IpSet
open Requests Buffers ScratchCopy

def updateOf (op : Ipset → Iprange → Request (Bool × Ipset)) : Update Ipset Iprange :=
  ⟨Ipset.ranges, cloneIpset, op, freeIpset⟩

/-- A call in place that stores inside its blocks leaves what the call on values gives:
for `addIprange` that is `mergeIpsets`, for `delIprange` it is `purgeIpsets`. -/
theorem inPlace_eq {op : Ipset → Iprange → Request (Bool × Ipset)}
    (remembers : ∀ i ir, Remembers (op i ir)) (damage : Store Ipset → Store Ipset) (cur arg : ℕ)
    (store : Store Ipset) (h : Heap) (calm : Tame (rebuild op (store (.named cur)) (store (.named arg)) h).2) :
    ((updateOf op).run damage cur arg store h).1.1 =
        (rebuild op (store (.named cur)) (store (.named arg)) h).1.1 ∧
      ((updateOf op).run damage cur arg store h).2 =
        (rebuild op (store (.named cur)) (store (.named arg)) h).2 ∧
      ∀ n, ((updateOf op).run damage cur arg store h).1.2 (.named n) =
        if n = cur then (rebuild op (store (.named cur)) (store (.named arg)) h).1.2
        else store (.named n) :=
  run_eq remembers cur arg store h calm

instance : Nontrivial Ipset := ⟨initIpset, ⟨[], 1, 0⟩, by decide⟩

theorem cloneIpset_tame (src : Ipset) : Ensures Tame (cloneIpset src) (fun _ => Tame) := by
  refine ensures_ite (fun _ _ tame => tame) fun _ => ensures_ite (fun _ _ tame => tame) fun _ => ?_
  exact ensures_bind (allocate_tame _) fun _ => ensures_ite (fun _ _ tame => tame) fun _ _ tame => tame

section Updates
variable [Leftover Iprange]

def mergeInPlace : Update Ipset Iprange := updateOf addIprange

def purgeInPlace : Update Ipset Iprange := updateOf delIprange

theorem mergeInPlace_iff (cur arg : ℕ) (store : Store Ipset) :
    mergeInPlace.AllOrNothing cur arg store ↔ MergeStays (store (.named cur)) (store (.named arg)) :=
  (allOrNothing_iff cloneIpset_steady cloneIpset_tame addIprange_steady addIprange_remembers
    cur arg store).trans (mergeIpsets_tame_iff _ _)

theorem purgeInPlace_iff (cur arg : ℕ) (store : Store Ipset) :
    purgeInPlace.AllOrNothing cur arg store ↔ PurgeStays (store (.named cur)) (store (.named arg)) :=
  (allOrNothing_iff cloneIpset_steady cloneIpset_tame delIprange_steady delIprange_strays.remembers
    cur arg store).trans (purgeIpsets_tame_iff _ _)

end Updates

end IpSet

namespace PortSet
open Requests ScratchCopy

/-- `clone_portset` fills in the count before it asks for memory, which a caller
whose call fails does not read. -/
def mergeInPlace : Update Portset Portrange := ⟨Portset.ranges, clonePortset, mergePortset, freePortset⟩

theorem granted_tame {ρ : Type} (bytes : ℕ) (x y : ρ) : Ensures Tame (do
    if ← allocate bytes then pure (true, x) else pure (false, y)) (fun _ => Tame) :=
  ensures_bind (allocate_tame bytes) fun _ => ensures_ite (fun _ _ tame => tame) fun _ _ tame => tame

theorem granted_remembers {ρ : Type} (bytes : ℕ) (x y : ρ) : Remembers (do
    if ← allocate bytes then pure (true, x) else pure (false, y)) :=
  remembers_bind (remembers_allocate bytes) fun _ => remembers_ite (remembers_pure _) (remembers_pure _)

theorem mergePortset_cases {post : Request (Bool × Portset) → Prop} (done : ∀ p, post (pure (true, p)))
    (asks : ∀ bytes x y, post (do if ← allocate bytes then pure (true, x) else pure (false, y)))
    (p : Portset) (merge : Portrange) : post (mergePortset p merge) := by
  unfold mergePortset
  dsimp only
  cases p.ranges[skipRanges merge p.ranges]? with
  | none => exact asks _ _ _
  | some cur =>
    exact iteInduction (fun _ => asks _ _ _) fun _ => iteInduction (fun _ => done _) fun _ => done _

theorem clonePortset_cases {post : Request (Bool × Portset) → Prop} (done : ∀ p, post (pure (true, p)))
    (asks : ∀ bytes x y, post (do if ← allocate bytes then pure (true, x) else pure (false, y)))
    (src : Portset) : post (clonePortset src) := by
  unfold clonePortset
  split_ifs
  · exact done _
  · exact asks _ _ _

theorem mergePortset_steady (p : Portset) (merge : Portrange) :
    Steady (fun q => q.1 = true) (mergePortset p merge) :=
  mergePortset_cases (fun _ => steady_pure _) (fun _ _ _ => steady_granted _ _ _) p merge

theorem clonePortset_steady (src : Portset) : Steady (fun q => q.1 = true) (clonePortset src) :=
  clonePortset_cases (fun _ => steady_pure _) (fun _ _ _ => steady_granted _ _ _) src

theorem mergePortset_tame (p : Portset) (merge : Portrange) :
    Ensures Tame (mergePortset p merge) (fun _ => Tame) :=
  @mergePortset_cases (Ensures Tame · fun _ => Tame) (fun _ _ tame => tame) granted_tame p merge

theorem clonePortset_tame (src : Portset) : Ensures Tame (clonePortset src) (fun _ => Tame) :=
  @clonePortset_cases (Ensures Tame · fun _ => Tame) (fun _ _ tame => tame) granted_tame src

theorem mergePortsets_tame (portsum add : Portset) :
    Ensures Tame (mergePortsets portsum add) (fun _ => Tame) := by
  refine ensures_bind (clonePortset_tame portsum) fun q => ensures_ite (fun _ => ?_) fun _ _ tame => tame
  exact ensures_bind (@untilFailure_preserves _ _ mergePortset (fun _ => Tame) add.ranges
    (fun r _ p => mergePortset_tame p r) q.2) fun _ _ tame => tame

theorem inPlace_eq (damage : Store Portset → Store Portset) (cur arg : ℕ) (store : Store Portset) {h : Heap}
    (tame : Tame h) :
    (mergeInPlace.run damage cur arg store h).1.1 =
        (mergePortsets (store (.named cur)) (store (.named arg)) h).1.1 ∧
      (mergeInPlace.run damage cur arg store h).2 =
        (mergePortsets (store (.named cur)) (store (.named arg)) h).2 ∧
      ∀ n, (mergeInPlace.run damage cur arg store h).1.2 (.named n) =
        if n = cur then (mergePortsets (store (.named cur)) (store (.named arg)) h).1.2
        else store (.named n) :=
  run_eq (fun p => mergePortset_cases (fun _ => remembers_pure _) granted_remembers p) cur arg store h
    (mergePortsets_tame _ _ h tame)

instance : Nontrivial Portset := ⟨initPortset, ⟨[⟨0, 0⟩]⟩, by decide⟩

theorem mergeInPlace_allOrNothing (cur arg : ℕ) (store : Store Portset) :
    mergeInPlace.AllOrNothing cur arg store :=
  (allOrNothing_iff clonePortset_steady clonePortset_tame mergePortset_steady
    (fun p => mergePortset_cases (fun _ => remembers_pure _) granted_remembers p) cur arg store).mpr
    (mergePortsets_tame _ _)

end PortSet

open Buffers ScratchCopy IpSet

theorem set_updates_all_or_nothing_iff [Leftover Iprange] (cur arg : ℕ) :
    (∀ store : Store Ipset,
      (IpSet.mergeInPlace.AllOrNothing cur arg store ↔
        MergeStays (store (.named cur)) (store (.named arg))) ∧
      (purgeInPlace.AllOrNothing cur arg store ↔
        PurgeStays (store (.named cur)) (store (.named arg)))) ∧
      ∀ store : Store PortSet.Portset, PortSet.mergeInPlace.AllOrNothing cur arg store :=
  ⟨fun store => ⟨mergeInPlace_iff cur arg store, purgeInPlace_iff cur arg store⟩,
    PortSet.mergeInPlace_allOrNothing cur arg⟩

open scoped Zeroed in
/-- {1, 5} is left of {1, 3, 5}, and 7 is stored past its copy, over the first range
of the set itself; there is then no memory for the 9. -/
theorem shrunken_target_changed :
    let store : Store Ipset := fun
      | .named 0 => ⟨[⟨1, 1⟩, ⟨5, 5⟩], 3, 3⟩
      | .named _ => ⟨[⟨7, 7⟩, ⟨9, 9⟩], 2, 2⟩
      | .scratch => initIpset
    let damage := fun store : Store Ipset => Function.update store (.named 0) ⟨[⟨7, 7⟩, ⟨5, 5⟩], 3, 3⟩
    let run := IpSet.mergeInPlace.run damage 0 1 store ⟨[true, false], false⟩
    run.1.1 = false ∧ run.1.2 (.named 0) ≠ store (.named 0) := by
  decide

end Libdank
