import Libdank.IpSet.Canonical

/-! What failed requests do to the operations on sets: they can make a call
fail, but not change what a call that succeeds leaves behind. -/
namespace Libdank.IpSet
open Requests Buffers

abbrev Well (q : Bool × Ipset) : Prop := q.1 = true

section Operations
variable [Leftover Iprange]

theorem extendIpset_steady (i : Ipset) : Steady Well (extendIpset i) :=
  steady_ite (steady_granted _ _ _) (steady_pure _)

theorem fill_steady (i : Ipset) (fill : List Iprange → List Iprange) :
    Steady Well (do
      let (ok, i) ← extendIpset i
      if ok then
        store i.rangecount i.cells
        pure (true, { i with ranges := fill i.ranges })
      else pure (false, i)) := by
  refine steady_then (extendIpset_steady i) (fun j => ?_) fun j => ⟨j, rfl⟩
  exact steady_bind (steady_store _ _) (fun _ => steady_pure _) fun _ absurd_ => absurd trivial absurd_

theorem appendIpset_steady (i : Ipset) (ir : Iprange) : Steady Well (appendIpset i ir) :=
  fill_steady i (· ++ [ir])

theorem insertIpset_steady (i : Ipset) (pre : ℕ) (ir : Iprange) :
    Steady Well (insertIpset i pre ir) :=
  fill_steady i fun rs => rs.take pre ++ ir :: rs.drop pre

theorem addIprange_steady (i : Ipset) (merge : Iprange) : Steady Well (addIprange i merge) := by
  unfold addIprange
  dsimp only
  cases i.ranges[skipRanges merge i.ranges]? with
  | none => exact appendIpset_steady i merge
  | some cur =>
    exact steady_ite (insertIpset_steady _ _ _) (steady_ite (steady_pure _) (steady_pure _))

theorem delLoop_steady (cut : Iprange) (is : Ipset) (z : ℕ) (rest : List Iprange) :
    Steady Well (delLoop cut is z rest) := by
  induction rest generalizing is z with
  | nil => exact steady_pure _
  | cons cur rest ih =>
    rw [delLoop]
    refine steady_ite (ih _ _) (steady_ite (steady_ite (steady_pure _) (ih _ _))
      (steady_ite (ih _ _) ?_))
    exact steady_then (insertIpset_steady _ _ _) (fun _ => steady_pure _) fun js => ⟨js, rfl⟩

theorem delIprange_steady (is : Ipset) (cut : Iprange) : Steady Well (delIprange is cut) :=
  delLoop_steady cut is 0 is.ranges

end Operations

theorem cloneIpset_steady (src : Ipset) : Steady Well (cloneIpset src) :=
  steady_ite (steady_pure _) (steady_ite (steady_pure _) (steady_granted _ _ _))

theorem rebuild_steady {op : Ipset → Iprange → Request (Bool × Ipset)}
    (steady : ∀ i ir, Steady Well (op i ir)) (cur arg : Ipset) : Steady Well (rebuild op cur arg) := by
  refine steady_then (cloneIpset_steady cur) (fun dup => ?_) fun dup => ⟨cur, rfl⟩
  exact steady_then (steady_untilFailure steady dup arg.ranges) (fun _ => steady_pure _)
    fun dup' => ⟨cur, rfl⟩

end Libdank.IpSet
