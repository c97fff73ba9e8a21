import Libdank.IpSet.Queries
import Libdank.IpSet.Routes
import Libdank.Netlink.Operations

/-! The addresses that are local by the routes of `RT_TABLE_LOCAL`. -/
namespace Libdank.Netlink
open IpSet

def rtTableLocal : ℕ := 255

def Route.contains (r : Route) (ip : UInt32) : Bool :=
  match iprangeFromRoute r.dst r.bits with
  | some ir => ipInRange ir ip
  | none => false

def ipIsLocal (nics : List Nic) (ip : UInt32) : ℤ :=
  if nics.any fun n => n.routes.any fun r => r.table = rtTableLocal && r.contains ip then 1 else 0

theorem contains_iff (r : Route) (ip : UInt32) :
    r.contains ip = true ↔ r.bits ≤ 32 ∧ SharesBits r.bits r.dst ip := by
  rcases Nat.lt_or_ge 32 r.bits with long | le
  · rw [Route.contains, iprangeFromRoute, if_pos long]
    exact iff_of_false Bool.false_ne_true (fun both => absurd both.1 (Nat.not_le.mpr long))
  · rw [Route.contains, iprangeFromRoute_eq r.dst le, and_iff_right le]
    exact ipInRange_iff.trans (mem_iprangeFromRoute le (iprangeFromRoute_eq r.dst le) ip)

/-- A route covers what shares its prefix, and an address is local where such a route of the local
table covers it. -/
theorem ipIsLocal_iff :
    (∀ (dst : UInt32) (bits : ℕ), bits ≤ 32 → ∃ ir, iprangeFromRoute dst bits = some ir ∧
      ∀ x, x ∈ ir.addresses ↔ SharesBits bits dst x) ∧
    ∀ (nics : List Nic) (ip : UInt32), ipIsLocal nics ip =
      if ∃ n ∈ nics, ∃ r ∈ n.routes, r.table = rtTableLocal ∧ r.bits ≤ 32 ∧ SharesBits r.bits r.dst ip
      then 1 else 0 := by
  constructor
  · intro dst bits le
    exact ⟨_, iprangeFromRoute_eq dst le, mem_iprangeFromRoute le (iprangeFromRoute_eq dst le)⟩
  · intro nics ip
    unfold ipIsLocal
    simp only [List.any_eq_true, Bool.and_eq_true, decide_eq_true_eq, contains_iff]

theorem ipIsLocal_iff_loopback : ∃ ir, iprangeFromRoute 0x7f000000 8 = some ir ∧
    ∀ x, x ∈ ir.addresses ↔ SharesBits 8 0x7f000000 x :=
  ipIsLocal_iff.1 0x7f000000 8 (by decide)

example : ipIsLocal [⟨1, [⟨0x7f000000, 0, 8, 255, 2⟩], [], 0⟩] 0x7f000001 = 1 := by decide

end Libdank.Netlink
