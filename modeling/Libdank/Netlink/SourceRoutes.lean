import Libdank.Netlink.LocalAddresses

/-! The source address for a set of addresses. It is that of the first route in the table that
covers the set, whatever other routes cover it, and however much better. -/
namespace Libdank.Netlink
open IpSet

/-- One round of the inner loop, `none` where it goes on. A route that is no range ends the search. -/
def tryRoute (i : Ipset) (srcaddr : UInt32) (r : Route) : Option (Option UInt32) :=
  match iprangeFromRoute r.dst r.bits with
  | none => some none
  | some ir =>
    if ipsetEncloses ⟨[ir], 1, 1⟩ i then some (some (if r.src = 0 then srcaddr else r.src)) else none

def srcrouteToIpset (nics : List Nic) (i : Ipset) : Option UInt32 :=
  (nics.findSome? fun n => n.routes.findSome? (tryRoute i n.srcaddr)).join

def routesOf (nics : List Nic) : List (UInt32 × Route) :=
  nics.flatMap fun n => n.routes.map fun r => (n.srcaddr, r)

/-- Every address of the set has the prefix of the route. -/
def Route.Covers (r : Route) (i : Ipset) : Prop :=
  r.bits ≤ 32 ∧ ∀ x ∈ addresses i.ranges, SharesBits r.bits r.dst x

def source (e : UInt32 × Route) : UInt32 := if e.2.src = 0 then e.1 else e.2.src

theorem srcroute_search (nics : List Nic) (i : Ipset) :
    srcrouteToIpset nics i = ((routesOf nics).findSome? fun e => tryRoute i e.1 e.2).join := by
  rw [srcrouteToIpset, routesOf, findSome_flatMap]
  simp only [List.findSome?_map]
  rfl

theorem tryRoute_eq {i : Ipset} (canonical : Canonical i.ranges) (e : UInt32 × Route) :
    (32 < e.2.bits ∧ tryRoute i e.1 e.2 = some none) ∨
      (e.2.Covers i ∧ tryRoute i e.1 e.2 = some (some (source e))) ∨
      (e.2.bits ≤ 32 ∧ ¬ e.2.Covers i ∧ tryRoute i e.1 e.2 = none) := by
  rcases Nat.lt_or_ge 32 e.2.bits with long | le
  · refine .inl ⟨long, ?_⟩
    rw [tryRoute, iprangeFromRoute, if_pos long]
  have block := iprangeFromRoute_eq e.2.dst le
  have members := mem_iprangeFromRoute le block
  generalize blockRange e.2.dst e.2.bits = ir at block members
  have up : ir.lower ≤ ir.upper := by
    have own : e.2.dst ∈ ir.addresses := (members _).mpr fun _ _ => rfl
    exact UInt32.le_trans own.1 own.2
  have one : Canonical [ir] := ⟨by simpa using up, by simp⟩
  have encloses := @ipsetEncloses_iff ⟨[ir], 1, 1⟩ i one canonical.ordered
  have covers : ipsetEncloses ⟨[ir], 1, 1⟩ i = true ↔ e.2.Covers i := by
    rw [encloses, Route.Covers, and_iff_right le]
    refine forall₂_congr fun x _ => ?_
    simp only [addresses, List.mem_singleton, exists_eq_left, Set.mem_ofPred_eq]
    exact members x
  simp only [tryRoute, block]
  by_cases all : e.2.Covers i
  · exact .inr (.inl ⟨all, by rw [if_pos (covers.mpr all)]; rfl⟩)
  · exact .inr (.inr ⟨le, all, by rw [if_neg fun yes => all (covers.mp yes)]⟩)

/-- A source address is found just when the first route of the table that covers the set, or has
more than 32 bits, is one that covers it; it is that route's. A longer prefix further on in the table
goes for nothing, and so does a second route. -/
theorem srcrouteToIpset_iff {i : Ipset} (canonical : Canonical i.ranges) (nics : List Nic) (src : UInt32) :
    srcrouteToIpset nics i = some src ↔ ∃ before e after, routesOf nics = before ++ e :: after ∧
      (∀ p ∈ before, p.2.bits ≤ 32 ∧ ¬ p.2.Covers i) ∧ e.2.Covers i ∧ source e = src := by
  rw [srcroute_search, Option.join_eq_some_iff, List.findSome?_eq_some_iff]
  refine exists_congr fun before => exists_congr fun e => exists_congr fun after => and_congr_right fun _ => ?_
  rw [and_comm]
  refine and_congr (forall₂_congr fun p _ => ?_) ?_
  · rcases tryRoute_eq canonical p with ⟨long, eq⟩ | ⟨covers, eq⟩ | ⟨le, not_, eq⟩ <;> rw [eq]
    · exact iff_of_false (fun same => by cases same) fun both => absurd both.1 (by omega)
    · exact iff_of_false (fun same => by cases same) fun both => both.2 covers
    · exact iff_of_true rfl ⟨le, not_⟩
  · rcases tryRoute_eq canonical e with ⟨long, eq⟩ | ⟨covers, eq⟩ | ⟨le, not_, eq⟩ <;> rw [eq]
    · exact iff_of_false (fun same => by cases same) fun both => absurd both.1.1 (by omega)
    · simp [covers]
    · exact iff_of_false (fun same => by cases same) fun both => not_ both.1

/-- A default route in front of one that is for the address alone. -/
theorem srcrouteToIpset_default :
    srcrouteToIpset [⟨1, [⟨0, 7, 0, 254, 1⟩, ⟨0x0a000001, 9, 32, 254, 1⟩], [], 0⟩]
      ⟨[⟨0x0a000001, 0x0a000001⟩], 1, 1⟩ = some 7 :=
  (srcrouteToIpset_iff ⟨by simp, by simp⟩ _ _).mpr
    ⟨[], (0, ⟨0, 7, 0, 254, 1⟩), _, rfl, by simp, ⟨by decide, fun _ _ _ none_ => absurd none_ (Nat.not_lt_zero _)⟩,
      by decide⟩

end Libdank.Netlink
