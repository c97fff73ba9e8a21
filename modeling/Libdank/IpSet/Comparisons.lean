import Libdank.IpSet.Operations

/-! The functions of `objects/ipset.c` that compare sets. They read the ranges
alone. -/
namespace Libdank.IpSet

def ipInRange (ir : Iprange) (ip : UInt32) : Bool := ir.lower ≤ ip ∧ ip ≤ ir.upper

def inRanges (ip : UInt32) : List Iprange → Bool
  | [] => false
  | r :: rest => if ip < r.lower then false else if ip ≤ r.upper then true else inRanges ip rest

def ipInSet (is : Ipset) (ip : UInt32) : Bool := inRanges ip is.ranges

def iprangeClashes (is : Ipset) (ir : Iprange) : Bool :=
  is.ranges.any fun cur =>
    if ir.upper ≤ cur.upper ∧ cur.lower ≤ ir.upper then true
    else if ir.lower ≤ cur.upper ∧ cur.lower ≤ ir.lower then true
    else ir.lower ≤ cur.lower ∧ cur.upper ≤ ir.upper

/-- The ranges have no padding, so `memcmp` finds them equal just when they are. -/
def ipsetsEqual (i0 i1 : Ipset) : Bool :=
  if i0.rangecount ≠ i1.rangecount then false
  else if i0.rangecount = 0 then true
  else i0.ranges = i1.ranges

def ipsetsClash (i0 i1 : Ipset) : Bool := i1.ranges.any (iprangeClashes i0)

/-- The inner loop of `ipset_encloses`: the first range that holds the lower end
of `isub` decides. -/
def enclosedIn (isub : Iprange) : List Iprange → Bool
  | [] => false
  | i :: rest => if ipInRange i isub.lower then ipInRange i isub.upper else enclosedIn isub rest

def ipsetEncloses (is ipsub : Ipset) : Bool := ipsub.ranges.all fun isub => enclosedIn isub is.ranges

def rangesCmp : List Iprange → List Iprange → ℤ
  | [], [] => 0
  | [], _ :: _ => -1
  | _ :: _, [] => 1
  | r0 :: rest0, r1 :: rest1 =>
    if r0.lower < r1.lower then -1
    else if r0.lower > r1.lower then 1
    else if r0.upper < r1.upper then -1
    else if r0.upper > r1.upper then 1
    else rangesCmp rest0 rest1

def ipsetCmp (is0 is1 : Ipset) : ℤ := rangesCmp is0.ranges is1.ranges

end Libdank.IpSet
