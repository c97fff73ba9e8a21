import Libdank.Foundation.Buffers
import Libdank.Foundation.Requests

/-! The set operations of `objects/ipset.c`, branch by branch and with the
32-bit arithmetic of the source. `ranges` lists the cells below `rangecount`;
`cells` counts the cells really allocated behind the pointer, which the source
never records and only `maxranges` is meant to bound. A range stored past them
is read back until the block is moved, which copies the block alone. Results
travel as a pair of the return code, `true` for 0, and the set as the call
leaves it. -/
namespace Libdank.IpSet
open Requests Buffers

structure Iprange where
  lower : UInt32
  upper : UInt32
deriving DecidableEq, Repr

structure Ipset where
  ranges : List Iprange
  maxranges : ℕ
  cells : ℕ
deriving DecidableEq, Repr

def Ipset.rangecount (i : Ipset) : ℕ := i.ranges.length

def sizeofIprange : ℕ := 8

def iprangeAll : Iprange := ⟨0, 0xffffffff⟩

namespace Zeroed

/-- Blocks that come zeroed. -/
scoped instance blocks : Leftover Iprange := ⟨fun _ => ⟨0, 0⟩⟩

end Zeroed

def initIprange (lower upper : UInt32) : Iprange :=
  if lower > upper then ⟨upper, lower⟩ else ⟨lower, upper⟩

def initIpset : Ipset := ⟨[], 0, 0⟩

def freeIpset (_ : Ipset) : Ipset := initIpset

section
variable [Leftover Iprange]

def Ipset.moved (i : Ipset) : List Iprange :=
  regrow Leftover.junk (i.ranges.take i.cells) i.rangecount

/-- Makes room for one more range. The cell it opens is filled at once by both
callers, so the list itself grows there. -/
def extendIpset (i : Ipset) : Request (Bool × Ipset) :=
  if i.rangecount = i.maxranges then do
    if ← allocate (sizeofIprange * (i.rangecount + 1)) then
      pure (true, ⟨i.moved, i.rangecount + 1, i.rangecount + 1⟩)
    else pure (false, i)
  else pure (true, i)

def appendIpset (i : Ipset) (ir : Iprange) : Request (Bool × Ipset) := do
  let (ok, i) ← extendIpset i
  if ok then
    store i.rangecount i.cells
    pure (true, { i with ranges := i.ranges ++ [ir] })
  else pure (false, i)

/-- The highest cell written is the new last one: by the move upwards, or, when
nothing lies at or above `pre`, by the range itself. -/
def insertIpset (i : Ipset) (pre : ℕ) (ir : Iprange) : Request (Bool × Ipset) := do
  let (ok, i) ← extendIpset i
  if ok then
    store i.rangecount i.cells
    pure (true, { i with ranges := i.ranges.take pre ++ ir :: i.ranges.drop pre })
  else pure (false, i)

end

def removeIpset (i : Ipset) (at_ count : ℕ) : Ipset :=
  let ranges := i.ranges.take at_ ++ i.ranges.drop (at_ + count)
  if ranges.length = 0 then initIpset else { i with ranges := ranges }

def Ipset.setRange (i : Ipset) (z : ℕ) (ir : Iprange) : Ipset :=
  { i with ranges := i.ranges.set z ir }

def skipRanges (merge : Iprange) : List Iprange → ℕ
  | [] => 0
  | cur :: rest =>
    if merge.lower ≤ cur.upper + 1 then 0
    else if cur.upper = 0xffffffff then 0
    else skipRanges merge rest + 1

def eatRanges (upper : UInt32) : List Iprange → ℕ × UInt32
  | [] => (0, upper)
  | tmp :: rest =>
    if upper < tmp.lower - 1 ∧ tmp.lower ≠ 0 then (0, upper)
    else
      let (eaten, last) := eatRanges (if tmp.upper > upper then tmp.upper else upper) rest
      (eaten + 1, last)

section
variable [Leftover Iprange]

def addIprange (i : Ipset) (merge : Iprange) : Request (Bool × Ipset) :=
  let z := skipRanges merge i.ranges
  match i.ranges[z]? with
  | none => appendIpset i merge
  | some cur =>
    if merge.upper + 1 < cur.lower ∧ merge.upper ≠ 0xffffffff then insertIpset i z merge
    else
      let cur := if merge.lower ≤ cur.lower - 1 ∧ cur.lower ≠ 0 then
        { cur with lower := merge.lower } else cur
      if merge.upper > cur.upper then
        let (eaten, upper) := eatRanges merge.upper (i.ranges.drop (z + 1))
        let i := i.setRange z { cur with upper := upper }
        pure (true, if 0 < eaten then removeIpset i (z + 1) eaten else i)
      else pure (true, i.setRange z cur)

def delLoop (cut : Iprange) (is : Ipset) (z : ℕ) : List Iprange → Request (Bool × Ipset)
  | [] => pure (true, is)
  | cur :: rest =>
    if cut.lower > cur.upper ∨ cut.upper < cur.lower then delLoop cut is (z + 1) rest
    else if cut.lower ≤ cur.lower then
      if cur.upper > cut.upper then
        pure (true, is.setRange z { cur with lower := cut.upper + 1 })
      else delLoop cut (removeIpset is z 1) z rest
    else if cut.upper ≥ cur.upper then
      delLoop cut (is.setRange z { cur with upper := cut.lower - 1 }) (z + 1) rest
    else do
      let (ok, is) ← insertIpset is z (initIprange cur.lower (cut.lower - 1))
      pure (ok, if ok then is.setRange (z + 1) { cur with lower := cut.upper + 1 } else is)

def delIprange (is : Ipset) (cut : Iprange) : Request (Bool × Ipset) :=
  delLoop cut is 0 is.ranges

end

/-- The copy takes over `maxranges`, but only `rangecount` cells are allocated
for it. -/
def cloneIpset (src : Ipset) : Request (Bool × Ipset) :=
  if src.rangecount > src.maxranges then pure (false, initIpset)
  else if sizeofIprange * src.rangecount = 0 then pure (true, initIpset)
  else do
    if ← allocate (sizeofIprange * src.rangecount) then
      pure (true, ⟨src.ranges, src.maxranges, src.rangecount⟩)
    else pure (false, initIpset)

/-- The common body of `mergeIpsets` and `purgeIpsets`: the change is made to a
copy, which replaces the set only once every range of `arg` has gone in. -/
def rebuild (op : Ipset → Iprange → Request (Bool × Ipset)) (cur arg : Ipset) :
    Request (Bool × Ipset) := do
  let (ok, curdup) ← cloneIpset cur
  if ok then
    let (ok, curdup) ← untilFailure op curdup arg.ranges
    pure (ok, if ok then curdup else cur)
  else pure (false, cur)

def mergeIpsets [Leftover Iprange] : Ipset → Ipset → Request (Bool × Ipset) := rebuild addIprange

def purgeIpsets [Leftover Iprange] : Ipset → Ipset → Request (Bool × Ipset) := rebuild delIprange

end Libdank.IpSet
