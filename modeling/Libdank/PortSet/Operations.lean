import Libdank.Foundation.Requests

/-! The set operations of `objects/portset.c`. Ports are 16 bits wide and every
comparison with a neighbour is made after promotion to `int`, so nothing wraps
there; assignments back to a port do truncate. Unlike the IP sets no capacity
is kept: every insertion reallocates. -/
namespace Libdank.PortSet
open Requests

structure Portrange where
  lower : UInt16
  upper : UInt16
deriving DecidableEq, Repr

/-- `ranges` lists the cells below `rangecount`. -/
structure Portset where
  ranges : List Portrange
deriving DecidableEq, Repr

def Portset.rangecount (p : Portset) : ℕ := p.ranges.length

def sizeofPortrange : ℕ := 4

def int (port : UInt16) : ℤ := port.toNat

def initPortrange (lower upper : UInt32) : Portrange :=
  if lower > upper then ⟨upper.toUInt16, lower.toUInt16⟩ else ⟨lower.toUInt16, upper.toUInt16⟩

def initPortset : Portset := ⟨[]⟩

def extendPortset (p : Portset) : Request Bool :=
  allocate (sizeofPortrange * (p.rangecount + 1))

def appendPortset (p : Portset) (pr : Portrange) : Request (Bool × Portset) := do
  if ← extendPortset p then pure (true, ⟨p.ranges ++ [pr]⟩) else pure (false, p)

def insertPortset (p : Portset) (pre : ℕ) (pr : Portrange) : Request (Bool × Portset) := do
  if ← extendPortset p then pure (true, ⟨p.ranges.take pre ++ pr :: p.ranges.drop pre⟩)
  else pure (false, p)

def removePortset (p : Portset) (at_ count : ℕ) : Portset :=
  ⟨p.ranges.take at_ ++ p.ranges.drop (at_ + count)⟩

def Portset.setRange (p : Portset) (z : ℕ) (pr : Portrange) : Portset := ⟨p.ranges.set z pr⟩

def skipRanges (merge : Portrange) : List Portrange → ℕ
  | [] => 0
  | cur :: rest =>
    if int merge.lower ≤ int cur.upper + 1 ∨ cur.upper = 0xffff then 0
    else skipRanges merge rest + 1

def eatRanges (upper : UInt16) : List Portrange → ℕ × UInt16
  | [] => (0, upper)
  | tmp :: rest =>
    if int upper < int tmp.lower - 1 ∧ tmp.lower ≠ 0 then (0, upper)
    else
      let (eaten, last) := eatRanges (if tmp.upper > upper then tmp.upper else upper) rest
      (eaten + 1, last)

/-- The guard of the insertion asks for a nonzero `merge->upper`, where its
counterpart for IP ranges asks for one below the top of the space. -/
def mergePortset (p : Portset) (merge : Portrange) : Request (Bool × Portset) :=
  let z := skipRanges merge p.ranges
  match p.ranges[z]? with
  | none => appendPortset p merge
  | some cur =>
    if int merge.upper + 1 < int cur.lower ∧ merge.upper ≠ 0 then insertPortset p z merge
    else
      let cur := if int merge.lower ≤ int cur.lower - 1 ∧ cur.lower ≠ 0 then
        { cur with lower := merge.lower } else cur
      if merge.upper > cur.upper then
        let (eaten, upper) := eatRanges merge.upper (p.ranges.drop (z + 1))
        let p := p.setRange z { cur with upper := upper }
        pure (true, if 0 < eaten then removePortset p (z + 1) eaten else p)
      else pure (true, p.setRange z cur)

def clonePortset (src : Portset) : Request (Bool × Portset) :=
  if src.rangecount = 0 then pure (true, initPortset)
  else do
    if ← allocate (sizeofPortrange * src.rangecount) then pure (true, src)
    else pure (false, initPortset)

def mergePortsets (portsum add : Portset) : Request (Bool × Portset) := do
  let (ok, pstmp) ← clonePortset portsum
  if ok then
    let (ok, pstmp) ← untilFailure mergePortset pstmp add.ranges
    pure (ok, if ok then pstmp else portsum)
  else pure (false, portsum)

def cutLoop (cut : Portrange) (p : Portset) (z : ℕ) : List Portrange → Request (Bool × Portset)
  | [] => pure (true, p)
  | cur :: rest =>
    if cut.lower > cur.upper ∨ cut.upper < cur.lower then cutLoop cut p (z + 1) rest
    else if cut.lower ≤ cur.lower then
      if cur.upper > cut.upper then
        pure (true, p.setRange z { cur with lower := cut.upper + 1 })
      else cutLoop cut (removePortset p z 1) z rest
    else if cut.upper ≥ cur.upper then
      cutLoop cut (p.setRange z { cur with upper := cut.lower - 1 }) (z + 1) rest
    else do
      let (ok, p) ← insertPortset p z (initPortrange cur.lower.toUInt32 (cut.lower.toUInt32 - 1))
      pure (ok, if ok then p.setRange (z + 1) { cur with lower := cut.upper + 1 } else p)

def cutPortset (p : Portset) (cut : Portrange) : Request (Bool × Portset) :=
  cutLoop cut p 0 p.ranges

def containsLoop (port : UInt16) : List Portrange → Bool
  | [] => false
  | r :: rest =>
    if port < r.lower then false
    else if port ≤ r.upper then true
    else containsLoop port rest

def containsPort (p : Portset) (port : UInt16) : Bool := containsLoop port p.ranges

end Libdank.PortSet
