import Libdank.Foundation.OrderedTree
import Libdank.Foundation.Requests

/-! The operations of `objects/intervaltree.c`. Where the source hands on the
address of a child pointer, the model keeps the slot reached in the tree and
writes the result through it. -/
namespace Libdank.Intervals
open OrderedTree Requests

structure Interval where
  lbound : UInt32
  ubound : UInt32
  ordered : lbound ≤ ubound
deriving DecidableEq, Repr

structure Entry (α : Type) where
  ival : Interval
  data : Pointer α
deriving DecidableEq

abbrev IntervalTree (α : Type) := BinaryTree (Entry α)

variable {α : Type}

def sizeofIntervalTree : ℕ := 32

def sizeofPointer : ℕ := 8

def createIntervalTreeNode (ival : Interval) (v : Pointer α) :
    Request (Option (IntervalTree α)) := do
  if ← allocate sizeofIntervalTree then pure (some (.node ⟨ival, v⟩ .nil .nil)) else pure none

def intervalsEqual (i1 i2 : Interval) : Bool := i1.lbound = i2.lbound && i1.ubound = i2.ubound

def side (ival : Interval) (e : Entry α) : Ordering :=
  if ival.ubound < e.ival.lbound then .lt
  else if e.ival.ubound < ival.lbound then .gt
  else .eq

def insertIntervalTree (it : IntervalTree α) (ival : Interval) (v : Pointer α) :
    Request (Bool × IntervalTree α) :=
  let slot := reach (side ival) it
  match slot.here with
  | .nil => do
    match ← createIntervalTreeNode ival v with
    | some new => pure (true, slot.fill new)
    | none => pure (false, it)
  | .node _ _ _ => pure (false, it)

def freed (freefxn : Bool) (data : Pointer α) : List (Pointer α) := if freefxn then [data] else []

/-- The last component is what has been passed to `freefxn`. -/
def replaceIntervalTree (it : IntervalTree α) (ival : Interval) (v : Pointer α)
    (freefxn : Bool) : Request (Bool × IntervalTree α × List (Pointer α)) :=
  let slot := reach (side ival) it
  match slot.here with
  | .nil => do
    match ← createIntervalTreeNode ival v with
    | some new => pure (true, slot.fill new, [])
    | none => pure (false, it, [])
  | .node e l r =>
    if intervalsEqual e.ival ival then
      pure (true, slot.fill (.node { e with data := v } l r), freed freefxn e.data)
    else pure (false, it, [])

def spliceOutNode (l r : IntervalTree α) : IntervalTree α :=
  match l, r with
  | .nil, r => r
  | l, .nil => l
  | l, r => hangLeft l r

def removeIntervalTree (it : IntervalTree α) (ival : Interval) (freefxn : Bool) :
    Bool × IntervalTree α × List (Pointer α) :=
  let slot := reach (side ival) it
  match slot.here with
  | .nil => (false, it, [])
  | .node e l r =>
    if intervalsEqual e.ival ival then
      (true, slot.fill (spliceOutNode l r), freed freefxn e.data)
    else (false, it, [])

/-- The data of the interval taken out, or `none` if the call fails. -/
def extractIntervalTree (it : IntervalTree α) (ival : Interval) :
    Option (Pointer α) × IntervalTree α :=
  let slot := reach (side ival) it
  match slot.here with
  | .nil => (none, it)
  | .node e l r =>
    if intervalsEqual e.ival ival then (some e.data, slot.fill (spliceOutNode l r))
    else (none, it)

def keyInInterval (ival : Interval) (key : UInt32) : Bool :=
  key ≥ ival.lbound && key ≤ ival.ubound

def lookupIntervalTree (key : UInt32) : IntervalTree α → Pointer α
  | .nil => none
  | .node e l r =>
    if keyInInterval e.ival key then e.data
    else if key < e.ival.lbound then lookupIntervalTree key l
    else lookupIntervalTree key r

def depthIntervalTree : IntervalTree α → UInt32
  | .nil => 0
  | .node _ l r =>
    let lm := depthIntervalTree l
    let rm := depthIntervalTree r
    (if lm > rm then lm else rm) + 1

def populationIntervalTree : IntervalTree α → UInt32
  | .nil => 0
  | .node _ l r => populationIntervalTree l + populationIntervalTree r + 1

def linearizeIntervalTree : IntervalTree α → IntervalTree α
  | .nil => .nil
  | .node e l r => hangRight (.node e .nil (linearizeIntervalTree r)) (linearizeIntervalTree l)

def vectorizeList : ℕ → IntervalTree α → List (Entry α)
  | 0, _ | _, .nil => []
  | count + 1, .node e _ r => e :: vectorizeList count r

def bbstizeVector (it : List (Entry α)) (count : ℕ) : IntervalTree α :=
  if count = 0 then .nil
  else match it[count / 2]? with
    | none => .nil
    | some ret => .node ret (bbstizeVector it (count / 2))
        (bbstizeVector (it.drop (count / 2 + 1)) (count - count / 2 - 1))
termination_by count

/-- Without the vector the tree is left in its linear form. -/
def balanceIntervalTree (it : IntervalTree α) : Request (IntervalTree α) := do
  let upop := (populationIntervalTree it).toNat
  let it := linearizeIntervalTree it
  if ← allocate (sizeofPointer * upop) then pure (bbstizeVector (vectorizeList upop it) upop)
  else pure it

end Libdank.Intervals
