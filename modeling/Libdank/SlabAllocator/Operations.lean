import Libdank.Foundation.Requests
import Libdank.Foundation.Buffers
import Libdank.Magic
import Mathlib.Data.PNat.Basic

/-! The slab allocator of `objects/slalloc.c`. Its objects lie in blocks of
pages, with one usemap of machine words for each block; the blocks that have
room are linked through the array that holds the usemaps. `w` is the number of
bits of a `uint_fast32_t`. Counts are naturals, reduced where the source's
`unsigned` can wrap. Where the pages of a new block are mapped is an argument
of the calls that may map them; no page is ever mapped at NULL. -/
namespace Libdank.SlabAllocator
open Requests Buffers Magic

/-- The sizes an allocator is created with. They never change, so the two
counts stored beside them are computed here. -/
structure Layout (w : ℕ) where
  objsize : ℕ
  pgsize : ℕ
  word : 32 ≤ w ∧ w ≤ 64
  nonempty : 0 < objsize
  fits : objsize ≤ pgsize
  int : pgsize < 2 ^ 31
deriving DecidableEq, Repr

variable {w : ℕ}

namespace Layout

def objsperpage (l : Layout w) : ℕ := l.pgsize / l.objsize

/-- `ppb & -ppb` keeps the lowest bit alone. -/
def pagesperblock (l : Layout w) : ℕ :=
  let ppb := w / l.objsperpage
  if ppb = 0 then 1 else ppb &&& (2 ^ 32 - ppb)

def objsperblock (l : Layout w) : ℕ := l.objsperpage * l.pagesperblock

def objwordsperblock (l : Layout w) : ℕ :=
  l.objsperblock / w + if l.objsperblock % w = 0 then 0 else 1

def objsperthisword (l : Layout w) (z : ℕ) : ℕ :=
  if z < l.objwordsperblock then w else l.objsperblock % w

end Layout

/-- A `pgdata *`. Every growth moves the array of usemaps, and the pointers
made before it no longer lead anywhere. -/
structure Node where
  generation : ℕ
  index : ℕ
deriving DecidableEq, Repr

/-- `held` is false of a usemap that is NULL or was freed. -/
structure Pgdata (w : ℕ) where
  usemap : List (BitVec w)
  held : Bool
  unallocated : ℕ
  nextNonfull : Pointer Node
deriving DecidableEq, Repr

/-- What `realloc` leaves in a new cell of the array. -/
def Pgdata.unset : Pgdata w := ⟨[], false, 0, none⟩

abbrev Bytes := ℕ → UInt8

/-- `generation` counts the moves of `usemaps`; `bytes` is what the address
space holds, of which the pages of the blocks are a part. -/
structure Slalloc (w : ℕ) where
  layout : Layout w
  blockcount : ℕ
  pgarray : List ℕ
  usemaps : List (Pgdata w)
  generation : ℕ
  nonfullUsemaps : Pointer Node
  bytes : Bytes

def zero (bytes : Bytes) (start len : ℕ) : Bytes :=
  fun a => if start ≤ a ∧ a < start + len then 0 else bytes a

def createSlalloc (word : 32 ≤ w ∧ w ≤ 64) (pgsiz : Int32) (bytes : Bytes) (objsize : ℕ) :
    Request (Pointer (Slalloc w)) :=
  if nonempty : objsize = 0 then pure none
  else if 0 < pgsiz.toInt then
    if fits : objsize ≤ pgsiz.toInt.toNat then do
      let ok ← allocate 56
      if ok then
        let int : pgsiz.toInt.toNat < 2 ^ 31 := by
          have := pgsiz.toInt_lt
          omega
        pure (some ⟨⟨objsize, pgsiz.toInt.toNat, word, Nat.pos_of_ne_zero nonempty, fits, int⟩,
          0, [], [], 0, none, bytes⟩)
      else pure none
    else pure none
  else pure none

def Slalloc.pgdata (s : Slalloc w) (block : ℕ) : Pgdata w := s.usemaps.getD block .unset

def Slalloc.object (s : Slalloc w) (block idx : ℕ) : ℕ :=
  s.pgarray.getD block 0 + idx / s.layout.objsperpage * s.layout.pgsize +
    idx % s.layout.objsperpage * s.layout.objsize

def firstUnused (z : ℕ) : List (BitVec w) → Option (ℕ × BitVec w)
  | [] => none
  | word :: rest =>
    let rmost := ~~~word &&& (word + 1)
    if rmost = 0 then firstUnused (z + 1) rest else some (z, rmost)

/-- The pointer to an address; there is nothing at 0. -/
def pointer (a : ℕ) : Pointer ℕ := if a = 0 then none else some a

def takeFirstUnused (s : Slalloc w) : Request (Pointer ℕ × Slalloc w) :=
  match s.nonfullUsemaps with
  | none => pure (none, s)
  | some map => do
    let pd := s.pgdata map.index
    visit (decide (map.generation = s.generation) && pd.held)
    match firstUnused 0 (pd.usemap.take s.layout.objwordsperblock) with
    | none => pure (none, s)
    | some (z, rmost) =>
      let unallocated := (pd.unallocated + (2 ^ 32 - 1)) % 2 ^ 32
      let pd' := { pd with usemap := pd.usemap.modify z (· ||| rmost), unallocated }
      pure (pointer (s.object map.index (z * w + uintlog2 rmost.toNat)),
        { s with
          usemaps := s.usemaps.set map.index pd'
          nonfullUsemaps := if unallocated = 0 then pd.nextNonfull else s.nonfullUsemaps })

def initUsemap (s : Slalloc w) (block : ℕ) : Request (Bool × Slalloc w) := do
  let ok ← allocate (w / 8 * s.layout.objwordsperblock)
  if ok then
    let pd := ⟨List.replicate s.layout.objwordsperblock 0, true, s.layout.objsperblock,
      s.nonfullUsemaps⟩
    pure (true, { s with
      usemaps := s.usemaps.set block pd
      nonfullUsemaps := some ⟨s.generation, block⟩ })
  else
    let pd := { s.pgdata block with usemap := [], held := false }
    pure (false, { s with usemaps := s.usemaps.set block pd })

def resetUsemap (s : Slalloc w) (block : ℕ) : Request (Slalloc w) := do
  let pd := s.pgdata block
  visit pd.held
  pure { s with usemaps := s.usemaps.set block { pd with held := false } }

def snatchContiguousPages (base : ℕ+) (bytes : Bytes) (pgsize pgs : ℕ) :
    Request (Pointer ℕ × Bytes) :=
  if pgs > 256 then pure (none, bytes)
  else do
    let ok ← allocate (pgsize * pgs)
    if ok then pure (some (base : ℕ), zero bytes base (pgsize * pgs)) else pure (none, bytes)

def fistfulOfPages (base : ℕ+) (bytes : Bytes) (pgsize order : ℕ) : Request (Pointer ℕ × Bytes) :=
  if order > 32 then pure (none, bytes)
  else snatchContiguousPages base bytes pgsize (2 ^ order)

/-- The usemap is in the list of blocks with room before the pages are asked
for, and a refusal of the pages leaves it there. -/
def addSlallocPage [Leftover ℕ] (base : ℕ+) (s : Slalloc w) : Request (Bool × Slalloc w) := do
  let count := (s.blockcount + 1) % 2 ^ 32
  let ok ← allocate (8 * count)
  if ok then
    let s := { s with pgarray := regrow Leftover.junk s.pgarray count }
    let ok ← allocate (24 * count)
    if ok then
      let s := { s with
        usemaps := regrow (fun _ => .unset) s.usemaps count
        generation := s.generation + 1 }
      let (ok, s) ← initUsemap s s.blockcount
      if ok then
        let (newpages, bytes) ←
          fistfulOfPages base s.bytes s.layout.pgsize (uintlog2 s.layout.pagesperblock)
        match newpages with
        | none =>
          let s ← resetUsemap s s.blockcount
          pure (false, s)
        | some newpages =>
          pure (true, { s with
            pgarray := s.pgarray.set s.blockcount newpages
            blockcount := (s.blockcount + 1) % 2 ^ 32
            bytes })
      else pure (false, s)
    else pure (false, s)
  else pure (false, s)

def slallocNew [Leftover ℕ] (base : ℕ+) (s : Slalloc w) : Request (Pointer ℕ × Slalloc w) := do
  let (ret, s) ← takeFirstUnused s
  match ret with
  | some obj => pure (some obj, s)
  | none =>
    let (ok, s) ← addSlallocPage base s
    if ok then takeFirstUnused s else pure (none, s)

def Slalloc.blockBytes (s : Slalloc w) : ℕ := s.layout.pgsize * s.layout.pagesperblock

def findBlockIdx (s : Slalloc w) (obj : ℕ) : ℕ :=
  s.pgarray.findIdx fun pages => decide (pages ≤ obj) && decide (obj < pages + s.blockBytes)

def slallocFree (s : Slalloc w) (obj : ℕ) : Request (Slalloc w) := do
  let idx := findBlockIdx s obj
  let distance := obj - s.pgarray.getD idx 0
  let objidx := distance / s.layout.pgsize * s.layout.objsperpage +
    distance % s.layout.pgsize / s.layout.objsize
  let mask := ~~~(1#w <<< (objidx % w))
  let pd := s.pgdata idx
  visit pd.held
  let pd' := { pd with
    usemap := pd.usemap.modify (objidx / w) (· &&& mask)
    unallocated := (pd.unallocated + 1) % 2 ^ 32
    nextNonfull := if pd.unallocated = 0 then s.nonfullUsemaps else pd.nextNonfull }
  pure { s with
    bytes := zero s.bytes obj s.layout.objsize
    usemaps := s.usemaps.set idx pd'
    nonfullUsemaps := if pd.unallocated = 0 then some ⟨s.generation, idx⟩ else s.nonfullUsemaps }

def Slalloc.visited (s : Slalloc w) : List ℕ :=
  (List.range s.blockcount).flatMap fun p =>
    (List.range s.layout.objwordsperblock).flatMap fun z =>
      ((List.range (s.layout.objsperthisword z)).filter fun y =>
        ((s.pgdata p).usemap.getD z 0).getLsbD y).map fun y => s.object p (z * w + y)

def foreachCore {σ : Type} (fxn : σ → ℕ → Bool × σ) (state : σ) : List ℕ → ℤ × σ
  | [] => (0, state)
  | obj :: rest =>
    let (stop, state) := fxn state obj
    if stop then (-1, state) else foreachCore fxn state rest

def slallocForeach {σ : Type} (s : Slalloc w) (state : σ) (fxn : σ → ℕ → Bool × σ) : ℤ × σ :=
  foreachCore fxn state s.visited

/-- Constant are the allocator and the pointers handed on; what the function does
elsewhere is again in `state`. -/
def slallocConstForeach {σ : Type} (s : Slalloc w) (state : σ) (fxn : σ → ℕ → Bool × σ) : ℤ × σ :=
  foreachCore fxn state s.visited

/-- `FOREACH_VOID_CORE` goes the same way and has nothing to stop for. -/
def foreachVoidCore {σ : Type} (fxn : σ → ℕ → σ) (state : σ) : List ℕ → σ
  | [] => state
  | obj :: rest => foreachVoidCore fxn (fxn state obj) rest

def slallocVoidForeach {σ : Type} (s : Slalloc w) (state : σ) (fxn : σ → ℕ → σ) : σ :=
  foreachVoidCore fxn state s.visited

def slallocConstVoidForeach {σ : Type} (s : Slalloc w) (state : σ) (fxn : σ → ℕ → σ) : σ :=
  foreachVoidCore fxn state s.visited

def returnBlocks (s : Slalloc w) : List ℕ → Request (List (ℕ × ℕ))
  | [] => pure []
  | z :: rest => do
    visit (s.pgdata z).held
    let others ← returnBlocks s rest
    pure ((s.pgarray.getD z 0, s.layout.pagesperblock * s.layout.pgsize) :: others)

def destroySlalloc (s : Slalloc w) : Request (List (ℕ × ℕ)) :=
  returnBlocks s (List.range s.blockcount)

end Libdank.SlabAllocator
