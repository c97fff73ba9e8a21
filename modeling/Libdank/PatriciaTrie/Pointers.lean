import Libdank.PatriciaTrie.Lookup
import Libdank.SlabAllocator.Stock

/-! The trie once more, down to its pointers. A node lies at the address that
the slab allocator gave it, a `lpatnode **` is the place a pointer is stored in,
and the destruction comes to the nodes through the allocator alone. -/
namespace Libdank.PatriciaTrie.Pointers
open Requests Buffers SlabAllocator

variable {w : ℕ} {α : Type}

structure Lpatnode (α : Type) where
  arr : UInt8 → Pointer ℕ
  obj : Pointer α
  patstr : Option Key

def Lpatnode.zeroed : Lpatnode α := ⟨fun _ => none, none, none⟩

/-- `lpatnodes` is what lies at each address, read as a node, and `watched` what the
callback has been called on. Where `slalloc_new` was called, the allocator and
the heap at the call are recorded in `asked`. -/
structure Lrupat (w : ℕ) (α : Type) where
  nodes : Pointer ℕ
  sl : Slalloc w
  nwatchcb : Bool
  lpatnodes : ℕ → Lpatnode α
  watched : List (Pointer α)
  asked : List (Slalloc w × Heap)

/-- No call of `slalloc_new` was refused the pages of a new block. -/
def Lrupat.Clear (lp : Lrupat w α) : Prop := ∀ call ∈ lp.asked, ¬ PagesRefused call.1 call.2

instance (lp : Lrupat w α) : Decidable lp.Clear :=
  inferInstanceAs (Decidable (∀ call ∈ lp.asked, _))

inductive Slot where
  | nodes
  | arr (lps : ℕ) (c : UInt8)

namespace Lrupat

def follow (lp : Lrupat w α) : Slot → Pointer ℕ
  | .nodes => lp.nodes
  | .arr lps c => (lp.lpatnodes lps).arr c

def change (lp : Lrupat w α) (lps : ℕ) (f : Lpatnode α → Lpatnode α) : Lrupat w α :=
  { lp with lpatnodes := Function.update lp.lpatnodes lps (f (lp.lpatnodes lps)) }

def link (lp : Lrupat w α) (next : Pointer ℕ) : Slot → Lrupat w α
  | .nodes => { lp with nodes := next }
  | .arr lps c => lp.change lps fun node => { node with arr := Function.update node.arr c next }

end Lrupat

def createLrupat (word : 32 ≤ w ∧ w ≤ 64) (pgsiz : Int32) (bytes : Bytes)
    (lpatnodes : ℕ → Lpatnode α) (nwatchcb : Bool) : Request (Pointer (Lrupat w α)) := do
  if ← allocate 24 then
    match ← createSlalloc word pgsiz bytes 2064 with
    | some sl => pure (some ⟨none, sl, nwatchcb, lpatnodes, [], []⟩)
    | none => pure none
  else pure none

abbrev Upkept (w : ℕ) (α : Type) := StateT (Lrupat w α) Request

section Adding
variable [Leftover ℕ] (place : ℕ → ℕ+) (fold : UInt8 → UInt8)

/-- The nodes of a block are zeroed when it is mapped, not when they are given. -/
def slallocLpatnodeNew : Upkept w α (Pointer ℕ) := fun lp h =>
  let base := place lp.sl.blockcount
  let r := slallocNew base lp.sl h
  let lpatnodes := if r.1.2.blockcount = lp.sl.blockcount then lp.lpatnodes
    else blanked .zeroed base lp.sl.blockBytes lp.lpatnodes
  ((r.1.1, { lp with sl := r.1.2, lpatnodes, asked := (lp.sl, h) :: lp.asked }), r.2)

def slallocLpatnodeFree (lps : ℕ) : Upkept w α Unit := do
  let lp ← get
  let sl ← slallocFree lp.sl lps
  set { lp with sl, lpatnodes := Function.update lp.lpatnodes lps .zeroed }

def eachChild (free : Pointer ℕ → Upkept w α Unit) (l : ℕ) : List ℕ → Upkept w α Unit
  | [] => pure ()
  | z :: zs => do
    free (((← get).lpatnodes l).arr (UInt8.ofNat z))
    eachChild free l zs

/-- The chain that starts with `l`; `fuel` is how many nodes it has at most. -/
def freeLrupatChain : ℕ → Pointer ℕ → Upkept w α Unit
  | _, none => pure ()
  | 0, some _ => pure ()
  | fuel + 1, some l => do
    eachChild (freeLrupatChain fuel) l (List.range 256)
    slallocLpatnodeFree l

def expand (last : ℕ) : Key → Upkept w α (Pointer ℕ)
  | [] => pure (some last)
  | c :: suffix => do
    let next ← slallocLpatnodeNew place
    modify fun lp => lp.link next (.arr last (fold c))
    match next with
    | some next => expand next suffix
    | none => pure none

/-- `tail` is what `lps` points to. -/
def decayLrupatTail (lps : Slot) (tail : ℕ) : Upkept w α Bool := do
  match ((← get).lpatnodes tail).patstr with
  | some (c :: suffix) =>
    match ← slallocLpatnodeNew place with
    | some chainhead =>
      match ← expand place fold chainhead (c :: suffix) with
      | some last =>
        if ← strdup [] then
          modify fun lp => lp.change last fun node =>
            { node with patstr := some [], obj := (lp.lpatnodes tail).obj }
          modify fun lp => lp.change tail fun node => { node with patstr := none, obj := none }
          modify fun lp => lp.link (some chainhead) lps
          pure true
        else
          freeLrupatChain (suffix.length + 2) (some chainhead)
          pure false
      | none =>
        freeLrupatChain (suffix.length + 2) (some chainhead)
        pure false
    | none => pure false
  | _ => pure false

def lpatchainNew (key : Key) (obj : Pointer α) : Upkept w α (Pointer ℕ) := do
  match ← slallocLpatnodeNew place with
  | some lpn =>
    if ← strdup key then
      modify fun lp => lp.change lpn fun node => { node with patstr := some (key.map fold), obj }
      pure (some lpn)
    else
      slallocLpatnodeFree lpn
      pure none
  | none => pure none

/-- A tail that is not empty is decayed; `node` is what `lps` points to. -/
def makeRoom (lps : Slot) (node : ℕ) : Upkept w α Bool := do
  match ((← get).lpatnodes node).patstr with
  | some (_ :: _) => decayLrupatTail place fold lps node
  | _ => pure true

def Lrupat.settle (lp : Lrupat w α) (node : ℕ) (obj : Pointer α) : Lrupat w α :=
  let old := lp.lpatnodes node
  { lp.change node fun node => { node with patstr := some [], obj } with
    watched := if old.patstr.isSome && lp.nwatchcb then lp.watched ++ [old.obj] else lp.watched }

def addTail (obj : Pointer α) (key : Key) (lps : Slot) : Upkept w α Bool := do
  let lpn ← lpatchainNew place fold key obj
  modify fun lp => lp.link lpn lps
  pure lpn.isSome

def addLrupatHelper (obj : Pointer α) : Key → Slot → Upkept w α Bool
  | [], lps => do
    match (← get).follow lps with
    | none => addTail place fold obj [] lps
    | some node =>
      if ← strdup [] then
        if ← makeRoom place fold lps node then
          modify fun lp => match lp.follow lps with
            | some node => lp.settle node obj
            | none => lp
          pure true
        else pure false
      else pure false
  | c :: rest, lps => do
    match (← get).follow lps with
    | none => addTail place fold obj (c :: rest) lps
    | some node =>
      if ← makeRoom place fold lps node then
        match (← get).follow lps with
        | some node => addLrupatHelper obj rest (.arr node (fold c))
        | none => pure false
      else pure false

def addLrupat (key : Key) (obj : Pointer α) : Upkept w α Bool :=
  addLrupatHelper place id obj key .nodes

def addLrupatNocase (key : Key) (obj : Pointer α) : Upkept w α Bool :=
  addLrupatHelper place tolower obj key .nodes

def freeLpatnode (lp : Lrupat w α) (v : ℕ) : Lrupat w α :=
  let lps := lp.lpatnodes v
  { lp.change v fun node => { node with patstr := none } with
    watched := if lp.nwatchcb then lp.watched ++ [lps.obj] else lp.watched }

/-- What is left is the record of what the callback was called on, and the
mappings given back. -/
def destroyLrupat (lp : Lrupat w α) : Request (List (Pointer α) × List (ℕ × ℕ)) := do
  let lp := slallocVoidForeach lp.sl lp freeLpatnode
  let returned ← destroySlalloc lp.sl
  pure (lp.watched, returned)

def addAll : List (Key × Pointer α) → Upkept w α (List (Bool × List (Pointer α)))
  | [] => pure []
  | (key, obj) :: rest => do
    let before ← get
    let ok ← addLrupat place key obj
    let after ← get
    let outcomes ← addAll rest
    pure ((ok, after.watched.drop before.watched.length) :: outcomes)

end Adding

def lookupLrupatHelper (lp : Lrupat w α) (fold : UInt8 → UInt8) (term : UInt8) :
    Key → Pointer ℕ → Option (Pointer α)
  | _, none => none
  | [], some lps =>
    if tailMatches fold term [] (lp.lpatnodes lps).patstr then some (lp.lpatnodes lps).obj else none
  | c :: rest, some lps =>
    if tailMatches fold term (c :: rest) (lp.lpatnodes lps).patstr then some (lp.lpatnodes lps).obj
    else if c ≠ term then lookupLrupatHelper lp fold term rest ((lp.lpatnodes lps).arr (fold c))
    else none

def lookupLrupat (lp : Lrupat w α) (key : Key) : Option (Pointer α) :=
  lookupLrupatHelper lp id 0 key lp.nodes

end Libdank.PatriciaTrie.Pointers
