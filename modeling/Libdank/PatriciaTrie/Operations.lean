import Libdank.Foundation.Requests
import Mathlib.Logic.Function.Basic

/-! The trie of `objects/lrupat.c`. A key is the list of its bytes up to the
NUL. The plain operations and those that ignore letter case are one function of
`fold`, which is applied to every byte where the latter call `tolower`. Nodes
come from the slab allocator, one request each. -/
namespace Libdank.PatriciaTrie
open Requests

abbrev Key := List UInt8

inductive Lpatnode (α : Type) where
  | null
  | node (arr : UInt8 → Lpatnode α) (obj : Pointer α) (patstr : Option Key)

/-- What a trie carries besides its nodes: whether a callback is installed, the
objects passed to it so far, and how many nodes, all without object, the slab
allocator still holds although no trie leads to them. -/
structure Upkeep (α : Type) where
  nwatchcb : Bool
  watched : List (Pointer α)
  detached : ℕ

structure Lrupat (α : Type) extends Upkeep α where
  nodes : Lpatnode α

variable {α : Type}

def createLrupat (nwatchcb : Bool) : Lrupat α := ⟨⟨nwatchcb, [], 0⟩, .null⟩

def slallocLpatnodeNew : Request Bool := request

def strdup (text : Key) : Request Bool := allocate (text.length + 1)

def noChildren : UInt8 → Lpatnode α := fun _ => .null

def tolower (c : UInt8) : UInt8 := if 65 ≤ c ∧ c ≤ 90 then c + 32 else c

variable (fold : UInt8 → UInt8)

/-- The chain below the head of a decayed tail, from the node that `suffix`
leads on from. If a request fails all of it is given back. -/
def decayChain (obj : Pointer α) : Key → Request (Option (Lpatnode α))
  | [] => do
    if ← strdup [] then pure (some (.node noChildren obj (some [])))
    else pure none
  | c :: suffix => do
    if ← slallocLpatnodeNew then
      match ← decayChain obj suffix with
      | some next => pure (some (.node (Function.update noChildren (fold c) next) none none))
      | none => pure none
    else pure none

def decayLrupatTail : Lpatnode α → Request (Option (Lpatnode α))
  | .node _ obj (some (c :: suffix)) => do
    if ← slallocLpatnodeNew then decayChain fold obj (c :: suffix) else pure none
  | _ => pure none

def lpatchainNew (key : Key) (obj : Pointer α) : Request (Option (Lpatnode α)) := do
  if ← slallocLpatnodeNew then
    if ← strdup key then pure (some (.node noChildren obj (some (key.map fold))))
    else pure none
  else pure none

structure Added (α : Type) extends Upkeep α where
  ok : Bool
  lps : Lpatnode α

/-- The tail in `lps`, if there is one, is decayed. The head of a chain has a
child and no key, and replaces a node that the trie no longer leads to. -/
def makeRoom (lp : Upkeep α) (lps : Lpatnode α) : Request (Added α) :=
  match lps with
  | .node _ _ (some (_ :: _)) => do
    match ← decayLrupatTail fold lps with
    | some chainhead => pure ⟨{ lp with detached := lp.detached + 1 }, true, chainhead⟩
    | none => pure ⟨lp, false, lps⟩
  | _ => pure ⟨lp, true, lps⟩

def addLrupatHelper (lp : Upkeep α) (lps : Lpatnode α) (key : Key) (obj : Pointer α) :
    Request (Added α) :=
  match lps with
  | .null => do
    match ← lpatchainNew fold key obj with
    | some lps => pure ⟨lp, true, lps⟩
    | none => pure ⟨lp, false, .null⟩
  | lps =>
    match key with
    | c :: rest => do
      let room ← makeRoom fold lp lps
      match room.ok, room.lps with
      | true, .node arr old patstr => do
        let below ← addLrupatHelper room.toUpkeep (arr (fold c)) rest obj
        pure { below with lps := .node (Function.update arr (fold c) below.lps) old patstr }
      | _, _ => pure { room with ok := false }
    | [] => do
      if ← strdup [] then
        let room ← makeRoom fold lp lps
        match room.ok, room.lps with
        | true, .node arr old patstr =>
          let lp := if patstr.isSome && lp.nwatchcb then
            { room.toUpkeep with watched := room.watched ++ [old] } else room.toUpkeep
          pure ⟨lp, true, .node arr obj (some [])⟩
        | _, _ => pure { room with ok := false }
      else pure ⟨lp, false, lps⟩

def addLrupatWith (lp : Lrupat α) (key : Key) (obj : Pointer α) : Request (Bool × Lrupat α) := do
  let r ← addLrupatHelper fold lp.toUpkeep lp.nodes key obj
  pure (r.ok, ⟨r.toUpkeep, r.lps⟩)

def addLrupat : Lrupat α → Key → Pointer α → Request (Bool × Lrupat α) := addLrupatWith id

def addLrupatNocase : Lrupat α → Key → Pointer α → Request (Bool × Lrupat α) :=
  addLrupatWith tolower

/-- Does the stored tail end the key here? The byte after the tail must be
`term`, and the byte after the key is NUL. -/
def tailMatches (term : UInt8) (key : Key) (patstr : Option Key) : Bool :=
  match patstr with
  | none => false
  | some p => (key.take p.length).map fold == p.map fold && key.getD p.length 0 == term

def lookupLrupatHelper (term : UInt8) : Key → Lpatnode α → Option (Pointer α)
  | _, .null => none
  | [], .node _ obj patstr => if tailMatches fold term [] patstr then some obj else none
  | c :: rest, .node arr obj patstr =>
    if tailMatches fold term (c :: rest) patstr then some obj
    else if c ≠ term then lookupLrupatHelper term rest (arr (fold c))
    else none

def lookupLrupat (lp : Lrupat α) (key : Key) : Option (Pointer α) :=
  lookupLrupatHelper id 0 key lp.nodes

def lookupLrupatTerm (lp : Lrupat α) (key : Key) (term : UInt8) : Option (Pointer α) :=
  lookupLrupatHelper id term key lp.nodes

def lookupLrupatNocase (lp : Lrupat α) (key : Key) : Option (Pointer α) :=
  lookupLrupatHelper tolower 0 key lp.nodes

/-- `key` is what the buffer holds up to its NUL, `len` how much of it the
caller means. -/
def lookupLrupatBlobHelper : ℕ → Key → Lpatnode α → Option (Pointer α)
  | _, _, .null => none
  | _, key, .node _ obj (some patstr) => if patstr = key then some obj else none
  | 0, _, .node _ _ none => none
  | len + 1, key, .node arr _ none =>
    lookupLrupatBlobHelper len key.tail (arr (key.headD 0))

def lookupLrupatBlob (lp : Lrupat α) (key : Key) (len : ℕ) : Option (Pointer α) :=
  lookupLrupatBlobHelper len key lp.nodes

end Libdank.PatriciaTrie
