import Libdank.MmapWindow.Operations

/-! The counted allocator, after `utils/memlimit.c`, and the part of `utils/mmap.c`
that reports to it. A pointer is an address, `none` for NULL and for MAP_FAILED; what
the system answers is given with each call. -/
namespace Libdank.MemLimit
open MmapWindow

structure Memlimit where
  allocsUsed : ℤ
  allocsReqd : ℕ
  allocsFail : ℕ
  poisonedIdx : ℤ
  memoryUsageLimit : ℕ
deriving DecidableEq, Repr

def Memlimit.initial (limit : ℕ) : Memlimit := ⟨0, 0, 0, -1, limit⟩

variable (m : Memlimit)

def Memlimit.serve : Memlimit := { m with allocsUsed := m.allocsUsed + 1 }

def trackDeallocation : Memlimit := { m with allocsUsed := m.allocsUsed - 1 }

def trackFailloc : Memlimit := { m with allocsFail := m.allocsFail + 1 }

def faillocOnN (n : ℤ) : Memlimit := { m with poisonedIdx := n }

def checkAllocReq (s : ℕ) : Bool × Memlimit :=
  if s = 0 then (false, m)
  else
    let m := { m with allocsReqd := m.allocsReqd + 1 }
    if m.poisonedIdx = 0 then (false, m)
    else if 0 < m.poisonedIdx then (true, { m with poisonedIdx := m.poisonedIdx - 1 })
    else (true, m)

def malloc (s : ℕ) (answer : Option ℕ) : Option ℕ × Memlimit :=
  let (allowed, m) := checkAllocReq m s
  if allowed then
    match answer with
    | some ret => (some ret, m.serve)
    | none => (none, trackFailloc m)
  else (none, m)

def realloc (orig : Option ℕ) (s : ℕ) (answer : Option ℕ) : Option ℕ × Memlimit :=
  let (allowed, m) := checkAllocReq m s
  if allowed then
    match answer with
    | some ret =>
      (some ret, { m with allocsUsed := m.allocsUsed + if orig = none then 1 else 0 })
    | none => (none, trackFailloc m)
  else (none, m)

/-- `used` is what `mem_used` answers. All is done in 64 bits. -/
def sizePallocReq (used p : ℕ) : ℕ :=
  if m.memoryUsageLimit = 0 then 0
  else
    let left := wordSub m.memoryUsageLimit used
    let reqsize := word (left / 100 * p)
    let left := word (left / 10 * 9)
    if left < reqsize then left else reqsize

/-- What `Palloc` hands out: the memory, the number of objects that it stores for its
caller, an unsigned of 32 bits, and the bytes that it has asked for. -/
structure Share where
  ret : ℕ
  num : ℕ
  bytes : ℕ
deriving DecidableEq, Repr

/-- `none` where it divides by an object size of 0. -/
def palloc (osiz used p : ℕ) (answer : Option ℕ) : Option (Option Share × Memlimit) :=
  if p = 0 ∨ 100 < p then some (none, m)
  else
    let m := { m with allocsReqd := m.allocsReqd + 1 }
    let rsiz := sizePallocReq m used p
    if rsiz < osiz then some (none, trackFailloc m)
    else if osiz = 0 then none
    else
      let rsiz := rsiz - rsiz % osiz
      match answer with
      | none => some (none, trackFailloc m)
      | some ret => some (some ⟨ret, rsiz / osiz % 2 ^ 32, rsiz⟩, m.serve)

def deepfree (obj : Option ℕ) : Memlimit :=
  match obj with
  | none => m
  | some _ => trackDeallocation m

def mmalloc (len : ℕ) (answer : Option ℕ) : Option ℕ × Memlimit :=
  let (allowed, m) := checkAllocReq m len
  match if allowed then mmap answer (-1) len 0 else none with
  | some ret => (some ret, m.serve)
  | none => (none, trackFailloc m)

/-- Whether it returned 0, as `munmap` did. -/
def mfree (unmapped : Bool) : Bool × Memlimit :=
  (unmapped, if unmapped then trackDeallocation m else m)

def trackAllocation : Bool × Memlimit :=
  let (allowed, m) := checkAllocReq m 1
  if allowed then (true, m.serve) else (false, trackFailloc m)

structure Resizing where
  sought : Bool
  written : Bool
  truncated : Bool
  address : Option ℕ
deriving DecidableEq, Repr

/-- The file is given its new length; nothing is sought at a negative offset. -/
def resizeFile (a : Resizing) (fd : ℤ) (oldlen newlen : ℕ) : Bool :=
  if fd < 0 then true
  else if oldlen ≤ newlen then
    decide (0 < newlen ∧ newlen ≤ 2 ^ 63) && a.sought && (decide (newlen = oldlen) || a.written)
  else a.truncated

def mremapAndTruncate (a : Resizing) (fd : ℤ) (oldaddr : Option ℕ) (oldlen newlen : ℕ) :
    Option ℕ × Memlimit :=
  if resizeFile a fd oldlen newlen then
    match oldaddr with
    | none =>
      let (allowed, m) := trackAllocation m
      if allowed then
        match mmap a.address fd newlen 0 with
        | some ret => (some ret, m)
        | none => (none, trackDeallocation (trackFailloc m))
      else (none, m)
    | some _ =>
      match mremap a.address newlen with
      | some ret => (some ret, m)
      | none => (none, trackFailloc m)
  else (none, m)

def mremapMunmap (unmapped : Bool) : Bool × Memlimit :=
  if unmapped then (true, trackDeallocation m) else (false, m)

/-- What `track_allocation` returns is not looked at. -/
def initializeMmapWindow (a : Answers) (mw : Window) (fd : ℤ) (len : ℕ) :
    Bool × Window × Memlimit :=
  let (mapped, mw) := MmapWindow.initializeMmapWindow a mw fd len
  if mapped then (true, mw, (trackAllocation m).2) else (false, mw, trackFailloc m)

/-- The window is given up also where `munmap` fails. -/
def releaseMmapWindow (mw : Window) (unmapped : Bool) : Bool × Window × Memlimit :=
  if mw.maplen = 0 then (true, mw, m) else (unmapped, ⟨mapFailed, 0, 0⟩, trackDeallocation m)

inductive Call where
  | malloc (s : ℕ) (answer : Option ℕ)
  | realloc (orig : Option ℕ) (s : ℕ) (answer : Option ℕ)
  | palloc (osiz used p : ℕ) (answer : Option ℕ)
  | free (obj : Option ℕ)
  | mmalloc (len : ℕ) (answer : Option ℕ)
  | mfree (start : ℕ) (unmapped : Bool)
  | mremapAndTruncate (a : Resizing) (fd : ℤ) (oldaddr : Option ℕ) (oldlen newlen : ℕ)
  | mremapMunmap (addr : ℕ) (unmapped : Bool)
  | initializeMmapWindow (a : Answers) (mw : Window) (fd : ℤ) (len : ℕ)
  | releaseMmapWindow (mw : Window) (unmapped : Bool)
  | faillocOnN (n : ℤ)
deriving DecidableEq, Repr

/-- The allocator, and what the program holds of it: memory, maps and windows. -/
structure Session where
  memlimit : Memlimit
  heap : List ℕ
  maps : List ℕ
  windows : List Window
deriving DecidableEq, Repr

def Session.initial (limit : ℕ) : Session := ⟨.initial limit, [], [], []⟩

def Session.live (s : Session) : ℕ := s.heap.length + s.maps.length + s.windows.length

def Held (old : Option ℕ) (l : List ℕ) : Prop := ∀ p ∈ old, p ∈ l

instance (old : Option ℕ) (l : List ℕ) : Decidable (Held old l) :=
  inferInstanceAs (Decidable (∀ p ∈ old, p ∈ l))

def exchange (old new : Option ℕ) (l : List ℕ) : List ℕ :=
  match new with
  | none => l
  | some p => p :: old.elim l l.erase

/-- Nothing is released or moved that is not held. -/
def step (s : Session) : Call → Option Session
  | .malloc size answer =>
    let (ret, m) := malloc s.memlimit size answer
    some { s with memlimit := m, heap := exchange none ret s.heap }
  | .realloc orig size answer =>
    if Held orig s.heap then
      let (ret, m) := realloc s.memlimit orig size answer
      some { s with memlimit := m, heap := exchange orig ret s.heap }
    else none
  | .palloc osiz used p answer =>
    (palloc s.memlimit osiz used p answer).map fun (ret, m) =>
      { s with memlimit := m, heap := exchange none (ret.map Share.ret) s.heap }
  | .free obj =>
    if Held obj s.heap then
      some { s with memlimit := deepfree s.memlimit obj, heap := obj.elim s.heap s.heap.erase }
    else none
  | .mmalloc len answer =>
    let (ret, m) := mmalloc s.memlimit len answer
    some { s with memlimit := m, maps := exchange none ret s.maps }
  | .mfree start unmapped =>
    if start ∈ s.maps then
      let (ok, m) := mfree s.memlimit unmapped
      some { s with memlimit := m, maps := if ok then s.maps.erase start else s.maps }
    else none
  | .mremapAndTruncate a fd oldaddr oldlen newlen =>
    if Held oldaddr s.maps then
      let (ret, m) := mremapAndTruncate s.memlimit a fd oldaddr oldlen newlen
      some { s with memlimit := m, maps := exchange oldaddr ret s.maps }
    else none
  | .mremapMunmap addr unmapped =>
    if addr ∈ s.maps then
      let (ok, m) := mremapMunmap s.memlimit unmapped
      some { s with memlimit := m, maps := if ok then s.maps.erase addr else s.maps }
    else none
  | .initializeMmapWindow a mw fd len =>
    let (ok, mw, m) := initializeMmapWindow s.memlimit a mw fd len
    some { s with memlimit := m, windows := if ok then mw :: s.windows else s.windows }
  | .releaseMmapWindow mw unmapped =>
    if mw.maplen = 0 ∨ mw ∈ s.windows then
      let (_, _, m) := releaseMmapWindow s.memlimit mw unmapped
      some { s with memlimit := m, windows := if mw.maplen = 0 then s.windows else s.windows.erase mw }
    else none
  | .faillocOnN n => some { s with memlimit := faillocOnN s.memlimit n }

end Libdank.MemLimit
