import Libdank.CrlfStream.Operations

/-! The blocks of memory behind the pointers of a reader: its buffer and the copies
of the lines. The functions are those of the reader once more, each with what it
does to blocks; their contents are left to the reader's own. -/
namespace Libdank.CrlfStream.Ownership
open Buffers Requests

/-- Blocks, numbered as the allocator hands them out. -/
structure Blocks where
  next : ℕ
  freed : List ℕ
  /-- those used, or freed, after they had been freed -/
  stale : List ℕ
deriving DecidableEq, Repr

def Blocks.touch (m : Blocks) (p : Pointer ℕ) : Blocks :=
  { m with stale := p.toList.filter (· ∈ m.freed) ++ m.stale }

def Blocks.free (m : Blocks) (p : Pointer ℕ) : Blocks :=
  { m.touch p with freed := p.toList ++ m.freed }

/-- A reader, the blocks its pointers point to, and those it has ever had for its
buffer. -/
structure Holder where
  reader : CrlfReader
  buf : Pointer ℕ
  iv : Pointer ℕ
  buffers : List ℕ
  blocks : Blocks
deriving DecidableEq, Repr

def Holder.useBuf (o : Holder) : Holder := { o with blocks := o.blocks.touch o.buf }

def Holder.freeBuf (o : Holder) : Holder := { o with blocks := o.blocks.free o.buf }

def Holder.takeBuf (o : Holder) : Holder :=
  { o with
    buf := some o.blocks.next
    buffers := o.blocks.next :: o.buffers
    blocks := { o.blocks with next := o.blocks.next + 1 } }

def Holder.takeIv (o : Holder) : Holder :=
  { o with iv := some o.blocks.next, blocks := { o.blocks with next := o.blocks.next + 1 } }

variable (junk : ℕ → UInt8)

/-- `Realloc` of NULL hands out a block and otherwise makes the one there larger.
When it is refused the block is freed, and the pointer to it stays. -/
def growBuf (o : Holder) : Request (Growth × Holder) := do
  let (growth, r) ← CrlfStream.growBuf junk o.reader
  let grown := { o with reader := r }
  pure (growth, match growth with
    | .refused => grown
    | .grown => if o.buf.isNone then grown.takeBuf else grown.useBuf
    | .enomem => grown.freeBuf)

def zeroHolder : Holder := ⟨zeroCrlfReader, none, none, [], ⟨0, [], []⟩⟩

def initCrlfReader : Request (Bool × Holder) := do
  let (growth, o) ← growBuf junk zeroHolder
  pure (growth = .grown, o)

def fillBuf (o : Holder) (sd : Socket) : CrlfReadRes × Holder × Socket :=
  let (res, r, sd) := CrlfStream.fillBuf o.reader sd
  (res, { o with reader := r }.useBuf, sd)

def readCrData (o : Holder) (sd : Socket) : Request (CrlfReadRes × Holder × Socket) :=
  if o.reader.eof then pure (.eof, o, sd)
  else if o.reader.count = o.reader.total then do
    let (growth, o) ← growBuf junk o
    pure (match growth with
      | .grown => fillBuf o sd
      | .refused => (.longline, o, sd)
      | .enomem => (.syserr, o, sd))
  else pure (fillBuf o sd)

def deliver (o : Holder) (len : ℕ) : Request (CrlfReadRes × Holder) := do
  let (res, r) ← CrlfStream.deliver o.reader len
  let o := { o with reader := r }
  pure (res, if res = .syserr then o else o.takeIv.useBuf)

def refill (o : Holder) (sd : Socket) : Request (CrlfReadRes × Holder × Socket) :=
  if o.reader.examined = o.reader.count then readCrData junk o sd else pure (.success, o, sd)

def Holder.again (o : Holder) (examined : ℕ) : Holder :=
  { o.useBuf with reader := { o.reader with examined := examined } }

def crlfLoop : ℕ → Holder → Socket → Request (CrlfReadRes × Holder × Socket)
  | 0, o, sd => pure (.syserr, o, sd)
  | passes + 1, o, sd => do
    let (res, o, sd) ← refill junk o sd
    if res ≠ .success then
      pure (if res ≠ .nblock ∧ o.reader.count ≠ 0 ∧ res = .eof then .shortline else res, o, sd)
    else match examine o.reader with
      | .inr examined => crlfLoop passes (o.again examined) sd
      | .inl len => do
        let (res, o) ← deliver o.useBuf len
        pure (res, o, sd)

def readCrlfLine (o : Holder) (sd : Socket) : Request (CrlfReadRes × Holder × Socket) :=
  crlfLoop junk (o.reader.count - o.reader.examined + sd.wire.length + 1) o sd

def resetCrlfReader (o : Holder) : Holder :=
  { o.freeBuf with reader := CrlfStream.resetCrlfReader o.reader, buf := none, iv := none }

def Delivers (res : CrlfReadRes) : Prop := res = .success ∨ res = .moredata ∨ res = .longline

instance (res : CrlfReadRes) : Decidable (Delivers res) :=
  inferInstanceAs (Decidable (_ ∨ _ ∨ _))

/-- What a caller sees of a call: its result, the blocks handed out before it and
after it, where `iov_base` points and what is there. -/
structure Call where
  res : CrlfReadRes
  before : ℕ
  after : ℕ
  iv : Pointer ℕ
  text : Pointer Bytes
  /-- what the reader holds and has not delivered -/
  pending : Bytes
deriving DecidableEq, Repr

def Holder.settle (o : Holder) (res : CrlfReadRes) : Holder :=
  if Delivers res then { o with blocks := o.blocks.free o.iv } else o

def callOf (o o' : Holder) (res : CrlfReadRes) : Call :=
  ⟨res, o.blocks.next, o'.blocks.next, o'.iv, o'.reader.iv,
    slice (o'.reader.buf.getD []) o'.reader.base o'.reader.count⟩

def readCalls : ℕ → Holder → Socket → Request (List Call × Holder)
  | 0, o, _ => pure ([], o)
  | calls + 1, o, sd => do
    let (res, o', sd) ← readCrlfLine junk o sd
    let (rest, last) ← readCalls calls (o'.settle res) sd
    pure (callOf o o' res :: rest, last)

/-- Any number of calls between the two that begin and end the use of a reader. -/
def readSession (calls : ℕ) (sd : Socket) : Request (List Call × Holder) := do
  let (_, o) ← initCrlfReader junk
  let (made, o) ← readCalls junk calls o sd
  pure (made, resetCrlfReader o)

section Contents

def plain (q : CrlfReadRes × Holder × Socket) : CrlfReadRes × CrlfReader × Socket :=
  (q.1, q.2.1.reader, q.2.2)

theorem growBuf_mirrors (o : Holder) :
    Mirrors (fun q : Growth × Holder => (q.1, q.2.reader)) (growBuf junk o)
      (CrlfStream.growBuf junk o.reader) := by
  intro h
  rw [growBuf, bind_apply]
  generalize CrlfStream.growBuf junk o.reader h = q
  obtain ⟨⟨growth, r⟩, h'⟩ := q
  cases growth with
  | grown =>
    simp only [pure_apply]
    split_ifs <;> rfl
  | refused => rfl
  | enomem => rfl

theorem initCrlfReader_mirrors :
    Mirrors (fun q : Bool × Holder => (q.1, q.2.reader)) (initCrlfReader junk)
      (CrlfStream.initCrlfReader junk) :=
  mirrors_bind (growBuf_mirrors junk zeroHolder) fun _ => mirrors_pure _

theorem readCrData_mirrors (o : Holder) (sd : Socket) :
    Mirrors plain (readCrData junk o sd) (CrlfStream.readCrData junk o.reader sd) := by
  refine mirrors_ite (mirrors_pure _) (mirrors_ite (mirrors_bind (growBuf_mirrors junk o) fun q => ?_)
    (mirrors_pure _))
  obtain ⟨growth, o⟩ := q
  cases growth <;> exact mirrors_pure _

theorem deliver_mirrors (o : Holder) (len : ℕ) :
    Mirrors (fun q : CrlfReadRes × Holder => (q.1, q.2.reader)) (deliver o len)
      (CrlfStream.deliver o.reader len) := by
  intro h
  rw [deliver, bind_apply]
  generalize CrlfStream.deliver o.reader len h = q
  simp only [pure_apply]
  split_ifs <;> rfl

theorem refill_mirrors (o : Holder) (sd : Socket) :
    Mirrors plain (refill junk o sd) (CrlfStream.refill junk o.reader sd) :=
  mirrors_ite (readCrData_mirrors junk o sd) (mirrors_pure _)

theorem crlfLoop_mirrors (passes : ℕ) (o : Holder) (sd : Socket) :
    Mirrors plain (crlfLoop junk passes o sd) (CrlfStream.crlfLoop junk passes o.reader sd) := by
  induction passes generalizing o sd with
  | zero => exact mirrors_pure _
  | succ passes ih =>
    refine mirrors_bind (refill_mirrors junk o sd) fun q => mirrors_ite (mirrors_pure _) ?_
    obtain ⟨res, o, sd⟩ := q
    dsimp only
    cases examine o.reader with
    | inr examined => exact ih (o.again examined) sd
    | inl len => exact mirrors_bind (deliver_mirrors o.useBuf len) fun q => mirrors_pure _

/-- What is done to blocks has no influence on what a call does to the contents. -/
theorem readCrlfLine_mirrors (o : Holder) (sd : Socket) :
    Mirrors plain (readCrlfLine junk o sd) (CrlfStream.readCrlfLine junk o.reader sd) :=
  crlfLoop_mirrors junk _ o sd

end Contents

section Conditions

/-- Every pass of the loop meets `cond` at the reader and the heap it starts with. -/
def LoopAlong (cond : CrlfReader → Heap → Prop) : ℕ → CrlfReader → Socket → Heap → Prop
  | 0, _, _, _ => True
  | passes + 1, r, sd, h =>
    cond r h ∧
      let q := CrlfStream.refill junk r sd h
      q.1.1 = .success → ∀ examined, examine q.1.2.1 = .inr examined →
        LoopAlong cond passes { q.1.2.1 with examined := examined } q.1.2.2 q.2

def RunAlong (cond : CrlfReader → Heap → Prop) : ℕ → CrlfReader → Socket → Heap → Prop
  | 0, _, _, _ => True
  | calls + 1, r, sd, h =>
    LoopAlong junk cond (r.count - r.examined + sd.wire.length + 1) r sd h ∧
      let q := CrlfStream.readCrlfLine junk r sd h
      RunAlong cond calls q.1.2.1 q.1.2.2 q.2

/-- More is wanted of a reader whose buffer, of the largest size, is full of bytes
already examined. -/
def Stuffed (r : CrlfReader) : Prop :=
  r.examined = r.count ∧ r.eof = false ∧ r.count = r.total ∧ maxLineSize ≤ r.total

/-- A larger buffer is wanted in the place of the one there is, and refused. -/
def Refused (r : CrlfReader) (h : Heap) : Prop :=
  r.examined = r.count ∧ r.eof = false ∧ r.count = r.total ∧ r.total < maxLineSize ∧
    0 < r.total ∧ h.answer 0 = false

end Conditions

def freedLines (calls : List Call) : List ℕ :=
  calls.filterMap fun call => if Delivers call.res then call.iv else none

/-- With a result that delivers there is a block of this call's own, with a line or
with the data that has no end. -/
def Delivered (call : Call) : Prop :=
  Delivers call.res → (∃ b, call.iv = some b ∧ call.before ≤ b ∧ b < call.after) ∧
    if call.res = .longline then call.text = some call.pending
    else ∃ line, call.text = some (line ++ [cr, lf])

/-- Every call delivers what it says, and no line is freed twice. -/
def Sound (calls : List Call) : Prop :=
  (∀ call ∈ calls, Delivered call) ∧ (freedLines calls).Nodup

/-- The blocks that have been the reader's buffer are freed once and not used after. -/
def ReleasedOnce (o : Holder) : Prop :=
  ∀ b ∈ o.buffers, o.blocks.freed.count b = 1 ∧ b ∉ o.blocks.stale

end Libdank.CrlfStream.Ownership
