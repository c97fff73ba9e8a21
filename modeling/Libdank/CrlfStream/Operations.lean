import Libdank.Foundation.Buffers
import Libdank.Foundation.Requests

/-! The reader of `objects/crlfreader.c`. The descriptor is a stream of bytes
still to come and the way `read` will deliver them. Fresh memory holds whatever
`junk` says. -/
namespace Libdank.CrlfStream
open Buffers Requests

abbrev Bytes := List UInt8

def cr : UInt8 := 0x0d

def lf : UInt8 := 0x0a

inductive CrlfReadRes where
  | success | shortline | longline | moredata | eof | nblock | syserr
deriving DecidableEq, Repr

structure CrlfReader where
  /-- the copy of the last line delivered, `iov_len` bytes long -/
  iv : Pointer Bytes
  buf : Pointer Bytes
  eof : Bool
  readreq : Bool
  count : ℕ
  total : ℕ
  base : ℕ
  examined : ℕ
  /-- how often the buffer has been given back -/
  released : ℕ
deriving DecidableEq, Repr

/-- What the next call of `read` does: EAGAIN, EINTR, another error, or, as long
as there are bytes, one more byte than the number given, within what has been
asked for. -/
inductive Arrival where
  | again | intr | fault | data (more : ℕ)
deriving DecidableEq, Repr

/-- When all arrivals are used up, `read` returns all it is asked for. -/
structure Socket where
  wire : Bytes
  arrivals : List Arrival
deriving DecidableEq, Repr

inductive Received where
  | again | fault | bytes (got : Bytes)

def Socket.take (wire : Bytes) (arrivals : List Arrival) (ret : ℕ) : Received × Socket :=
  (.bytes (wire.take ret), ⟨wire.drop ret, arrivals⟩)

/-- The loop around `read`. No bytes at all are what it returns as 0. -/
def readLoop (tlen : ℕ) (wire : Bytes) : List Arrival → Received × Socket
  | [] => Socket.take wire [] tlen
  | .again :: arrivals => (.again, ⟨wire, arrivals⟩)
  | .intr :: arrivals => readLoop tlen wire arrivals
  | .fault :: arrivals => (.fault, ⟨wire, arrivals⟩)
  | .data more :: arrivals => Socket.take wire arrivals (min (more + 1) tlen)

def maxLineSize : ℕ := 0x100000

variable (junk : ℕ → UInt8)

/-- The two failures of `growBuf`, both -1, are told apart by `errno`. -/
inductive Growth where
  | grown | refused | enomem
deriving DecidableEq

def growBuf (r : CrlfReader) : Request (Growth × CrlfReader) :=
  if r.total ≥ maxLineSize then pure (.refused, r)
  else do
    let heap := if r.total + 8192 > maxLineSize then maxLineSize else r.total + 8192
    if ← allocate heap then
      pure (.grown, { r with total := heap, buf := some (regrow junk (r.buf.getD []) heap) })
    else pure (.enomem, { r with released := r.released + if r.buf.isSome then 1 else 0 })

def zeroCrlfReader : CrlfReader := ⟨none, none, false, false, 0, 0, 0, 0, 0⟩

def initCrlfReader : Request (Bool × CrlfReader) := do
  let (growth, r) ← growBuf junk zeroCrlfReader
  pure (growth = .grown, r)

def moveDown (buf : Bytes) (base count : ℕ) : Bytes :=
  if count > base then overwrite buf 0 (slice buf base count)
  else if base ≠ 0 ∧ count ≠ 0 then overwrite buf 0 (slice buf base count)
  else buf

def fillBuf (r : CrlfReader) (sd : Socket) : CrlfReadRes × CrlfReader × Socket :=
  let buf := moveDown (r.buf.getD []) r.base r.count
  let tlen := r.total - r.count
  let r := { r with buf := some buf, base := 0, readreq := false }
  match readLoop tlen sd.wire sd.arrivals with
  | (.again, sd) => (.nblock, r, sd)
  | (.fault, sd) => (.syserr, r, sd)
  | (.bytes got, sd) =>
    if got.length = 0 then (.eof, { r with eof := true }, sd)
    else (.success, { r with
      buf := some (overwrite buf r.count got)
      count := r.count + got.length
      readreq := got.length = tlen }, sd)

def readCrData (r : CrlfReader) (sd : Socket) : Request (CrlfReadRes × CrlfReader × Socket) :=
  if r.eof then pure (.eof, r, sd)
  else if r.count = r.total then do
    let (growth, r) ← growBuf junk r
    pure (match growth with
      | .grown => fillBuf r sd
      | .refused => (.longline, r, sd)
      | .enomem => (.syserr, r, sd))
  else pure (fillBuf r sd)

def strnchr (text : Bytes) (c : UInt8) : Option ℕ := text.findIdx? (· == c)

def examine (r : CrlfReader) : ℕ ⊕ ℕ :=
  let data := slice (r.buf.getD []) r.base r.count
  match strnchr (data.drop r.examined) lf with
  | none => .inr r.count
  | some off =>
    let linefeed := r.examined + off
    if r.examined = 0 ∧ linefeed = 0 then .inr 1
    else if data[linefeed - 1]? ≠ some cr then .inr (linefeed + 1)
    else .inl (linefeed + 1)

def deliver (r : CrlfReader) (len : ℕ) : Request (CrlfReadRes × CrlfReader) := do
  if ← allocate (len + 1) then
    let iv := slice (r.buf.getD []) r.base len
    let r := { r with iv := some iv, count := r.count - len, base := r.base + len, examined := 0 }
    pure (if r.count ≠ 0 ∨ r.eof then .moredata else .success, r)
  else pure (.syserr, r)

def refill (r : CrlfReader) (sd : Socket) : Request (CrlfReadRes × CrlfReader × Socket) :=
  if r.examined = r.count then readCrData junk r sd else pure (.success, r, sd)

/-- The loop of `read_crlf_line`. Each pass that goes round again has examined
at least one more byte. -/
def crlfLoop : ℕ → CrlfReader → Socket → Request (CrlfReadRes × CrlfReader × Socket)
  | 0, r, sd => pure (.syserr, r, sd)
  | passes + 1, r, sd => do
    let (res, r, sd) ← refill junk r sd
    if res ≠ .success then
      pure (if res ≠ .nblock ∧ r.count ≠ 0 ∧ res = .eof then .shortline else res, r, sd)
    else match examine r with
      | .inr examined => crlfLoop passes { r with examined := examined } sd
      | .inl len => do
        let (res, r) ← deliver r len
        pure (res, r, sd)

def readCrlfLine (r : CrlfReader) (sd : Socket) : Request (CrlfReadRes × CrlfReader × Socket) :=
  crlfLoop junk (r.count - r.examined + sd.wire.length + 1) r sd

def resetCrlfReader (r : CrlfReader) : CrlfReader :=
  { zeroCrlfReader with released := r.released + if r.buf.isSome then 1 else 0 }

/-- A caller that takes line after line, calling again when it would block, and
stops at any other result. -/
def readLines : ℕ → CrlfReader → Socket → Request (List Bytes × Option CrlfReadRes)
  | 0, _, _ => pure ([], none)
  | calls + 1, r, sd => do
    let (res, r, sd) ← readCrlfLine junk r sd
    match res with
    | .success | .moredata => do
      let (lines, last) ← readLines calls r sd
      pure (r.iv.getD [] :: lines, last)
    | .nblock => readLines calls r sd
    | res => pure ([], some res)

def readStream (calls : ℕ) (sd : Socket) : Request (List Bytes × Option CrlfReadRes) := do
  let (ok, r) ← initCrlfReader junk
  if ok then readLines junk calls r sd else pure ([], none)

end Libdank.CrlfStream
