import Libdank.Foundation.Buffers
import Libdank.Foundation.Requests

/-! The line parser of `utils/lineparser.c`. A string handed out is read from
the buffer up to its first NUL, as the caller will. Fresh memory holds whatever
`junk` says. The counters are unbounded: where BUFSIZ is a power of two, a line
long enough to make `total` wrap asks for a buffer of no bytes, which is a
failed allocation. -/
namespace Libdank.LineParser
open Buffers Requests

abbrev Bytes := List UInt8

def newline : UInt8 := 0x0a

def hash : UInt8 := 0x23

def backslash : UInt8 := 0x5c

def space : UInt8 := 0x20

def isspace (c : UInt8) : Bool := c = space || (0x09 ≤ c && c ≤ 0x0d)

structure LineParserCtx where
  buf : Bytes
  count : ℕ
  total : ℕ
  base : ℕ
  eof : Bool
deriving DecidableEq, Repr

/-- What the next `read` does: fail, or return one more byte than the number
given, as far as it is asked for them and the file has them. -/
inductive Arrival where
  | fault | data (more : ℕ)
deriving DecidableEq, Repr

/-- The descriptor. A regular file has no arrivals: every `read` returns all it
is asked for, up to the end of the file. -/
structure File where
  rest : Bytes
  arrivals : List Arrival
deriving DecidableEq, Repr

def read (fd : File) (tlen : ℕ) : Option Bytes × File :=
  match fd.arrivals with
  | [] => (some (fd.rest.take tlen), ⟨fd.rest.drop tlen, []⟩)
  | .fault :: arrivals => (none, ⟨fd.rest, arrivals⟩)
  | .data more :: arrivals =>
    (some (fd.rest.take (min (more + 1) tlen)), ⟨fd.rest.drop (min (more + 1) tlen), arrivals⟩)

def cstring (buf : Bytes) (at_ : ℕ) : Bytes := (buf.drop at_).takeWhile (· ≠ 0)

def strchr (buf : Bytes) (at_ : ℕ) (c : UInt8) : Option ℕ :=
  ((cstring buf at_).findIdx? (· == c)).map (at_ + ·)

variable (junk : ℕ → UInt8) (bufsiz : ℕ)

def prepareLineParser : Request (Option LineParserCtx) := do
  if ← allocate bufsiz then pure (some ⟨regrow junk [] bufsiz, 0, bufsiz, 0, false⟩)
  else pure none

def isComment (buf : Bytes) (offset : ℕ) : Bool := buf.getD offset 0 = hash

/-- Room for the next `read`: a larger buffer if the line fills it, otherwise
the data moved to its start. -/
def makeRoom (ctx : LineParserCtx) : Request (Bool × LineParserCtx) :=
  if ctx.count = ctx.total - 1 then do
    if ← allocate (ctx.total + bufsiz) then
      pure (true, { ctx with total := ctx.total + bufsiz, buf := regrow junk ctx.buf (ctx.total + bufsiz) })
    else pure (false, ctx)
  else if ctx.count > ctx.base then
    pure (true, { ctx with buf := overwrite ctx.buf 0 (slice ctx.buf ctx.base ctx.count) })
  else if ctx.count ≠ 0 then
    pure (true, { ctx with buf := overwrite ctx.buf 0 (slice ctx.buf ctx.base ctx.count) })
  else pure (true, ctx)

inductive Refilled where
  | more | ended | failed
deriving DecidableEq

def receive (ctx : LineParserCtx) (fd : File) : Refilled × LineParserCtx × File :=
  let tlen := ctx.total - ctx.count - 1
  match read fd tlen with
  | (none, fd) => (.failed, { ctx with eof := true }, fd)
  | (some got, fd) =>
    let ctx := { ctx with eof := ctx.eof || decide (got.length < tlen) }
    if got.length < tlen ∧ got.length = 0 then (.ended, ctx, fd)
    else (.more, { ctx with
      count := ctx.count + got.length
      buf := (overwrite ctx.buf ctx.count got).set (ctx.count + got.length) 0 }, fd)

def refill (ctx : LineParserCtx) (fd : File) : Request (Refilled × LineParserCtx × File) := do
  let (ok, ctx) ← makeRoom junk bufsiz ctx
  pure (if ok then receive { ctx with base := 0 } fd else (.failed, ctx, fd))

def refillAt (examined : ℕ) (ctx : LineParserCtx) (fd : File) :
    Request (Refilled × LineParserCtx × File) :=
  if ctx.count = examined then refill junk bufsiz ctx fd else pure (.more, ctx, fd)

/-- The loop over leading whitespace. `join` holds `joinc` and `joinb` once
`joinlines` is set, which the next pass, at the same backslash, takes as the
end. -/
def skipWhitespace : ℕ → Option (ℕ × ℕ) → LineParserCtx → LineParserCtx
  | 0, _, ctx => ctx
  | passes + 1, join, ctx =>
    if ctx.count = 0 then ctx
    else
      let c := ctx.buf.getD ctx.base 0
      if isspace c then
        match join with
        | some (_, joinb) =>
          if c = newline then
            skipWhitespace passes none { ctx with
              buf := (ctx.buf.set joinb space).set ctx.base space
              count := ctx.count - 1
              base := ctx.base + 1 }
          else skipWhitespace passes join { ctx with count := ctx.count - 1, base := ctx.base + 1 }
        | none => skipWhitespace passes none { ctx with count := ctx.count - 1, base := ctx.base + 1 }
      else match join with
        | some (joinc, joinb) => { ctx with count := joinc, base := joinb }
        | none =>
          if c = backslash then skipWhitespace passes (some (ctx.count, ctx.base)) ctx
          else ctx

/-- The walk back from the newline `len` bytes after `base`, as far as the
backslash that continues the line. -/
def continuation (buf : Bytes) (base : ℕ) : ℕ → Option ℕ
  | 0 => none
  | len + 1 =>
    let c := buf.getD (base + len) 0
    if c = backslash then some (base + len)
    else if isspace c then continuation buf base len
    else none

/-- The loop that looks for the end of the line from `examined` on and joins
continued lines. -/
def findEnd : ℕ → LineParserCtx → ℕ → Option ℕ × LineParserCtx × ℕ
  | 0, ctx, examined => (none, ctx, examined)
  | passes + 1, ctx, examined =>
    match strchr ctx.buf (ctx.base + examined) newline with
    | none => (none, ctx, examined)
    | some end_ =>
      match continuation ctx.buf ctx.base (end_ - ctx.base) with
      | some tmp =>
        findEnd passes { ctx with buf := (ctx.buf.set tmp space).set end_ space } (end_ - ctx.base)
      | none => (some end_, ctx, examined)

inductive NextLine where
  | line (text : Bytes) | eof | failed
deriving DecidableEq, Repr

/-- The exit below the loop: what is left is the last line. -/
def lastLine (ctx : LineParserCtx) : NextLine × LineParserCtx :=
  if ctx.count ≠ 0 ∧ ¬ isComment ctx.buf ctx.base then
    (.line (cstring ctx.buf ctx.base), { ctx with count := 0 })
  else (.eof, ctx)

def takeLine (ctx : LineParserCtx) (end_ : ℕ) : Option Bytes × LineParserCtx :=
  let len := end_ - ctx.base + 1
  if isComment ctx.buf ctx.base then
    (none, { ctx with count := ctx.count - len, base := ctx.base + len })
  else
    let buf := ctx.buf.set end_ 0
    (some (cstring buf ctx.base), { ctx with buf := buf, count := ctx.count - len, base := ctx.base + len })

/-- The rest of a pass of the loop, once there is data not yet examined: a line
to deliver, or the state and `examined` for the next pass. -/
def scan (ctx : LineParserCtx) (examined : ℕ) : Option Bytes × LineParserCtx × ℕ :=
  let ctx := if examined = 0 then skipWhitespace (ctx.count + 2) none ctx else ctx
  if examined = 0 ∧ ctx.count = 0 then (none, ctx, 0)
  else
    match findEnd (ctx.count + 1) ctx examined with
    | (some end_, ctx, _) =>
      let (line, ctx) := takeLine ctx end_
      (line, ctx, 0)
    | (none, ctx, _) => (none, ctx, ctx.count)

def nextLoop : ℕ → LineParserCtx → File → ℕ → Request (NextLine × LineParserCtx × File)
  | 0, ctx, fd, _ => pure (.failed, ctx, fd)
  | passes + 1, ctx, fd, examined =>
    if ctx.count > examined ∨ ctx.eof = false then do
      let (refilled, ctx, fd) ← refillAt junk bufsiz examined ctx fd
      match refilled with
      | .failed => pure (.failed, ctx, fd)
      | .ended =>
        let (line, ctx) := lastLine ctx
        pure (line, ctx, fd)
      | .more =>
        match scan ctx examined with
        | (some line, ctx, _) => pure (.line line, ctx, fd)
        | (none, ctx, examined) => nextLoop passes ctx fd examined
    else
      let (line, ctx) := lastLine ctx
      pure (line, ctx, fd)

def lineParserNext (ctx : LineParserCtx) (fd : File) :
    Request (NextLine × LineParserCtx × File) :=
  nextLoop junk bufsiz (4 * fd.rest.length + 2 * ctx.count + 3) ctx fd 0

/-- The lines a caller is given until it is given NULL. -/
def nextLines : ℕ → LineParserCtx → File → Request (List Bytes)
  | 0, _, _ => pure []
  | calls + 1, ctx, fd => do
    let (line, ctx, fd) ← lineParserNext junk bufsiz ctx fd
    match line with
    | .line text => do
      let lines ← nextLines calls ctx fd
      pure (text :: lines)
    | _ => pure []

def parseLines (calls : ℕ) (fd : File) : Request (List Bytes) := do
  match ← prepareLineParser junk bufsiz with
  | some ctx => nextLines junk bufsiz calls ctx fd
  | none => pure []

end Libdank.LineParser
