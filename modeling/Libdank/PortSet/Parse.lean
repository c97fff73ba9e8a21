import Libdank.IpSet.Parse
import Libdank.PortSet.Operations

/-! The parsers of ports: `utils/parse.c` for one port or range, and
`objects/portset.c` for a set. A failed parse leaves nothing behind that a caller
reads, so it is `none`; a failed parse of a set is a pair of `none` and the set
as the call leaves it. -/
namespace Libdank.PortSet
open Requests Parse
open IpSet (startsWithKeyword)

def portLoop (p : ℕ) : Text → Option (ℕ × ℕ)
  | [] => some (p, 0)
  | c :: cur =>
    if isdigit c then
      let p := p * 10 + (c.toNat - '0'.toNat)
      if p > 65535 then none else (portLoop p cur).map fun (p, n) => (p, n + 1)
    else some (p, 0)

def parsePort (buf : Text) : Option (ℕ × UInt16) :=
  (portLoop 0 buf).bind fun (p, n) => if n = 0 then none else some (n, UInt16.ofNat p)

/-- The exit of `parse_portrange`: the range must be followed by the end of the
text, a space, a comma or a quotation mark. -/
def portrangeDone (start buf : Text) (pr : Portrange) : Option (ℕ × Portrange) :=
  match buf with
  | [] => some (start.length, pr)
  | c :: _ =>
    if isspace c || c = ',' || c = '"' then some (start.length - buf.length, pr) else none

def parsePortrange (start : Text) : Option (ℕ × Portrange) :=
  let buf := parseWhitespace start
  if buf.head? = some ':' ∨ buf.head? = some '-' then
    let buf := buf.tail
    (parsePort buf).bind fun (i, upper) => portrangeDone start (buf.drop i) ⟨0, upper⟩
  else
    (parsePort buf).bind fun (i, lower) =>
      let buf := buf.drop i
      if (buf.head? = some '-' ∨ buf.head? = some ':') ∧ (buf.tail.head?.map isdigit).getD false then
        let buf := buf.tail
        (parsePort buf).bind fun (i, upper) =>
          portrangeDone start (buf.drop i) (if lower > upper then ⟨upper, lower⟩ else ⟨lower, upper⟩)
      else if buf.head? = some ':' ∨ buf.head? = some '-' then
        portrangeDone start buf.tail ⟨lower, 65535⟩
      else portrangeDone start buf ⟨lower, lower⟩

def portrangeAll : Portrange := ⟨0, 0xffff⟩

def freePortset (_ : Portset) : Portset := initPortset

/-- The loop of `parse_numeric_ports`: whether a range is still needed and what is
left of the text, unless memory runs out. Every pass that goes round again has
consumed a range, so as many passes as there are characters always suffice. -/
def numericPortsLoop : ℕ → Text → Bool → Portset → Request (Option (Bool × Text) × Portset)
  | 0, _, _, tmp => pure (none, tmp)
  | passes + 1, buf, needPortset, tmp =>
    match parsePortrange buf with
    | none => pure (some (needPortset, buf), tmp)
    | some (i, pr) => do
      let (ok, tmp) ← mergePortset tmp pr
      if ok then
        let buf := buf.drop i
        if buf.head? = some ',' then numericPortsLoop passes buf.tail needPortset tmp
        else numericPortsLoop passes buf false tmp
      else pure (none, freePortset tmp)

def sizeofPortset : ℕ := 16

/-- The set, and the text past it; where there is none the text stays, but where
the copy of the set cannot be made. -/
def parseNumericPorts (start : Text) : Request (Option Portset × Text) := do
  let (parsed, tmp) ← numericPortsLoop (start.length + 1) start true initPortset
  match parsed with
  | none => pure (none, start)
  | some (needPortset, buf) =>
    if needPortset then pure (none, start)
    else do
      if ← allocate sizeofPortset then pure (some tmp, buf) else pure (none, buf)

def closePortset (start text : Text) (ports : Portset) : Request (Option ℕ × Portset) :=
  if ports.rangecount = 0 then pure (none, ports)
  else pure (some (start.length - text.length), ports)

def invertPortset (ports ps : Portset) : Request (Bool × Portset) := do
  let (ok, ports) ← mergePortset ports portrangeAll
  if ok then untilFailure cutPortset ports ps.ranges else pure (false, ports)

def parsePortset (start : Text) (ports : Portset) : Request (Option ℕ × Portset) :=
  let text := parseWhitespace start
  let invert := decide (text.head? = some '!')
  let text := parseWhitespace (if invert then text.tail else text)
  if startsWithKeyword ['a', 'n', 'y'] text then
    if invert then pure (none, freePortset ports)
    else do
      let (ok, ports) ← mergePortset ports portrangeAll
      if ok then pure (some (start.length - text.length + 3), ports)
      else pure (none, freePortset ports)
  else if startsWithKeyword ['n', 'o', 'n', 'e'] text then
    if invert then pure (none, freePortset ports)
    else pure (some (start.length - text.length + 4), ports)
  else do
    let (ps, text) ← parseNumericPorts text
    match ps with
    | none => pure (none, freePortset ports)
    | some ps =>
      if invert then do
        let (ok, ports) ← invertPortset ports ps
        if ok then closePortset start text ports else pure (none, freePortset ports)
      else closePortset start text ps

end Libdank.PortSet
