import Libdank.IpSet.Operations
import Libdank.Parse

/-! The parsers of `objects/ipset.c`. A failed parse of a range leaves nothing
behind that a caller reads, so it is `none`; a failed parse of a set is a pair
of `none` and the set as the call leaves it. -/
namespace Libdank.IpSet
open Requests Buffers Parse

variable (inetPton : Text → Option UInt32)

def rangeDone (start buf : Text) (ir : Iprange) : Option (ℕ × Iprange) :=
  match buf with
  | [] => some (start.length, ir)
  | c :: _ =>
    if isspace c || c = ',' || c = ']' || c = '@' then some (start.length - buf.length, ir)
    else none

/-- The range of `lower/i`. Shift counts are taken modulo 32, which only
matters for the counts C leaves undefined. -/
def prefixRange (lower : UInt32) (i : ℤ) : Option Iprange :=
  if i > 0 then
    let count := UInt32.ofInt (32 - i)
    let lower := lower &&& ((0xffffffff : UInt32) <<< count)
    some ⟨lower, lower ||| (((1 : UInt32) <<< count) - 1)⟩
  else if i = 0 then some ⟨htonl 0, htonl 0xffffffff⟩
  else none

def parseIpv4range (start : Text) : Option (ℕ × Iprange) :=
  let buf := parseWhitespace start
  if buf.head? = some '-' ∨ buf.head? = some ':' then
    let buf := buf.tail
    (parseIpv4address inetPton buf).bind fun (i, upper) => rangeDone start (buf.drop i) ⟨0, upper⟩
  else
    (parseIpv4address inetPton buf).bind fun (i, lower) =>
      let buf := buf.drop i
      let lower := ntohl lower
      if buf.head? = some '/' then
        let buf := parseWhitespace buf.tail
        (scanInt buf).bind fun i =>
          (prefixRange lower i).bind fun ir => rangeDone start (buf.dropWhile isdigit) ir
      else if buf.head? = some '-' ∨ buf.head? = some ':' then
        let buf := buf.tail
        if (buf.head?.map isdigit).getD false then
          (parseIpv4address inetPton buf).bind fun (i, upper) =>
            let upper := ntohl upper
            rangeDone start (buf.drop i)
              (if lower > upper then ⟨upper, lower⟩ else ⟨lower, upper⟩)
        else rangeDone start buf ⟨lower, htonl 0xffffffff⟩
      else rangeDone start buf ⟨lower, lower⟩

def startsWithKeyword (keyword text : Text) : Bool :=
  keyword.isPrefixOf (text.map Char.toLower)

section Ranges
variable [Leftover Iprange]

/-- The loop of `parse_ipranges`, `ret` characters into `buf`. Every pass that
goes round again has consumed a comma, so as many passes as there are
characters always suffice. -/
def parseIprangesLoop (buf : Text) : ℕ → ℕ → Ipset → Request (Option ℕ × Ipset)
  | 0, _, is => pure (none, is)
  | passes + 1, ret, is =>
    match parseIpv4range inetPton (buf.drop ret) with
    | none => pure (none, is)
    | some (r, ir) => do
      let (ok, is) ← addIprange is ir
      if ok then
        if buf[ret + r]? = some ',' then parseIprangesLoop buf passes (ret + r + 1) is
        else pure (some (ret + r), is)
      else pure (none, freeIpset is)

def parseIpranges (buf : Text) (is : Ipset) : Request (Option ℕ × Ipset) :=
  parseIprangesLoop inetPton buf (buf.length + 1) 0 is

def postparseIpset (addr : Ipset) (invert : Bool) : Request (Bool × Ipset) := do
  let (ok, addr) ←
    if invert then do
      let (ok, tmp) ← addIprange initIpset iprangeAll
      if ok then do
        let (ok, tmp) ← purgeIpsets tmp addr
        pure (ok, if ok then tmp else freeIpset addr)
      else pure (false, freeIpset addr)
    else pure (true, addr)
  pure (ok && decide (addr.rangecount ≠ 0), addr)

def closeIpset (start text : Text) (inbracket invert : Bool) (is : Ipset) :
    Request (Option ℕ × Ipset) :=
  let text := parseWhitespace text
  if inbracket ∧ text.head? ≠ some ']' then pure (none, freeIpset is)
  else do
    let text := if inbracket then text.tail else text
    let (ok, is) ← postparseIpset is invert
    pure (if ok then some (start.length - text.length) else none, is)

def parseInitializedIpset (start : Text) (is : Ipset) : Request (Option ℕ × Ipset) :=
  let is := { is with ranges := [] }
  let text := parseWhitespace start
  let invert := decide (text.head? = some '!')
  let text := parseWhitespace (if invert then text.tail else text)
  let inbracket := decide (text.head? = some '[')
  let text := if inbracket then text.tail else text
  if startsWithKeyword ['a', 'n', 'y'] text then do
    let (ok, is) ← addIprange is iprangeAll
    if ok then closeIpset start (text.drop 3) inbracket invert is else pure (none, is)
  else do
    let (read, is) ← parseIpranges inetPton text is
    match read with
    | none => pure (none, is)
    | some i => closeIpset start (text.drop i) inbracket invert is

def parseIpset (text : Text) : Request (Option ℕ × Ipset) :=
  parseInitializedIpset inetPton text initIpset

end Ranges

def isInverted (start : Text) : Bool := (parseWhitespace start).head? = some '!'

def signedText (start : Text) : Text :=
  parseWhitespace (if isInverted start then (parseWhitespace start).tail else parseWhitespace start)

theorem toLower_of_isdigit {c : Char} (digit : isdigit c = true) : c.toLower = c := by
  have low : ¬ 'A' ≤ c := by
    intro letter
    simp only [isdigit, Bool.and_eq_true, decide_eq_true_eq] at digit
    have first : 'A'.toNat ≤ c.toNat := letter
    have last : c.toNat ≤ '9'.toNat := digit.2
    exact absurd (first.trans last) (by decide)
  exact dif_neg fun upper => low upper.1

theorem startsWithKeyword_digit {c k : Char} (digit : isdigit c = true) (letter : isdigit k = false)
    (keyword rest : Text) : ¬ startsWithKeyword (k :: keyword) (c :: rest) = true := by
  simp only [startsWithKeyword, List.map_cons, toLower_of_isdigit digit, List.isPrefixOf,
    Bool.and_eq_true]
  rintro ⟨same, -⟩
  obtain rfl := eq_of_beq same
  rw [digit] at letter
  exact Bool.noConfusion letter

end Libdank.IpSet
