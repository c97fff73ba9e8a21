import Libdank.Printing

/-! The destructive text functions of `utils/text.c`. A text is a place in a
buffer, and what stands from there up to the next NUL. The functions move it and
write to the buffer. Pointers into it are offsets, and a NUL follows the last
character. -/
namespace Libdank.Carving
open Requests Parse Printing

/-- A `char *` into a buffer. -/
structure Cursor where
  buf : Text
  at_ : ℕ
deriving DecidableEq, Repr

def Cursor.deref (text : Cursor) : Char := text.buf.getD text.at_ nul

def Cursor.next (text : Cursor) : Cursor := { text with at_ := text.at_ + 1 }

def Cursor.skip (p : Char → Bool) (text : Cursor) : Cursor :=
  { text with at_ := text.at_ + ((text.buf.drop text.at_).takeWhile p).length }

def Cursor.string (text : Cursor) : Text := (text.buf.drop text.at_).takeWhile (· ≠ nul)

def isgraph (c : Char) : Bool := '!' ≤ c && c ≤ '~'

/-- The NUL is among the characters that `strchr` finds. -/
def carveCharset (x : Char) : Bool :=
  !(isspace x || ['=', '"', '\x27', ',', nul].contains x || !isgraph x)

def listCharset (c : Char) : Bool := carveCharset c || c = ','

def parseWhitespaces (text : Cursor) : Cursor := text.skip isspace

def isBracket (c : Char) : Bool := ['(', ')', '{', '}', '[', ']'].contains c

/-- Length of the token at the start of what is left; a bracket ends it. -/
def tokenLength : Text → ℕ
  | [] => 0
  | c :: rest => if carveCharset c then (if isBracket c then 1 else tokenLength rest + 1) else 0

/-- The end of the carving of a token from `ret` to `text`: without a token, or
without whitespace or a NUL behind it, the text goes back to `old`. -/
def carveEnd (old ret : ℕ) (text : Cursor) : Pointer ℕ × Cursor :=
  if ret = text.at_ then (none, { text with at_ := old })
  else if text.deref ≠ nul then
    if isspace text.deref then (some ret, ⟨text.buf.set text.at_ nul, text.at_ + 1⟩)
    else (none, { text with at_ := old })
  else (some ret, text)

def carveToken (text : Cursor) : Pointer ℕ × Cursor :=
  let ret := parseWhitespaces text
  carveEnd text.at_ ret.at_ { ret with at_ := ret.at_ + tokenLength (ret.buf.drop ret.at_) }

/-- The loop of `carve_quoted_token`. Nothing is written before the first escaped
character, as `escapedDest` is where the text is until then. -/
def quotedLoop (start : ℕ) : ℕ → ℕ → Cursor → Pointer ℕ × Cursor
  | 0, _, text => (none, text)
  | passes + 1, escapedDest, text =>
    if text.deref = nul then (none, text)
    else if text.deref = '"' then
      if start = text.at_ then (none, text)
      else (some start, ⟨text.buf.set escapedDest nul, text.at_ + 1⟩)
    else
      let text := if text.deref = '\\' then text.next else text
      if text.deref = nul then (none, text)
      else
        let buf := if escapedDest ≠ text.at_ then text.buf.set escapedDest text.deref else text.buf
        quotedLoop start passes (escapedDest + 1) ⟨buf, text.at_ + 1⟩

def carveQuotedToken (text : Cursor) : Pointer ℕ × Cursor :=
  quotedLoop text.at_ (text.buf.length + 1) text.at_ text

def carveQuotableToken (text : Cursor) : Pointer ℕ × Cursor :=
  let ret := parseWhitespaces text
  if ret.deref = '"' then carveQuotedToken ret.next
  else carveEnd text.at_ ret.at_ (ret.skip listCharset)

/-- What a call returns, and `*value` and `*text` after it. -/
structure Pair where
  ret : Pointer ℕ
  value : Pointer ℕ
  text : Cursor
deriving DecidableEq, Repr

def carveValuePair (text : Cursor) (value : Pointer ℕ) : Pair :=
  let toke := parseWhitespaces text
  if toke.deref = nul then ⟨some toke.at_, none, text⟩
  else
    let stop := toke.skip carveCharset
    if stop.at_ = toke.at_ ∨ stop.deref ≠ '=' then ⟨none, value, text⟩
    else
      let (value, after) := carveQuotableToken ⟨stop.buf.set stop.at_ nul, stop.at_ + 1⟩
      if value.isNone then ⟨none, value, { after with at_ := text.at_ }⟩
      else ⟨some toke.at_, value, after⟩

def carveOptionalValuePair (text : Cursor) (value : Pointer ℕ) : Pair :=
  let pair := carveValuePair text value
  if pair.ret.isNone ∨ pair.value.isNone then
    let (ret, text) := carveToken pair.text
    ⟨ret, none, text⟩
  else pair

section Lists

/-- `++tokens`, of an `int`: counting past the last of them is undefined. -/
def countToken (tokens : ℕ) : Option ℕ := if tokens + 1 < 2 ^ 31 then some (tokens + 1) else none

structure Listing where
  buf : Text
  cur : ℕ
  tokens : ℕ
  intoken : Bool
deriving DecidableEq, Repr

def Listing.deref (l : Listing) : Char := l.buf.getD l.cur nul

def commaLoop : ℕ → Listing → Option Listing
  | 0, l => some l
  | passes + 1, l =>
    if listCharset l.deref then
      if l.deref = ',' then do
        let tokens ← countToken l.tokens
        commaLoop passes ⟨l.buf.set l.cur nul, l.cur + 1, tokens, false⟩
      else commaLoop passes { l with cur := l.cur + 1, intoken := true }
    else some l

def restoreCommas (buf : Text) : ℕ → ℕ → Text
  | _, 0 => buf
  | 0, _ + 1 => buf
  | cur + 1, tokens + 1 =>
    if buf.getD cur nul = nul then restoreCommas (buf.set cur ',') cur tokens
    else restoreCommas buf cur (tokens + 1)

/-- What the call returns, `*left`, where `left` is not NULL, and the buffer. -/
structure Carved where
  ret : ℤ
  left : Pointer (Pointer ℕ)
  buf : Text
deriving DecidableEq, Repr

def carveCommaList (text : Cursor) (left : Pointer (Pointer ℕ)) : Option Carved := do
  let l ← commaLoop (text.buf.length + 1) ⟨text.buf, text.at_, 0, false⟩
  if l.deref ≠ nul then
    if isspace l.deref then
      some ⟨l.tokens, left.map fun _ => some (l.cur + 1), l.buf.set l.cur nul⟩
    else some ⟨-1, left, restoreCommas l.buf l.cur l.tokens⟩
  else if l.intoken = false then some ⟨-1, left, l.buf⟩
  else do
    let tokens ← countToken l.tokens
    some ⟨tokens, left.map fun _ => some l.cur, l.buf⟩

end Lists

/-- The value stored, if any, and where the text is then; it stays behind leading
whitespace when the address is refused. `inetPton` stands for the C library's
function for `AF_INET`. -/
def carveSingleIp (inetPton : Text → Option UInt32) (text : Cursor) : Option UInt32 × Cursor :=
  let text := parseWhitespaces text
  let temp := text.skip fun c => isdigit c || c = '.'
  let run := temp.at_ - text.at_
  if run ≥ inetAddrstrlen ∨ run ≠ 0 then (none, text)
  else match inetPton ((text.buf.drop text.at_).take run) with
    | none => (none, text)
    | some s => (some s, temp)

def carveSinglePort (text : Cursor) : Option UInt16 × Cursor :=
  let digits := text.skip isspace
  let stop := digits.skip isdigit
  if digits.at_ = stop.at_ then (none, text)
  else if stop.at_ - digits.at_ > 5 then (none, text)
  else match scanUint digits.string with
    | none => (none, text)
    | some tmp => if tmp > 65535 then (none, text) else (some (UInt16.ofNat tmp), stop)

structure SockaddrIn where
  sinFamily : ℕ
  sinPort : UInt16
  sinAddr : UInt32
deriving DecidableEq, Repr

def afInet : ℕ := 2

/-- Whether it returned 0, the address and where the text is then. The port is in host
order while it is read. -/
def carveIpv4endpoint (inetPton : Text → Option UInt32) (text : Cursor) (defaultPort : ℕ) :
    Bool × SockaddrIn × Cursor :=
  let start := text
  let si : SockaddrIn := ⟨afInet, 0, 0⟩
  match parseIpv4address inetPton text.string with
  | none => (false, si, text)
  | some (ret, s) =>
    let si := { si with sinAddr := s }
    let text := { text with at_ := text.at_ + ret }
    if text.deref = ':' then
      match carveSinglePort text.next with
      | (none, text) => (false, si, { text with at_ := start.at_ })
      | (some p, text) => (true, { si with sinPort := htons p }, text)
    else (true, { si with sinPort := htons (UInt16.ofNat defaultPort) }, text)

end Libdank.Carving
