import Mathlib.Data.List.Basic
import Mathlib.Tactic

/-! Character classes and address texts, after `utils/parse.c`. A text is the
list of its characters up to the terminating NUL, so the end of the list is
what the source reads as the character 0. Pointers into a text are what is left
of it; a length returned is a number of characters. -/
namespace Libdank.Parse

abbrev Text := List Char

def isspace (c : Char) : Bool :=
  c = ' ' || c = '\t' || c = '\n' || c = '\x0b' || c = '\x0c' || c = '\r'

def isdigit (c : Char) : Bool := '0' ≤ c && c ≤ '9'

def isalpha (c : Char) : Bool := ('a' ≤ c && c ≤ 'z') || ('A' ≤ c && c ≤ 'Z')

def isalnum (c : Char) : Bool := isalpha c || isdigit c

def isxdigit (c : Char) : Bool := isdigit c || ('a' ≤ c && c ≤ 'f') || ('A' ≤ c && c ≤ 'F')

def ispunct (c : Char) : Bool := '!' ≤ c && c ≤ '~' && !isalnum c

def tolower (c : Char) : Char := if 'A' ≤ c ∧ c ≤ 'Z' then Char.ofNat (c.toNat + 32) else c

def parseWhitespace (text : Text) : Text := text.dropWhile isspace

def decimal (digits : Text) : ℕ :=
  digits.foldl (fun value c => 10 * value + (c.toNat - '0'.toNat)) 0

/-- The conversion `%d`. A value past `long` is clamped to it and the result
truncated to `int`, as the C library does where `long` has 64 bits. -/
def scanInt (text : Text) : Option ℤ :=
  let text := parseWhitespace text
  let (negative, digits) := match text with
    | '-' :: rest => (true, rest)
    | '+' :: rest => (false, rest)
    | rest => (false, rest)
  let run := digits.takeWhile isdigit
  if run.isEmpty then none
  else
    let value : ℤ := if negative then -decimal run else decimal run
    some ((max (-2 ^ 63) (min (2 ^ 63 - 1) value)).bmod (2 ^ 32))

/-- The conversion `%u`. A value past `unsigned long` is clamped to it and the result
truncated to `unsigned`. -/
def scanUint (text : Text) : Option ℕ :=
  let text := parseWhitespace text
  let (negative, digits) := match text with
    | '-' :: rest => (true, rest)
    | '+' :: rest => (false, rest)
    | rest => (false, rest)
  let run := digits.takeWhile isdigit
  if run.isEmpty then none
  else
    let value :=
      if 2 ^ 64 ≤ decimal run then 2 ^ 64 - 1
      else if negative then 2 ^ 64 - decimal run
      else decimal run
    some (value % 2 ^ 32)

def inetAddrstrlen : ℕ := 16

/-- Number of characters consumed and the address in network byte order.
`inetPton` stands for the C library's function for `AF_INET`. -/
def parseIpv4address (inetPton : Text → Option UInt32) (buf : Text) : Option (ℕ × UInt32) :=
  let inetAddrstrmin := 7
  let iptext := parseWhitespace buf
  let ipbuf := (iptext.take (inetAddrstrlen - 1)).takeWhile fun c => isdigit c || c = '.'
  if inetAddrstrlen ≤ ipbuf.length ∨ ipbuf.length < inetAddrstrmin then none
  else (inetPton ipbuf).map fun s => (buf.length - iptext.length + ipbuf.length, s)

def ntohl (x : UInt32) : UInt32 :=
  (x <<< 24) ||| ((x &&& (0xff00 : UInt32)) <<< 8) ||| ((x >>> 8) &&& (0xff00 : UInt32)) |||
    (x >>> 24)

def htonl (x : UInt32) : UInt32 := ntohl x

def htons (x : UInt16) : UInt16 := (x <<< 8) ||| (x >>> 8)

end Libdank.Parse
