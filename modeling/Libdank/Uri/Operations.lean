import Libdank.Foundation.Requests
import Libdank.Lexers

/-! URIs, after `utils/rfc2396.c`. A function that advances the caller's pointer
returns what it leaves of the text. `inetPton` stands for the C library's
function for `AF_INET6`: whether it accepts the literal. -/
namespace Libdank.Uri
open Parse Lexers Requests

/-- A string a record points at; `malloced` if this module allocated it. -/
structure OwnString where
  text : Text
  malloced : Bool
deriving DecidableEq, Repr

structure Record where
  scheme : Pointer OwnString
  host : Pointer OwnString
  userinfo : Pointer OwnString
  path : Pointer OwnString
  query : Pointer OwnString
  fragment : Pointer OwnString
  port : ℕ
  opaquePart : Pointer OwnString
deriving DecidableEq, Repr

def zeroed : Record := ⟨none, none, none, none, none, none, 0, none⟩

def head (s : Text) : Char := s.headD '\x00'

def reservedChar (c : Char) : Bool :=
  c = ';' || c = '/' || c = '?' || c = ':' || c = '@' || c = '&' || c = '=' || c = '+' ||
    c = '$' || c = ','

def unreservedChar (c : Char) : Bool :=
  isalnum c || c = '-' || c = '_' || c = '.' || c = '!' || c = '~' || c = '*' || c = '\'' ||
    c = '(' || c = ')'

def unwiseChar (c : Char) : Bool :=
  c = '{' || c = '}' || c = '|' || c = '\\' || c = '^' || c = '[' || c = ']' || c = '\x60'

def escapeSequence (u : Text) : ℕ :=
  if u.head? = some '%' then
    if u[1]? = some 'u' then
      if (u.drop 2).take 4 |>.all isxdigit then if 6 ≤ u.length then 6 else 0 else 0
    else if (u.drop 1).take 2 |>.all isxdigit then if 3 ≤ u.length then 3 else 0 else 0
  else 0

def pchar (c : Text) : ℕ :=
  if unreservedChar (head c) || unwiseChar (head c) then 1
  else if escapeSequence c ≠ 0 then escapeSequence c
  else
    let c := head c
    (c = '/' || c = ':' || c = '@' || c = '&' || c = '=' || c = '+' || c = '$' || c = ',' ||
      c = ';').toNat

def qchar (c : Text) : ℕ :=
  if escapeSequence c ≠ 0 then escapeSequence c
  else (unreservedChar (head c) || reservedChar (head c) || unwiseChar (head c)).toNat

/-- What the loops over a host, and over what may be one, accept. -/
def hostChar (c : Text) : ℕ :=
  if unreservedChar (head c) then 1 else escapeSequence c

def authChar (c : Text) : ℕ :=
  if hostChar c ≠ 0 then hostChar c else (head c = ':' : Bool).toNat

def skip (len : Text → ℕ) : ℕ → Text → Text
  | 0, s => s
  | passes + 1, s => if len s = 0 then s else skip len passes (s.drop (len s))

def skipAll (len : Text → ℕ) (s : Text) : Text := skip len s.length s

def upto (start stop : Text) : Text := start.take (start.length - stop.length)

def strndup (s : Text) : Request (Pointer OwnString) := do
  if ← allocate (s.length + 1) then pure (some ⟨s, true⟩) else pure none

def free (s : Pointer OwnString) : Request Unit := visit (s.all (·.malloced))

/-- How a step of the parser ends: whether it succeeded, what it leaves of the
text, and the record. -/
abbrev Ended (α : Type) := Bool × α × Pointer Record

/-- Go on with `next` if a step succeeds; on an error leave through `err`. -/
def andThen {α β : Type} (step : Request (Ended α)) (next : α → Pointer Record → Request (Ended β))
    (err : α → Pointer Record → Request (Ended β)) : Request (Ended β) := do
  let (ok, a, u) ← step
  if ok then next a u else err a u

/-- `u && (u->field = Strndup(start,stop - start)) == NULL` is an error. -/
def keep (set : Record → Pointer OwnString → Record) (start stop : Text) : Pointer Record → Request (Ended Text)
  | none => pure (true, stop, none)
  | some u => do
    let copy ← strndup (upto start stop)
    pure (copy.isSome, stop, some (set u copy))

def inet6Addrstrlen : ℕ := 46

/-- An address literal, from its bracket on. -/
def skipLiteral (inetPton : Text → Bool) (host : Text) : Bool × Text :=
  let literal := host.tail
  let line := literal.dropWhile fun c => isxdigit c || c = '.' || c = ':'
  if head line ≠ ']' ∨ line.length = literal.length then (false, line)
  else if inet6Addrstrlen ≤ literal.length - line.length then (false, line)
  else if inetPton (upto literal line) = false then (false, line)
  else (true, line.tail)

/-- The part before the host, and a host that is a name. The host found, and
what follows it. -/
def parseUserinfo (host : Text) (u : Pointer Record) : Request (Ended (Text × Text)) :=
  if head host = '[' then pure (true, (host, host), u)
  else
    let line := skipAll authChar host
    if head line = '@' then
      if line.length = host.length then pure (false, (host, line), u)
      else andThen (keep (fun u s => { u with userinfo := s }) host line u)
        (fun line u =>
          let host := line.tail
          pure (true, (host, if head host = '[' then host else skipAll hostChar host), u))
        (fun line u => pure (false, (host, line), u))
    else pure (true, (host, line), u)

def parseHost (inetPton : Text → Bool) (host line : Text) (u : Pointer Record) : Request (Ended Text) :=
  let (ok, line) :=
    if line.length = host.length then
      if head line = '[' then skipLiteral inetPton line else (false, line)
    else (true, line)
  if ok then keep (fun u s => { u with host := s }) host line u else pure (false, line, u)

def parseUriPort (line : Text) (u : Pointer Record) : Request (Ended Text) :=
  if head line = ':' then
    match lexU16 line.tail with
    | .ok (p, rest) => pure (true, rest, u.map fun u => { u with port := p })
    | .error _ => pure (false, line.tail, u)
  else pure (true, line, u)

def leaveAuthority (line : Text) : Pointer Record → Request (Ended Text)
  | none => pure (false, line, none)
  | some u => do
    free u.userinfo
    free u.host
    free u.path
    pure (false, line, some { u with userinfo := none, host := none, path := none, port := 0 })

def parseUriAuthority (inetPton : Text → Bool) (line : Text) (u : Pointer Record) : Request (Ended Text) :=
  andThen (parseUserinfo line u)
    (fun found u => andThen (parseHost inetPton found.1 found.2 u)
      (fun line u => andThen (parseUriPort line u) (fun line u => pure (true, line, u)) leaveAuthority)
      leaveAuthority)
    (fun found => leaveAuthority found.2)

def leavePath (line : Text) : Pointer Record → Request (Ended Text)
  | none => pure (false, line, none)
  | some u => do
    free u.path
    free u.fragment
    free u.query
    pure (false, line, some { u with path := none, fragment := none, query := none })

def parseUriTail (delimiter : Char) (len : Text → ℕ)
    (set : Record → Pointer OwnString → Record) (line : Text) (u : Pointer Record) : Request (Ended Text) :=
  if head line = delimiter then keep set line.tail (skipAll len line.tail) u
  else pure (true, line, u)

def parseUriPath (path : Text) (ur : Pointer Record) : Request (Ended Text) :=
  let u := skipAll pchar path
  andThen
    (if u.length = path.length then pure (true, u, ur)
      else keep (fun u s => { u with path := s }) path u ur)
    (fun u ur => andThen (parseUriTail '?' qchar (fun u s => { u with query := s }) u ur)
      (fun u ur => andThen (parseUriTail '#' pchar (fun u s => { u with fragment := s }) u ur)
        (fun u ur => pure (true, u, ur)) leavePath)
      leavePath)
    (fun u ur => pure (false, u, ur))

def resetUri : Pointer Record → Request (Pointer Record)
  | none => pure none
  | some u => do
    free u.scheme
    free u.host
    free u.userinfo
    free u.path
    free u.query
    free u.fragment
    free u.opaquePart
    pure (some zeroed)

def parseUriOpaque (line : Text) (ur : Pointer Record) : Request (Ended Text) :=
  andThen (keep (fun u s => { u with opaquePart := s }) line (line.dropWhile fun c => !isspace c) ur)
    (fun u ur => pure (true, u, ur)) (fun _ ur => pure (false, line, ur))

/-- `strncasecmp` over the length of the scheme asked for, if one is. -/
def schemeMatches (scheme : Pointer Text) (schemestart : Text) : Bool :=
  match scheme with
  | none => true
  | some scheme => (schemestart.take scheme.length).map tolower = scheme.map tolower

def parseUriScheme (scheme : Pointer Text) (schemestart : Text) (ur : Pointer Record) : Request (Ended Text) :=
  let u := schemestart.dropWhile fun c => isalnum c || c = '-'
  if schemestart.length ≠ u.length ∧ head u = ':' then
    if schemeMatches scheme schemestart then
      andThen (keep (fun u s => { u with scheme := s }) schemestart u ur)
        (fun u ur => pure (true, u.tail, ur)) (fun u ur => pure (false, u, ur))
    else pure (false, u, ur)
  else pure (true, schemestart, ur.map fun u => { u with scheme := none })

def parseUriRest (inetPton : Text → Bool) (u : Text) (ur : Pointer Record) : Request (Ended Text) :=
  if head u = '/' then
    andThen
      (if u[1]? = some '/' then parseUriAuthority inetPton (u.drop 2) ur else pure (true, u, ur))
      parseUriPath (fun u ur => pure (false, u, ur))
  else parseUriOpaque u ur

/-- A NULL scheme allows any scheme to be matched. -/
def extractUriInternal (inetPton : Text → Bool) (scheme : Pointer Text) (line : Text)
    (ur : Pointer Record) : Request (Ended Text) :=
  let leave (_ : Text) (ur : Pointer Record) : Request (Ended Text) := do pure (false, line, ← resetUri ur)
  andThen (parseUriScheme scheme (parseWhitespace line) (ur.map fun _ => zeroed))
    (fun u ur => andThen (parseUriRest inetPton u ur) (fun u ur => pure (true, u, ur)) leave) leave

def parseUri (inetPton : Text → Bool) (scheme : Pointer Text) (line : Text) :
    Request (Bool × Text) := do
  let (ok, line, _) ← extractUriInternal inetPton scheme line none
  pure (ok, line)

def recordBytes : ℕ := 64

/-- `fresh` is what the memory of the record happens to hold. -/
def extractUri (inetPton : Text → Bool) (fresh : Record) (scheme : Pointer Text) (line : Text) :
    Request (Pointer Record × Text) := do
  if ← allocate recordBytes then
    let (ok, line, ret) ← extractUriInternal inetPton scheme line (some fresh)
    if ok then pure (ret, line)
    else
      let _ ← resetUri ret
      pure (none, line)
  else pure (none, line)

def extractConnectUri (inetPton : Text → Bool) (fresh : Record) (line : Text) :
    Request (Pointer Record × Text) := do
  if ← allocate recordBytes then
    let (ok, line, ret) ← parseUriAuthority inetPton line (some fresh)
    if ok then pure (ret, line)
    else
      let _ ← resetUri ret
      pure (none, line)
  else pure (none, line)

def hasAuthoritySection (u : Record) : Bool := u.host.isSome || u.userinfo.isSome || u.port ≠ 0

def printPort (port : ℕ) : Text := Nat.toDigits 10 (port % 2 ^ 16)

section Printer

-- `printUString` appends a text to a string, or runs out of memory.
variable {σ : Type} (printUString : σ → Text → Option σ)

def printField (before after : Text) (us : σ) : Pointer OwnString → Option σ
  | none => some us
  | some s => printUString us (before ++ s.text ++ after)

def printAuthority (us : σ) (u : Record) : Option σ :=
  if hasAuthoritySection u then do
    let us ← printUString us ['/', '/']
    let us ← printField printUString [] ['@'] us u.userinfo
    let us ← printField printUString [] [] us u.host
    if u.port ≠ 0 then printUString us (':' :: printPort u.port) else some us
  else some us

def printPath (us : σ) (u : Record) : Option σ := do
  let us ← printField printUString [] [] us u.path
  let us ← printField printUString ['?'] [] us u.query
  printField printUString ['#'] [] us u.fragment

def stringizeUri (us : σ) (u : Record) : Option σ := do
  let us ← printField printUString [] [':'] us u.scheme
  match u.opaquePart with
  | some s => printUString us s.text
  | none =>
    let us ← printAuthority printUString us u
    printPath printUString us u

end Printer

end Libdank.Uri
