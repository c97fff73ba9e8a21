import Mathlib.Data.List.TakeWhile
import Libdank.Uri.RoundTrip

/-! Which text the host takes. Before an `@` the colon is taken for part of the
userinfo, so without one the host runs on over the colon and the port. -/
namespace Libdank.Uri
open Parse Lexers Requests

/-- Unreserved characters and escapes. -/
inductive Name : Text → Prop
  | nil : Name []
  | char {c : Char} {s : Text} (plain : unreservedChar c = true) (rest : Name s) : Name (c :: s)
  | escape {a b : Char} {s : Text} (hex : [a, b].all isxdigit = true) (rest : Name s) :
      Name ('%' :: a :: b :: s)
  | unicode {a b c d : Char} {s : Text} (hex : [a, b, c, d].all isxdigit = true) (rest : Name s) :
      Name ('%' :: 'u' :: a :: b :: c :: d :: s)

/-- A text that a loop with `len` goes over piece by piece. -/
inductive Pieces (len : Text → ℕ) : Text → Prop
  | nil : Pieces len []
  | cons {piece s : Text} (some_ : piece ≠ []) (taken : ∀ t, len (piece ++ t) = piece.length)
      (rest : Pieces len s) : Pieces len (piece ++ s)

theorem Pieces.append {len : Text → ℕ} {s t : Text} (hs : Pieces len s) (ht : Pieces len t) :
    Pieces len (s ++ t) := by
  induction hs with
  | nil => exact ht
  | @cons piece s some_ taken rest ih =>
    rw [List.append_assoc]
    exact .cons some_ taken ih

theorem skip_pieces {len : Text → ℕ} {s stop : Text} (pieces : Pieces len s) (end_ : len stop = 0)
    {passes : ℕ} (enough : s.length ≤ passes) : skip len passes (s ++ stop) = stop := by
  induction pieces generalizing passes with
  | nil =>
    cases passes with
    | zero => rfl
    | succ passes => rw [List.nil_append, skip, if_pos end_]
  | @cons piece s some_ taken rest ih =>
    have pos : 0 < piece.length := List.length_pos_iff.mpr some_
    rw [List.length_append] at enough
    obtain ⟨passes, rfl⟩ : ∃ k, passes = k + 1 := ⟨passes - 1, by omega⟩
    rw [List.append_assoc, skip, taken, if_neg (by omega), List.drop_left]
    exact ih (by omega)

theorem skipAll_pieces {len : Text → ℕ} {s stop : Text} (pieces : Pieces len s)
    (end_ : len stop = 0) : skipAll len (s ++ stop) = stop :=
  skip_pieces pieces end_ (by rw [List.length_append]; omega)

theorem escapeSequence_hex {a b : Char} (hex : [a, b].all isxdigit = true) (t : Text) :
    escapeSequence ('%' :: a :: b :: t) = 3 := by
  obtain ⟨ha, hb⟩ : isxdigit a = true ∧ isxdigit b = true := by simpa using hex
  have other : a ≠ 'u' := by
    rintro rfl
    exact absurd ha (by decide)
  simp [escapeSequence, other, ha, hb]

theorem escapeSequence_unicode {a b c d : Char} (hex : [a, b, c, d].all isxdigit = true) (t : Text) :
    escapeSequence ('%' :: 'u' :: a :: b :: c :: d :: t) = 6 := by
  obtain ⟨ha, hb, hc, hd⟩ : isxdigit a = true ∧ isxdigit b = true ∧ isxdigit c = true ∧
      isxdigit d = true := by simpa using hex
  simp [escapeSequence, ha, hb, hc, hd]

theorem Name.hostPieces {s : Text} (name : Name s) : Pieces hostChar s := by
  have percent : unreservedChar '%' = false := by decide
  induction name with
  | nil => exact .nil
  | @char c s plain rest ih =>
    exact @Pieces.cons _ [c] _ (by simp) (fun t => by simp [hostChar, head, plain]) ih
  | @escape a b s hex rest ih =>
    refine @Pieces.cons _ ['%', a, b] _ (by simp) (fun t => ?_) ih
    simp [hostChar, head, percent, escapeSequence_hex hex t]
  | @unicode a b c d s hex rest ih =>
    refine @Pieces.cons _ ['%', 'u', a, b, c, d] _ (by simp) (fun t => ?_) ih
    simp [hostChar, head, percent, escapeSequence_unicode hex t]

theorem Pieces.auth {s : Text} (pieces : Pieces hostChar s) : Pieces authChar s := by
  induction pieces with
  | nil => exact .nil
  | @cons piece s some_ taken rest ih =>
    refine .cons some_ (fun t => ?_) ih
    have pos : piece.length ≠ 0 := by simpa using some_
    rw [authChar, taken, if_pos pos]

theorem Name.authPieces {s : Text} (name : Name s) : Pieces authChar s := name.hostPieces.auth

theorem name_digits (digits : Text) (all : ∀ c ∈ digits, isdigit c = true) : Name digits := by
  induction digits with
  | nil => exact .nil
  | cons c digits ih =>
    refine .char ?_ (ih fun d hd => all d (by simp [hd]))
    simp [unreservedChar, isalnum, all c (by simp)]

theorem Name.head_ne {s t : Text} (name : Name s) (some_ : s ≠ []) {c : Char}
    (reserved : unreservedChar c = false) (other : c ≠ '%') : head (s ++ t) ≠ c := by
  cases name with
  | nil => exact absurd rfl some_
  | char plain rest =>
    rintro rfl
    exact absurd plain (by simpa [head] using reserved)
  | escape hex rest => exact fun same => other same.symm
  | unicode hex rest => exact fun same => other same.symm

theorem head_cons (c : Char) (s : Text) : head (c :: s) = c := rfl

theorem upto_left (s t : Text) : upto (s ++ t) t = s := by simp [upto]

def Ends (rest : Text) : Prop := rest = [] ∨ rest.head? = some '/'

theorem Ends.digit {rest : Text} (ends : Ends rest) : ∀ c ∈ rest.head?, isdigit c = false := by
  intro c hc
  rcases ends with rfl | slash
  · simp at hc
  · obtain rfl : '/' = c := by simpa [slash] using hc
    decide

theorem Ends.cases {rest : Text} (ends : Ends rest) : rest = [] ∨ ∃ tail, rest = '/' :: tail := by
  rcases ends with rfl | slash
  · exact .inl rfl
  · cases rest with
    | nil => simp at slash
    | cons c tail =>
      obtain rfl : c = '/' := by simpa using slash
      exact .inr ⟨tail, rfl⟩

theorem authChar_reserved {c : Char} (t : Text) (reserved : unreservedChar c = false) (colon : c ≠ ':')
    (percent : c ≠ '%') : authChar (c :: t) = 0 := by
  simp [authChar, hostChar, head, reserved, escapeSequence, colon, percent]

theorem Ends.stops {rest : Text} (ends : Ends rest) : authChar rest = 0 := by
  rcases ends.cases with rfl | ⟨tail, rfl⟩
  · decide
  · exact authChar_reserved tail (by decide) (by decide) (by decide)

section Authority

variable (inetPton : Text → Bool) {userinfo host rest : Text} {port : ℕ}

theorem authority_userinfo (user : Name userinfo) (someUser : userinfo ≠ []) (name : Name host)
    (someHost : host ≠ []) (pos : 0 < port) (fits : port < 2 ^ 16) (ends : Ends rest) :
    authority inetPton (userinfo ++ '@' :: (host ++ ':' :: (Nat.toDigits 10 port ++ rest))) =
      some (rest, ⟨some userinfo, host, some (Nat.toDigits 10 port, port)⟩) := by
  have at_ := skipAll_pieces user.authPieces (authChar_reserved
    (host ++ ':' :: (Nat.toDigits 10 port ++ rest)) (by decide : unreservedChar '@' = false)
      (by decide) (by decide))
  have colon : hostChar (':' :: (Nat.toDigits 10 port ++ rest)) = 0 := by
    simp [hostChar, head, escapeSequence, (by decide : unreservedChar ':' = false)]
  have stop := skipAll_pieces name.hostPieces colon
  have inner : ¬ head (host ++ ':' :: (Nat.toDigits 10 port ++ rest)) = '[' :=
    name.head_ne someHost (by decide) (by decide)
  have start : hostStart (userinfo ++ '@' :: (host ++ ':' :: (Nat.toDigits 10 port ++ rest))) =
      some ((host ++ ':' :: (Nat.toDigits 10 port ++ rest), ':' :: (Nat.toDigits 10 port ++ rest)),
        some userinfo) := by
    unfold hostStart
    rw [if_neg (user.head_ne someUser (by decide) (by decide)), at_, if_pos (head_cons _ _), if_neg]
    · simp only [List.tail_cons, inner, if_false, stop, upto_left]
    · simp [List.length_append, someUser]
  have finish : hostEnd inetPton (host ++ ':' :: (Nat.toDigits 10 port ++ rest))
      (':' :: (Nat.toDigits 10 port ++ rest)) = some (':' :: (Nat.toDigits 10 port ++ rest)) := by
    rw [hostEnd, if_neg]
    simp [List.length_append, someHost]
  have number : portEnd (':' :: (Nat.toDigits 10 port ++ rest)) =
      some (rest, some (Nat.toDigits 10 port, port)) := by
    rw [portEnd, if_pos (head_cons _ _), List.tail_cons, lexU16, lexUint_toDigits (by decide) pos fits 0 rest ends.digit]
    simp only [upto_left]
  simp [authority, start, finish, number, upto_left]

theorem authority_bare (name : Name host) (someHost : host ≠ []) (ends : Ends rest) :
    authority inetPton (host ++ ':' :: (Nat.toDigits 10 port ++ rest)) =
      some (rest, ⟨none, host ++ ':' :: Nat.toDigits 10 port, none⟩) := by
  have digits : Name (Nat.toDigits 10 port) := name_digits _ fun c hc => by
    rw [isdigit_eq]
    exact Nat.isDigit_of_mem_toDigits (by decide) (by decide) hc
  have colon : Pieces authChar (':' :: Nat.toDigits 10 port) :=
    @Pieces.cons _ [':'] _ (by simp) (fun t => by
      simp [authChar, hostChar, head, escapeSequence, (by decide : unreservedChar ':' = false)])
      digits.authPieces
  have shape : host ++ ':' :: (Nat.toDigits 10 port ++ rest) =
      (host ++ ':' :: Nat.toDigits 10 port) ++ rest := by simp
  have all := skipAll_pieces (name.authPieces.append colon) ends.stops
  have start : hostStart (host ++ ':' :: (Nat.toDigits 10 port ++ rest)) =
      some ((host ++ ':' :: (Nat.toDigits 10 port ++ rest), rest), none) := by
    unfold hostStart
    rw [if_neg (name.head_ne someHost (by decide) (by decide)), if_neg]
    · rw [shape, all]
    · rw [shape, all]
      rcases ends.cases with rfl | ⟨tail, rfl⟩
      · decide
      · simp [head]
  have finish : hostEnd inetPton (host ++ ':' :: (Nat.toDigits 10 port ++ rest)) rest = some rest := by
    rw [hostEnd, if_neg]
    simp only [List.length_append, List.length_cons]
    omega
  have none_ : portEnd rest = some (rest, none) := by
    rw [portEnd, if_neg]
    rcases ends.cases with rfl | ⟨tail, rfl⟩
    · decide
    · simp [head]
  simp only [authority, start, finish, none_, Option.bind_some, Option.map_some]
  rw [shape, upto_left]

end Authority

def uriText (scheme : Text) (userinfo : Option Text) (host : Text) (port : ℕ) (rest : Text) : Text :=
  scheme ++ ':' :: '/' :: '/' :: (between [] ['@'] userinfo ++
    (host ++ ':' :: (Nat.toDigits 10 port ++ rest)))

def SchemeName (scheme : Text) : Prop :=
  scheme ≠ [] ∧ ∀ c ∈ scheme, (isalnum c || decide (c = '-')) = true

theorem SchemeName.solid {scheme : Text} (name : SchemeName scheme) (t : Text) :
    isspace (head (scheme ++ t)) = false := by
  obtain ⟨c, scheme, rfl⟩ := List.exists_cons_of_ne_nil name.1
  have here := name.2 c (by simp)
  rw [List.cons_append, head_cons]
  rw [Bool.or_eq_true, isalnum, isalpha, Bool.or_eq_true] at here
  rcases here with (letter | digit) | dash
  · simp only [Bool.or_eq_true, Bool.and_eq_true, decide_eq_true_eq] at letter
    simp only [isspace, Bool.or_eq_false_iff, decide_eq_false_iff_not]
    refine ⟨⟨⟨⟨⟨?_, ?_⟩, ?_⟩, ?_⟩, ?_⟩, ?_⟩ <;> rintro rfl <;> exact absurd letter (by decide)
  · exact isspace_of_isdigit digit
  · obtain rfl := of_decide_eq_true dash
    decide

theorem schemeEnd_named (asked : Pointer Text) {scheme : Text} (name : SchemeName scheme) (rest : Text) :
    schemeEnd asked (scheme ++ ':' :: rest) =
      if schemeMatches asked (scheme ++ ':' :: rest) = true then some (rest, some scheme) else none := by
  have skipped : (scheme ++ ':' :: rest).dropWhile (fun c => isalnum c || c = '-') = ':' :: rest := by
    rw [List.dropWhile_append_of_pos name.2]
    exact List.dropWhile_cons_of_neg (by decide)
  unfold schemeEnd
  simp only [skipped, List.tail_cons, upto_left]
  refine if_pos ⟨?_, head_cons _ _⟩
  have := List.length_pos_iff.mpr name.1
  rw [List.length_append]
  omega

/-- The scheme component of RFC 2396, for which a digit may come first. -/
def ExplicitScheme (t : Text) : Prop :=
  t ≠ [] ∧ ∀ c ∈ t, (isalnum c || decide (c = '-') || decide (c = '+') || decide (c = '.')) = true

theorem ExplicitScheme.solid {t : Text} (explicit : ExplicitScheme t) (rest : Text) :
    isspace (head (t ++ rest)) = false := by
  obtain ⟨c, t, rfl⟩ := List.exists_cons_of_ne_nil explicit.1
  have here := explicit.2 c (by simp)
  rw [Bool.or_eq_true, Bool.or_eq_true] at here
  rcases here with (name | plus) | dot
  · exact @SchemeName.solid [c] ⟨by simp, by simpa using name⟩ (t ++ rest)
  · obtain rfl := of_decide_eq_true plus
    rfl
  · obtain rfl := of_decide_eq_true dot
    rfl

/-- A '+' or a '.' stops the loop over the scheme before the colon: the text is taken for one
without a scheme. -/
theorem schemeEnd_unnamed (asked : Pointer Text) {t : Text} (explicit : ExplicitScheme t)
    (other : ¬ SchemeName t) (rest : Text) :
    schemeEnd asked (t ++ ':' :: rest) = some (t ++ ':' :: rest, none) := by
  have stops : t.dropWhile (fun c => isalnum c || c = '-') ≠ [] := fun all =>
    other ⟨explicit.1, List.dropWhile_eq_nil_iff.mp all⟩
  obtain ⟨c, more, stop⟩ := List.exists_cons_of_ne_nil stops
  have mem : c ∈ t := (List.dropWhile_suffix _).subset (by rw [stop]; exact List.mem_cons_self)
  have colon : c ≠ ':' := by
    rintro rfl
    exact absurd (explicit.2 ':' mem) (by decide)
  have rest_ : (t ++ ':' :: rest).dropWhile (fun c => isalnum c || c = '-') = c :: (more ++ ':' :: rest) := by
    rw [List.dropWhile_append, if_neg (by rw [stop]; simp), stop, List.cons_append]
  unfold schemeEnd
  simp only [rest_]
  exact if_neg fun some_ => colon some_.2

theorem bodyOf_explicit (inetPton : Text → Bool) {t : Text} (explicit : ExplicitScheme t) (rest : Text) :
    ∃ left text, bodyOf inetPton (t ++ rest) = some (left, .opaquePart text) := by
  have opaque_ : head (t ++ rest) ≠ '/' := by
    obtain ⟨c, t, rfl⟩ := List.exists_cons_of_ne_nil explicit.1
    rintro rfl
    exact absurd (explicit.2 '/' (by simp)) (by decide)
  rw [bodyOf, if_neg opaque_]
  exact ⟨_, _, rfl⟩

theorem partsOf_authority {inetPton : Text → Bool} {asked : Pointer Text} {scheme text rest : Text}
    {a : Authority} (name : SchemeName scheme)
    (asks : schemeMatches asked (scheme ++ ':' :: '/' :: '/' :: text) = true)
    (found : authority inetPton text = some (rest, a)) :
    partsOf inetPton asked (scheme ++ ':' :: '/' :: '/' :: text) =
      some ((pathOf rest).1, ⟨some scheme, .hierarchical (some a) (pathOf rest).2⟩) := by
  have start := schemeEnd_named asked name ('/' :: '/' :: text)
  rw [if_pos asks] at start
  have body : bodyOf inetPton ('/' :: '/' :: text) =
      some ((pathOf rest).1, .hierarchical (some a) (pathOf rest).2) := by
    rw [bodyOf, if_pos (head_cons _ _), if_pos (by simp)]
    simp [found]
  simp [partsOf, start, body]

/-- The host, the port and the userinfo come out apart just when there is a userinfo
and no '+' or '.' in the scheme. -/
theorem port_apart_iff (inetPton : Text → Bool) (fresh : Record) (asked : Pointer Text)
    (scheme : Text) (userinfo : Option Text) (host : Text) (port : ℕ) (rest : Text)
    (h : Heap) (served : Served h) (explicit : ExplicitScheme scheme)
    (asks : schemeMatches asked (uriText scheme userinfo host port rest) = true)
    (user : ∀ s ∈ userinfo, Name s ∧ s ≠ []) (name : Name host) (someHost : host ≠ [])
    (low : 1 ≤ port) (high : port ≤ 65535) (ends : Ends rest) :
    (∃ u, (extractUri inetPton fresh asked (uriText scheme userinfo host port rest) h).1.1 = some u ∧
      u.host = own host ∧ u.port = port ∧ u.userinfo = userinfo.elim none own) ↔
    SchemeName scheme ∧ userinfo ≠ none := by
  have extracted := extractUri_parts inetPton fresh asked (uriText scheme userinfo host port rest) h served
  have start : parseWhitespace (uriText scheme userinfo host port rest) = _ :=
    parseWhitespace_solid (explicit.solid _)
  rw [start] at extracted
  by_cases schemeName : SchemeName scheme
  · rw [and_iff_right schemeName]
    cases userinfo with
    | some s =>
      obtain ⟨userName, someUser⟩ := user s rfl
      have found := authority_userinfo inetPton userName someUser name someHost low
        (by omega : port < 2 ^ 16) ends
      have shape : uriText scheme (some s) host port rest = scheme ++ ':' :: '/' :: '/' ::
          (s ++ '@' :: (host ++ ':' :: (Nat.toDigits 10 port ++ rest))) := by simp [uriText, between]
      rw [shape] at asks extracted ⊢
      rw [partsOf_authority schemeName asks found] at extracted
      rw [extracted]
      exact ⟨fun _ => by simp, fun _ => ⟨_, rfl, rfl, rfl, rfl⟩⟩
    | none =>
      have found := @authority_bare inetPton host rest port name someHost ends
      have shape : uriText scheme none host port rest = scheme ++ ':' :: '/' :: '/' ::
          (host ++ ':' :: (Nat.toDigits 10 port ++ rest)) := rfl
      rw [shape] at asks extracted ⊢
      rw [partsOf_authority schemeName asks found] at extracted
      rw [extracted]
      refine ⟨?_, fun absent => absurd rfl absent⟩
      rintro ⟨u, same, -, none_, -⟩
      obtain rfl := Option.some.inj same
      have zero : (0 : ℕ) = port := none_
      omega
  · obtain ⟨left, text, found⟩ := bodyOf_explicit inetPton explicit
      (':' :: '/' :: '/' :: (between [] ['@'] userinfo ++ (host ++ ':' :: (Nat.toDigits 10 port ++ rest))))
    rw [uriText, partsOf, schemeEnd_unnamed _ explicit schemeName, Option.bind_some, found] at extracted
    rw [uriText, extracted]
    refine iff_of_false ?_ fun both => schemeName both.1
    rintro ⟨u, same, none_, -⟩
    obtain rfl := Option.some.inj same
    cases none_

/-- "x://h:80": the host is "h:80" and there is no port. -/
theorem bare_host_keeps_port :
    ¬ ∃ u, (extractUri (fun _ => true) zeroed none (uriText ['x'] none ['h'] 80 []) ⟨[], false⟩).1.1 =
        some u ∧ u.host = own ['h'] ∧ u.port = 80 ∧ u.userinfo = none := by
  have result : (extractUri (fun _ => true) zeroed none (uriText ['x'] none ['h'] 80 [])
      ⟨[], false⟩).1.1 = some { zeroed with scheme := own ['x'], host := own "h:80".toList } := by
    decide +kernel
  rw [result]
  rintro ⟨u, same, host, -⟩
  obtain rfl := Option.some.inj same
  exact absurd host (by decide)

theorem port_apart_iff_userinfo :
    (∃ u, (extractUri (fun _ => true) zeroed none (uriText ['x'] (some ['u']) ['h'] 80 ['/'])
      ⟨[], false⟩).1.1 = some u ∧ u.host = own ['h'] ∧ u.port = 80 ∧ u.userinfo = own ['u']) ↔
    SchemeName ['x'] ∧ some ['u'] ≠ none := by
  have letter (c : Char) (plain : unreservedChar c = true) : Name [c] ∧ [c] ≠ [] :=
    ⟨.char plain .nil, by simp⟩
  have scheme : ExplicitScheme ['x'] := by
    refine ⟨by simp, fun c mem => ?_⟩
    obtain rfl := List.mem_singleton.mp mem
    decide
  refine port_apart_iff (fun _ => true) zeroed none ['x'] (some ['u']) ['h'] 80 ['/'] ⟨[], false⟩ rfl
    scheme rfl ?_ (letter 'h' (by decide)).1 (by simp) (by decide) (by decide) (.inr rfl)
  intro s hs
  obtain rfl : ['u'] = s := by simpa using hs
  exact letter 'u' (by decide)

end Libdank.Uri
