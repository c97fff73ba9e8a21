import Libdank.Uri.Components

/-! A URI printed from its record is the text it was read from: the components
and their delimiters make up the text consumed, and the printer puts back each
delimiter that belongs to a component it finds. -/
namespace Libdank.Uri
open Parse Lexers Requests

theorem upto_append_cons {start stop : Text} {c : Char} (h : stop <:+ start) (here : head stop = c)
    (live : c ≠ '\x00') : upto start stop ++ c :: stop.tail = start := by
  rw [← eq_cons_of_head here live]
  exact upto_append h

theorem portEnd_text {line rest : Text} {port : Option (Text × ℕ)}
    (h : portEnd line = some (rest, port)) : line = between [':'] [] (port.map Prod.fst) ++ rest := by
  unfold portEnd at h
  by_cases colon : head line = ':'
  · rw [if_pos colon] at h
    cases number : lexU16 line.tail with
    | error _ => simp [number] at h
    | ok lexed =>
      simp only [number, Option.some.injEq, Prod.mk.injEq] at h
      obtain ⟨rfl, rfl⟩ := h
      have cut := upto_append (lexUint_suffix number)
      rw [eq_cons_of_head colon (by decide)]
      simpa [between] using cut.symm
  · rw [if_neg colon] at h
    obtain ⟨rfl, rfl⟩ := by simpa using h
    rfl

theorem skipLiteral_suffix {inetPton : Text → Bool} {host : Text}
    (ok : (skipLiteral inetPton host).1 = true) : (skipLiteral inetPton host).2 <:+ host := by
  unfold skipLiteral at ok ⊢
  simp only at ok ⊢
  split_ifs at ok ⊢
  exact (List.tail_suffix _).trans ((List.dropWhile_suffix _).trans (List.tail_suffix _))

theorem hostEnd_suffix {inetPton : Text → Bool} {host line rest : Text}
    (h : hostEnd inetPton host line = some rest) (inside : line <:+ host) : rest <:+ host := by
  unfold hostEnd at h
  split_ifs at h with same literal
  · obtain rfl := Option.some.inj h
    exact (skipLiteral_suffix literal.2).trans inside
  · obtain rfl := Option.some.inj h
    exact inside

theorem hostStart_text {text host line : Text} {userinfo : Option Text}
    (h : hostStart text = some ((host, line), userinfo)) :
    text = between [] ['@'] userinfo ++ host ∧ line <:+ host := by
  unfold hostStart at h
  have inside := skipAll_suffix authChar text
  split_ifs at h with literal at_ empty
  · obtain ⟨⟨rfl, rfl⟩, rfl⟩ := by simpa using h
    exact ⟨rfl, List.suffix_rfl⟩
  · simp only [Option.some.injEq, Prod.mk.injEq] at h
    obtain ⟨⟨rfl, rfl⟩, rfl⟩ := h
    constructor
    · simpa [between] using (upto_append_cons inside at_ (by decide)).symm
    · split_ifs
      · exact List.suffix_rfl
      · exact skipAll_suffix hostChar _
  · obtain ⟨⟨rfl, rfl⟩, rfl⟩ := by simpa using h
    exact ⟨rfl, inside⟩

theorem authority_text {inetPton : Text → Bool} {text rest : Text} {a : Authority}
    (h : authority inetPton text = some (rest, a)) : text = a.text ++ rest := by
  unfold authority at h
  cases start : hostStart text with
  | none => simp [start] at h
  | some found =>
    obtain ⟨⟨host, line⟩, userinfo⟩ := found
    cases stop : hostEnd inetPton host line with
    | none => simp [start, stop] at h
    | some line' =>
      cases number : portEnd line' with
      | none => simp [start, stop, number] at h
      | some port =>
        obtain ⟨before, inside⟩ := hostStart_text start
        obtain ⟨rfl, rfl⟩ := by simpa [start, stop, number] using h
        have cut := upto_append (hostEnd_suffix stop inside)
        nth_rewrite 2 [portEnd_text number] at cut
        rw [before, Authority.text, List.append_assoc, List.append_assoc, cut]

theorem tailEnd_text {delimiter : Char} (live : delimiter ≠ '\x00') (len : Text → ℕ) (line : Text) :
    line = between [delimiter] [] (tailEnd delimiter len line).2 ++ (tailEnd delimiter len line).1 := by
  unfold tailEnd
  by_cases here : head line = delimiter
  · rw [if_pos here]
    have cut := upto_append (skipAll_suffix len line.tail)
    nth_rewrite 1 [eq_cons_of_head here live, ← cut]
    simp [between]
  · rw [if_neg here]
    rfl

theorem pathEnd_text (text : Text) : text = between [] [] (pathEnd text).2 ++ (pathEnd text).1 := by
  have inside := skipAll_suffix pchar text
  unfold pathEnd
  by_cases empty : (skipAll pchar text).length = text.length
  · rw [if_pos empty]
    exact (inside.eq_of_length empty).symm
  · rw [if_neg empty]
    simpa [between] using (upto_append inside).symm

theorem pathOf_text (text : Text) : text = (pathOf text).2.text ++ (pathOf text).1 := by
  have path := pathEnd_text text
  have query := tailEnd_text (by decide : '?' ≠ '\x00') qchar (pathEnd text).1
  have fragment := tailEnd_text (by decide : '#' ≠ '\x00') pchar (tailEnd '?' qchar (pathEnd text).1).1
  rw [pathOf, Path.text, List.append_assoc, ← fragment, List.append_assoc, ← query, ← path]

theorem bodyOf_text {inetPton : Text → Bool} {text rest : Text} {b : Body}
    (h : bodyOf inetPton text = some (rest, b)) : text = b.text ++ rest := by
  unfold bodyOf at h
  split_ifs at h with slash double
  · cases found : authority inetPton (text.drop 2) with
    | none => simp [found] at h
    | some a =>
      obtain ⟨rfl, rfl⟩ := by simpa [found] using h
      have shape : text = '/' :: '/' :: text.drop 2 := by
        cases text with
        | nil => exact absurd slash (by decide)
        | cons c text =>
          cases text with
          | nil => simp at double
          | cons d text =>
            obtain rfl : c = '/' := slash
            obtain rfl : d = '/' := by simpa using double
            rfl
      have after := authority_text found
      rw [pathOf_text a.1] at after
      rw [shape, after]
      simp [Body.text, between]
  · obtain ⟨rfl, rfl⟩ := by simpa using h
    exact pathOf_text text
  · obtain ⟨rfl, rfl⟩ := by simpa using h
    exact List.takeWhile_append_dropWhile.symm

theorem schemeEnd_text {scheme : Pointer Text} {text rest : Text} {s : Option Text}
    (h : schemeEnd scheme text = some (rest, s)) : text = between [] [':'] s ++ rest := by
  unfold schemeEnd at h
  simp only at h
  split_ifs at h with some_ matches_
  · obtain ⟨rfl, rfl⟩ := by simpa using h
    have cut := upto_append_cons (@List.dropWhile_suffix _ text fun c => isalnum c || c = '-')
      some_.2 (by decide)
    simpa [between] using cut.symm
  · obtain ⟨rfl, rfl⟩ := by simpa using h
    rfl

theorem partsOf_text {inetPton : Text → Bool} {scheme : Pointer Text} {text rest : Text} {p : Parts}
    (h : partsOf inetPton scheme text = some (rest, p)) : text = p.text ++ rest := by
  unfold partsOf at h
  cases start : schemeEnd scheme text with
  | none => simp [start] at h
  | some s =>
    cases found : bodyOf inetPton s.1 with
    | none => simp [start, found] at h
    | some b =>
      obtain ⟨rfl, rfl⟩ := by simpa [start, found] using h
      have before := schemeEnd_text start
      rw [bodyOf_text found] at before
      rw [before, Parts.text, List.append_assoc]

def append (us s : Text) : Option Text := some (us ++ s)

theorem printField_append (before after us : Text) (s : Option Text) :
    printField append before after us (s.elim none own) = some (us ++ between before after s) := by
  cases s with
  | none => simp [printField, between]
  | some s => rfl

def Canonical (port : Option (Text × ℕ)) : Prop :=
  ∀ digits number, port = some (digits, number) →
    1 ≤ number ∧ number ≤ 65535 ∧ digits = Nat.toDigits 10 number

def Body.port : Body → Option (Text × ℕ)
  | .hierarchical (some a) _ => a.port
  | _ => none

theorem printPath_append (p : Path) (us : Text) {u : Record} (path : u.path = p.path.elim none own)
    (query : u.query = p.query.elim none own) (fragment : u.fragment = p.fragment.elim none own) :
    printPath append us u = some (us ++ p.text) := by
  rw [printPath, path, query, fragment]
  simp [printField_append, Path.text]

theorem printAuthority_append (a : Authority) (canonical : Canonical a.port) (us : Text) {u : Record}
    (userinfo : u.userinfo = a.userinfo.elim none own) (host : u.host = own a.host)
    (port : u.port = a.port.elim 0 Prod.snd) :
    printAuthority append us u = some (us ++ ['/', '/'] ++ a.text) := by
  have host_ := fun us => printField_append [] [] us (some a.host)
  rw [Option.elim_some] at host_
  have number (us : Text) : (if u.port ≠ 0 then append us (':' :: printPort u.port) else some us) =
      some (us ++ between [':'] [] (a.port.map Prod.fst)) := by
    rw [port]
    cases found : a.port with
    | none => simp [between]
    | some found_ =>
      obtain ⟨digits, number⟩ := found_
      obtain ⟨low, high, rfl⟩ := canonical digits number found
      have small : number % 2 ^ 16 = number := Nat.mod_eq_of_lt (by omega)
      rw [Option.elim_some, if_pos (by omega), printPort, small]
      simp [append, between]
  have section_ : hasAuthoritySection u = true := by simp [hasAuthoritySection, host, own]
  rw [printAuthority, if_pos section_, userinfo, host]
  change ((printField append [] ['@'] (us ++ ['/', '/']) (a.userinfo.elim none own)).bind fun us =>
    (printField append [] [] us (own a.host)).bind fun us =>
      if u.port ≠ 0 then append us (':' :: printPort u.port) else some us) = _
  simp only [printField_append, host_, Option.bind_some, number]
  simp [Authority.text, between]

theorem stringize_record (p : Parts) (canonical : Canonical p.body.port) (us : Text) :
    stringizeUri append us p.record = some (us ++ p.text) := by
  obtain ⟨scheme, body⟩ := p
  have start := printField_append [] [':'] us scheme
  cases body with
  | opaquePart s =>
    change (printField append [] [':'] us (scheme.elim none own)).bind (fun us => append us s) = _
    rw [start]
    simp [append, Parts.text, Body.text]
  | hierarchical a path =>
    cases a with
    | none =>
      change (printField append [] [':'] us (scheme.elim none own)).bind (fun us =>
        printPath append us (path.fill { zeroed with scheme := scheme.elim none own })) = _
      rw [start, Option.bind_some, printPath_append path _ rfl rfl rfl]
      simp [Parts.text, Body.text, between]
    | some a =>
      let u := path.fill (a.fill { zeroed with scheme := scheme.elim none own })
      change (printField append [] [':'] us (scheme.elim none own)).bind (fun us =>
        (printAuthority append us u).bind fun us => printPath append us u) = _
      rw [start, Option.bind_some, printAuthority_append a canonical _ rfl rfl rfl, Option.bind_some,
        printPath_append path _ rfl rfl rfl]
      simp [Parts.text, Body.text, between]

theorem extractUri_parts (inetPton : Text → Bool) (fresh : Record) (scheme : Pointer Text)
    (line : Text) :
    Ensures Served (extractUri inetPton fresh scheme line) (fun q _ =>
      match partsOf inetPton scheme (parseWhitespace line) with
      | none => q.1 = none
      | some (rest, p) => q = (some p.record, rest)) := by
  have bytes : recordBytes ≠ 0 := by decide
  refine ensures_granted (allocate_served bytes) fun h hs => ?_
  have result := (extractUriInternal_parses inetPton scheme line (some fresh) h hs).2
  simp only [bind_apply]
  generalize extractUriInternal inetPton scheme line (some fresh) h = q at result
  obtain ⟨⟨ok, rest, u⟩, h'⟩ := q
  cases found : partsOf inetPton scheme (parseWhitespace line) with
  | none =>
    rw [found] at result
    obtain rfl : ok = false := result
    rfl
  | some p =>
    rw [found] at result
    obtain ⟨rfl, rfl, rfl⟩ := by simpa using result
    rfl

theorem parseUri_parts (inetPton : Text → Bool) (scheme : Pointer Text) (line : Text) :
    Ensures Served (parseUri inetPton scheme line) (fun q _ =>
      match partsOf inetPton scheme (parseWhitespace line) with
      | none => q.1 = false
      | some (rest, _) => q = (true, rest)) := by
  refine ensures_bind (extractUriInternal_parses inetPton scheme line none) fun q =>
    ensures_pure fun h hs => ?_
  obtain ⟨ok, rest, u⟩ := q
  have result := hs.2
  cases found : partsOf inetPton scheme (parseWhitespace line) with
  | none =>
    rw [found] at result
    exact result
  | some p =>
    rw [found] at result
    obtain ⟨rfl, rfl, rfl⟩ := by simpa using result
    rfl

/-- The port of the URI that starts a text, if there is one, is written as a
number without leading zeros from 1 to 65535. -/
def CanonicalPort (inetPton : Text → Bool) (scheme : Pointer Text) (text : Text) : Prop :=
  ∀ rest p, partsOf inetPton scheme text = some (rest, p) → Canonical p.body.port

theorem parseWhitespace_solid {text : Text} (solid : isspace (head text) = false) :
    parseWhitespace text = text := by
  cases text with
  | nil => rfl
  | cons c text => exact List.dropWhile_cons_of_neg (by simpa [head] using solid)

def fullText : Text := "x://u@[::1]:80/p?#f y".toList

def fullRecord : Record :=
  ⟨own ['x'], own "[::1]".toList, own ['u'], own "/p".toList, own [], own ['f'], 80, none⟩

end Libdank.Uri
