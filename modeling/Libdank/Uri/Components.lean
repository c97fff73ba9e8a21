import Libdank.Uri.Operations

/-! The components of a URI as the grammar cuts them out of a text, and that the
parser, with memory to be had, stores just these. -/
namespace Libdank.Uri
open Parse Lexers Requests

section Steps

variable {α β : Type}

/-- With memory to be had, a step fails, or leaves the text and changes the
record as `found` says. -/
def Parses (step : Request (Ended α)) (u : Pointer Record) (found : Option (α × (Record → Record))) : Prop :=
  Ensures Served step (fun q h => Served h ∧
    match found with
    | none => q.1 = false
    | some (a, fill) => q = (true, a, u.map fill))

theorem Parses.congr {step : Request (Ended α)} {u : Pointer Record}
    {found found' : Option (α × (Record → Record))} (h : Parses step u found)
    (same : found = found') : Parses step u found' := same ▸ h

def Fails (step : Request (Ended α)) : Prop := Ensures Served step (fun q h => Served h ∧ q.1 = false)

theorem fails_pure (a : α) (u : Pointer Record) : Fails (pure (false, a, u)) :=
  ensures_pure fun _ hs => ⟨hs, rfl⟩

theorem parses_none {step : Request (Ended α)} {u : Pointer Record} (h : Fails step) : Parses step u none := h

theorem parses_map (a : α) (u : Pointer Record) (fill : Record → Record) :
    Parses (pure (true, a, u.map fill)) u (some (a, fill)) :=
  ensures_pure fun _ hs => ⟨hs, rfl⟩

theorem parses_pure (a : α) (u : Pointer Record) : Parses (pure (true, a, u)) u (some (a, id)) := by
  have h := parses_map a u id
  rwa [Option.map_id, id] at h

def own (s : Text) : Pointer OwnString := some ⟨s, true⟩

theorem parses_keep (set : Record → Pointer OwnString → Record) (start stop : Text)
    (u : Pointer Record) :
    Parses (keep set start stop u) u (some (stop, fun u => set u (own (upto start stop)))) := by
  cases u with
  | none => exact ensures_pure fun h hs => ⟨hs, rfl⟩
  | some u =>
    have copied : Ensures Served (strndup (upto start stop))
        (fun p h => Served h ∧ p = own (upto start stop)) :=
      ensures_granted (allocate_served (Nat.succ_ne_zero _)) (ensures_pure fun h hs => ⟨hs, rfl⟩)
    refine ensures_bind copied fun p => ensures_pure fun h hs => ⟨hs.1, ?_⟩
    rw [hs.2]
    rfl

theorem parses_andThen {step : Request (Ended α)} {u : Pointer Record} {found : Option (α × (Record → Record))}
    {next err : α → Pointer Record → Request (Ended β)} {rest : α → Option (β × (Record → Record))}
    (first : Parses step u found) (then_ : ∀ a u, Parses (next a u) u (rest a))
    (fails : ∀ a u, Fails (err a u)) :
    Parses (andThen step next err) u
      (found.bind fun p => (rest p.1).map fun q => (q.1, q.2 ∘ p.2)) := by
  refine ensures_bind first fun q h hs => ?_
  obtain ⟨ok, a, u'⟩ := q
  obtain ⟨hs, here⟩ := hs
  cases found with
  | none =>
    obtain rfl : ok = false := here
    exact fails a u' h hs
  | some p =>
    simp only [Prod.mk.injEq] at here
    obtain ⟨rfl, rfl, rfl⟩ := here
    have later := then_ p.1 (u.map p.2) h hs
    refine ⟨later.1, ?_⟩
    have result := later.2
    cases tail : rest p.1 with
    | none =>
      rw [tail] at result
      simpa [tail] using result
    | some q =>
      rw [tail] at result
      simpa [tail] using result

end Steps

theorem skip_suffix (len : Text → ℕ) (passes : ℕ) (s : Text) : skip len passes s <:+ s := by
  induction passes generalizing s with
  | zero => exact List.suffix_rfl
  | succ passes ih =>
    rw [skip]
    split
    · exact List.suffix_rfl
    · exact (ih _).trans (List.drop_suffix _ _)

theorem skipAll_suffix (len : Text → ℕ) (s : Text) : skipAll len s <:+ s := skip_suffix len _ s

theorem upto_append {start stop : Text} (h : stop <:+ start) : upto start stop ++ stop = start := by
  obtain ⟨before, rfl⟩ := h
  simp [upto]

theorem eq_cons_of_head {c : Char} {s : Text} (h : head s = c) (live : c ≠ '\x00') :
    s = c :: s.tail := by
  cases s with
  | nil => exact absurd h.symm live
  | cons d s =>
    subst h
    rfl

def between (before after : Text) : Option Text → Text
  | none => []
  | some s => before ++ s ++ after

structure Authority where
  userinfo : Option Text
  host : Text
  /-- The digits behind the colon, and the number they stand for. -/
  port : Option (Text × ℕ)
deriving DecidableEq, Repr

def Authority.text (a : Authority) : Text :=
  between [] ['@'] a.userinfo ++ a.host ++ between [':'] [] (a.port.map Prod.fst)

def Authority.fill (a : Authority) (u : Record) : Record :=
  { u with
    userinfo := a.userinfo.elim u.userinfo own
    host := own a.host
    port := a.port.elim u.port Prod.snd }

/-- Where the host starts and what follows it if it is a name, and the userinfo. -/
def hostStart (text : Text) : Option ((Text × Text) × Option Text) :=
  if head text = '[' then some ((text, text), none)
  else if head (skipAll authChar text) = '@' then
    if (skipAll authChar text).length = text.length then none
    else
      let host := (skipAll authChar text).tail
      some ((host, if head host = '[' then host else skipAll hostChar host),
        some (upto text (skipAll authChar text)))
  else some ((text, skipAll authChar text), none)

def hostEnd (inetPton : Text → Bool) (host line : Text) : Option Text :=
  if line.length = host.length then
    if head line = '[' ∧ (skipLiteral inetPton line).1 then some (skipLiteral inetPton line).2
    else none
  else some line

def portEnd (line : Text) : Option (Text × Option (Text × ℕ)) :=
  if head line = ':' then
    match lexU16 line.tail with
    | .ok (p, rest) => some (rest, some (upto line.tail rest, p))
    | .error _ => none
  else some (line, none)

def authority (inetPton : Text → Bool) (text : Text) : Option (Text × Authority) :=
  (hostStart text).bind fun start => (hostEnd inetPton start.1.1 start.1.2).bind fun line =>
    (portEnd line).map fun port => (port.1, ⟨start.2, upto start.1.1 line, port.2⟩)

theorem parseUserinfo_parses (text : Text) (u : Pointer Record) :
    Parses (parseUserinfo text u) u ((hostStart text).map fun start =>
      (start.1, fun u => { u with userinfo := start.2.elim u.userinfo own })) := by
  unfold parseUserinfo hostStart
  by_cases literal : head text = '['
  · simp only [if_pos literal]
    exact parses_pure (text, text) u
  · simp only [if_neg literal]
    by_cases at_ : head (skipAll authChar text) = '@'
    · simp only [if_pos at_]
      by_cases empty : (skipAll authChar text).length = text.length
      · simp only [if_pos empty]
        exact parses_none (fails_pure _ _)
      · simp only [if_neg empty]
        exact parses_andThen (parses_keep _ _ _ u)
          (fun line u => parses_pure
            (line.tail, if head line.tail = '[' then line.tail else skipAll hostChar line.tail) u)
          fun line u => fails_pure (text, line) u
    · simp only [if_neg at_]
      exact parses_pure (text, skipAll authChar text) u

theorem parseHost_parses (inetPton : Text → Bool) (host line : Text) (u : Pointer Record) :
    Parses (parseHost inetPton host line u) u ((hostEnd inetPton host line).map fun rest =>
      (rest, fun u => { u with host := own (upto host rest) })) := by
  unfold parseHost hostEnd
  by_cases same : line.length = host.length
  · by_cases literal : head line = '['
    · cases ok : (skipLiteral inetPton line).1 with
      | false => simpa [same, literal, ok] using parses_none (fails_pure _ u)
      | true => simpa [same, literal, ok] using parses_keep _ host (skipLiteral inetPton line).2 u
    · simpa [same, literal] using parses_none (fails_pure line u)
  · simpa [same] using parses_keep _ host line u

theorem parseUriPort_parses (line : Text) (u : Pointer Record) :
    Parses (parseUriPort line u) u ((portEnd line).map fun port =>
      (port.1, fun u => { u with port := port.2.elim u.port Prod.snd })) := by
  unfold parseUriPort portEnd
  by_cases colon : head line = ':'
  · simp only [if_pos colon]
    cases lexU16 line.tail with
    | error _ => exact parses_none (fails_pure _ u)
    | ok lexed => exact parses_map _ u _
  · simp only [if_neg colon]
    exact parses_pure line u

theorem leaveAuthority_fails (line : Text) (u : Pointer Record) : Fails (leaveAuthority line u) := by
  cases u with
  | none => exact fails_pure _ _
  | some u => exact fun _ hs => ⟨hs, rfl⟩

theorem parseUriAuthority_parses (inetPton : Text → Bool) (text : Text) (u : Pointer Record) :
    Parses (parseUriAuthority inetPton text u) u
      ((authority inetPton text).map fun a => (a.1, a.2.fill)) := by
  have steps := parses_andThen (parseUserinfo_parses text u)
    (fun found u => parses_andThen (parseHost_parses inetPton found.1 found.2 u)
      (fun line u => parses_andThen (parseUriPort_parses line u) (fun line u => parses_pure line u)
        leaveAuthority_fails) leaveAuthority_fails)
    (fun found => leaveAuthority_fails found.2)
  refine steps.congr ?_
  unfold authority
  cases hostStart text with
  | none => rfl
  | some start =>
    obtain ⟨⟨host, line⟩, userinfo⟩ := start
    cases stop : hostEnd inetPton host line with
    | none => simp [stop]
    | some rest =>
      cases number : portEnd rest with
      | none => simp [stop, number]
      | some port =>
        simp [stop, number]
        rfl

structure Path where
  path : Option Text
  query : Option Text
  fragment : Option Text
deriving DecidableEq, Repr

def Path.text (p : Path) : Text :=
  between [] [] p.path ++ between ['?'] [] p.query ++ between ['#'] [] p.fragment

def Path.fill (p : Path) (u : Record) : Record :=
  { u with
    path := p.path.elim u.path own
    query := p.query.elim u.query own
    fragment := p.fragment.elim u.fragment own }

def tailEnd (delimiter : Char) (len : Text → ℕ) (line : Text) : Text × Option Text :=
  if head line = delimiter then
    (skipAll len line.tail, some (upto line.tail (skipAll len line.tail)))
  else (line, none)

def pathEnd (text : Text) : Text × Option Text :=
  if (skipAll pchar text).length = text.length then (skipAll pchar text, none)
  else (skipAll pchar text, some (upto text (skipAll pchar text)))

def pathOf (text : Text) : Text × Path :=
  let path := pathEnd text
  let query := tailEnd '?' qchar path.1
  let fragment := tailEnd '#' pchar query.1
  (fragment.1, ⟨path.2, query.2, fragment.2⟩)

theorem parseUriTail_parses (delimiter : Char) (len : Text → ℕ)
    (set : Record → Pointer OwnString → Record) (line : Text) (u : Pointer Record) :
    Parses (parseUriTail delimiter len set line u) u (some ((tailEnd delimiter len line).1,
      fun u => (tailEnd delimiter len line).2.elim u fun s => set u (own s))) := by
  unfold parseUriTail tailEnd
  by_cases here : head line = delimiter
  · simp only [if_pos here]
    exact parses_keep set line.tail _ u
  · simp only [if_neg here]
    exact parses_pure line u

theorem leavePath_fails (line : Text) (u : Pointer Record) : Fails (leavePath line u) := by
  cases u with
  | none => exact fails_pure _ _
  | some u => exact fun _ hs => ⟨hs, rfl⟩

theorem parseUriPath_parses (text : Text) (u : Pointer Record) :
    Parses (parseUriPath text u) u (some ((pathOf text).1, (pathOf text).2.fill)) := by
  have path (u : Pointer Record) :
      Parses (if (skipAll pchar text).length = text.length then pure (true, skipAll pchar text, u)
        else keep (fun u s => { u with path := s }) text (skipAll pchar text) u) u
        (some ((pathEnd text).1, fun u => { u with path := (pathEnd text).2.elim u.path own })) := by
    unfold pathEnd
    by_cases empty : (skipAll pchar text).length = text.length
    · simp only [if_pos empty]
      exact parses_pure _ u
    · simp only [if_neg empty]
      exact parses_keep _ text _ u
  refine (parses_andThen (path u)
    (fun line u => parses_andThen (parseUriTail_parses '?' qchar (fun u s => { u with query := s }) line u)
      (fun line u => parses_andThen
        (parseUriTail_parses '#' pchar (fun u s => { u with fragment := s }) line u)
        (fun line u => parses_pure line u) leavePath_fails) leavePath_fails)
    fun line u => fails_pure line u).congr ?_
  simp only [Option.bind_some, Option.map_some, Option.some.injEq, Prod.mk.injEq, true_and, pathOf]
  funext u
  simp only [Path.fill, Function.comp_apply, id]
  cases (tailEnd '?' qchar (pathEnd text).1).2 <;>
    cases (tailEnd '#' pchar (tailEnd '?' qchar (pathEnd text).1).1).2 <;> rfl

inductive Body where
  | opaquePart (text : Text) | hierarchical (authority : Option Authority) (path : Path)
deriving DecidableEq, Repr

def Body.text : Body → Text
  | .opaquePart s => s
  | .hierarchical a p => between ['/', '/'] [] (a.map Authority.text) ++ p.text

def Body.fill (u : Record) : Body → Record
  | .opaquePart s => { u with opaquePart := own s }
  | .hierarchical a p => p.fill (a.elim u fun a => a.fill u)

def bodyOf (inetPton : Text → Bool) (text : Text) : Option (Text × Body) :=
  if head text = '/' then
    if text[1]? = some '/' then
      (authority inetPton (text.drop 2)).map fun a =>
        ((pathOf a.1).1, .hierarchical (some a.2) (pathOf a.1).2)
    else some ((pathOf text).1, .hierarchical none (pathOf text).2)
  else some (text.dropWhile fun c => !isspace c, .opaquePart (text.takeWhile fun c => !isspace c))

theorem upto_dropWhile (p : Char → Bool) (text : Text) :
    upto text (text.dropWhile p) = text.takeWhile p := by
  have cut := upto_append (@List.dropWhile_suffix _ text p)
  have whole := @List.takeWhile_append_dropWhile _ p text
  exact List.append_cancel_right (cut.trans whole.symm)

theorem parseUriRest_parses (inetPton : Text → Bool) (text : Text) (u : Pointer Record) :
    Parses (parseUriRest inetPton text u) u
      ((bodyOf inetPton text).map fun body => (body.1, fun u => body.2.fill u)) := by
  unfold parseUriRest bodyOf
  by_cases slash : head text = '/'
  · simp only [if_pos slash]
    by_cases double : text[1]? = some '/'
    · simp only [if_pos double]
      refine (parses_andThen (parseUriAuthority_parses inetPton (text.drop 2) u)
        (fun line u => parseUriPath_parses line u) fun line u => fails_pure line u).congr ?_
      cases authority inetPton (text.drop 2) <;> rfl
    · simp only [if_neg double]
      exact parses_andThen (parses_pure text u) (fun line u => parseUriPath_parses line u)
        fun line u => fails_pure line u
  · simp only [if_neg slash]
    rw [← upto_dropWhile]
    exact parses_andThen (parses_keep _ text _ u) (fun line u => parses_pure line u)
      fun _ u => fails_pure text u

structure Parts where
  scheme : Option Text
  body : Body
deriving DecidableEq, Repr

def Parts.text (p : Parts) : Text := between [] [':'] p.scheme ++ p.body.text

def Parts.record (p : Parts) : Record := p.body.fill { zeroed with scheme := p.scheme.elim none own }

def schemeEnd (scheme : Pointer Text) (text : Text) : Option (Text × Option Text) :=
  let u := text.dropWhile fun c => isalnum c || c = '-'
  if text.length ≠ u.length ∧ head u = ':' then
    if schemeMatches scheme text then some (u.tail, some (upto text u)) else none
  else some (text, none)

/-- What follows a URI that starts the text, and the URI. -/
def partsOf (inetPton : Text → Bool) (scheme : Pointer Text) (text : Text) : Option (Text × Parts) :=
  (schemeEnd scheme text).bind fun s => (bodyOf inetPton s.1).map fun b => (b.1, ⟨s.2, b.2⟩)

theorem parseUriScheme_parses (scheme : Pointer Text) (text : Text) (u : Pointer Record) :
    Parses (parseUriScheme scheme text u) u ((schemeEnd scheme text).map fun s =>
      (s.1, fun u => { u with scheme := s.2.elim none own })) := by
  unfold parseUriScheme schemeEnd
  by_cases some_ : text.length ≠ (text.dropWhile fun c => isalnum c || c = '-').length ∧
      head (text.dropWhile fun c => isalnum c || c = '-') = ':'
  · simp only [if_pos some_]
    cases schemeMatches scheme text with
    | true =>
      exact parses_andThen (parses_keep _ text _ u) (fun line u => parses_pure line.tail u)
        fun line u => fails_pure line u
    | false => exact parses_none (fails_pure _ u)
  · simp only [if_neg some_]
    exact parses_map text u _

theorem resetUri_served (u : Pointer Record) : Ensures Served (resetUri u) (fun _ => Served) := by
  cases u with
  | none => exact fun _ hs => hs
  | some u => exact fun _ hs => hs

/-- With memory to be had, the parser accepts what the grammar accepts, and
stores its components. -/
theorem extractUriInternal_parses (inetPton : Text → Bool) (scheme : Pointer Text) (line : Text)
    (u : Pointer Record) :
    Parses (extractUriInternal inetPton scheme line u) u
      ((partsOf inetPton scheme (parseWhitespace line)).map fun p => (p.1, fun _ => p.2.record)) := by
  have leave (a : Text) (u : Pointer Record) :
      Fails (do pure (false, line, ← resetUri u) : Request (Ended Text)) :=
    ensures_bind (resetUri_served u) fun _ => ensures_pure fun _ hs => ⟨hs, rfl⟩
  have steps := parses_andThen (parseUriScheme_parses scheme (parseWhitespace line) (u.map fun _ => zeroed))
    (fun text u => parses_andThen (parseUriRest_parses inetPton text u)
      (fun text u => parses_pure text u) leave) leave
  refine steps.mono (fun _ hs => hs) fun q h hs => ⟨hs.1, ?_⟩
  have result := hs.2
  unfold partsOf
  cases start : schemeEnd scheme (parseWhitespace line) with
  | none => simpa [start] using result
  | some s =>
    cases rest : bodyOf inetPton s.1 with
    | none => simpa [start, rest] using result
    | some b =>
      simp only [start, rest, Option.map_some, Option.bind_some, Option.map_map] at result ⊢
      exact result

end Libdank.Uri
