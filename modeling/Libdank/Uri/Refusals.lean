import Libdank.Uri.Components

/-! What a call that succeeds leaves of its text: the grammar alone decides that, whatever
memory there is. Where memory runs out, a call fails. -/
namespace Libdank.Uri
open Parse Lexers Requests

section Steps

variable {α β : Type}

/-- Whatever memory there is, a step that succeeds leaves what `found` says. -/
def Leaves (step : Request (Ended α)) (found : Option α) : Prop :=
  ∀ h, (step h).1.1 = true → found = some (step h).1.2.1

theorem Leaves.congr {step : Request (Ended α)} {found found' : Option α} (h : Leaves step found)
    (same : found = found') : Leaves step found' := same ▸ h

theorem leaves_pure (ok : Bool) (a : α) (u : Pointer Record) : Leaves (pure (ok, a, u)) (some a) :=
  fun _ _ => rfl

theorem leaves_false (a : α) (u : Pointer Record) (found : Option α) : Leaves (pure (false, a, u)) found :=
  fun _ => Bool.false_ne_true.elim

theorem leaves_keep (set : Record → Pointer OwnString → Record) (start stop : Text) (u : Pointer Record) :
    Leaves (keep set start stop u) (some stop) := by
  cases u with
  | none => exact leaves_pure true stop none
  | some u => exact fun h _ => rfl

theorem andThen_apply (step : Request (Ended α)) (next err : α → Pointer Record → Request (Ended β))
    (h : Heap) :
    andThen step next err h =
      (if (step h).1.1 = true then next (step h).1.2.1 (step h).1.2.2
        else err (step h).1.2.1 (step h).1.2.2) (step h).2 := rfl

theorem leaves_andThen {step : Request (Ended α)} {found : Option α}
    {next err : α → Pointer Record → Request (Ended β)} {rest : α → Option β}
    (first : Leaves step found) (then_ : ∀ a u, Leaves (next a u) (rest a))
    (fails : ∀ a u h, (err a u h).1.1 = false) : Leaves (andThen step next err) (found.bind rest) := by
  intro h ok
  rw [andThen_apply] at ok ⊢
  by_cases good : (step h).1.1 = true
  · rw [if_pos good] at ok ⊢
    rw [first h good]
    exact then_ _ _ _ ok
  · rw [if_neg good, fails] at ok
    cases ok

theorem ensures_andThen {pre : Heap → Prop} {step : Request (Ended α)}
    {next err : α → Pointer Record → Request (Ended β)} {mid : Ended α → Heap → Prop}
    {post : Ended β → Heap → Prop} (first : Ensures pre step mid)
    (then_ : ∀ a u, Ensures (mid (true, a, u)) (next a u) post)
    (fails : ∀ a u, Ensures (mid (false, a, u)) (err a u) post) :
    Ensures pre (andThen step next err) post := by
  refine ensures_bind first fun q => ?_
  obtain ⟨ok, a, u⟩ := q
  cases ok with
  | true => exact then_ a u
  | false => exact fails a u

end Steps

theorem parseUserinfo_leaves (text : Text) (u : Pointer Record) :
    Leaves (parseUserinfo text u) ((hostStart text).map Prod.fst) := by
  unfold parseUserinfo hostStart
  by_cases literal : head text = '['
  · simp only [if_pos literal]
    exact leaves_pure true (text, text) u
  · simp only [if_neg literal]
    by_cases at_ : head (skipAll authChar text) = '@'
    · simp only [if_pos at_]
      by_cases empty : (skipAll authChar text).length = text.length
      · simp only [if_pos empty]
        exact leaves_false _ u _
      · simp only [if_neg empty]
        exact leaves_andThen (leaves_keep _ text (skipAll authChar text) u)
          (fun line u => leaves_pure true
            (line.tail, if head line.tail = '[' then line.tail else skipAll hostChar line.tail) u)
          fun _ _ _ => rfl
    · simp only [if_neg at_]
      exact leaves_pure true (text, skipAll authChar text) u

theorem parseHost_leaves (inetPton : Text → Bool) (host line : Text) (u : Pointer Record) :
    Leaves (parseHost inetPton host line u) (hostEnd inetPton host line) := by
  unfold parseHost hostEnd
  by_cases same : line.length = host.length
  · by_cases literal : head line = '['
    · cases ok : (skipLiteral inetPton line).1 with
      | false => simpa [same, literal, ok] using leaves_false _ u none
      | true => simpa [same, literal, ok] using leaves_keep _ host (skipLiteral inetPton line).2 u
    · simpa [same, literal] using leaves_false line u none
  · simpa [same] using leaves_keep _ host line u

theorem parseUriPort_leaves (line : Text) (u : Pointer Record) :
    Leaves (parseUriPort line u) ((portEnd line).map Prod.fst) := by
  unfold parseUriPort portEnd
  by_cases colon : head line = ':'
  · simp only [if_pos colon]
    cases lexU16 line.tail with
    | error _ => exact leaves_false _ u none
    | ok lexed => exact leaves_pure true _ _
  · simp only [if_neg colon]
    exact leaves_pure true line u

theorem leaveAuthority_refuses (line : Text) (u : Pointer Record) (h : Heap) :
    (leaveAuthority line u h).1.1 = false := by
  cases u <;> rfl

theorem parseUriAuthority_leaves (inetPton : Text → Bool) (text : Text) (u : Pointer Record) :
    Leaves (parseUriAuthority inetPton text u) ((authority inetPton text).map Prod.fst) := by
  have steps := leaves_andThen (parseUserinfo_leaves text u)
    (fun found u => leaves_andThen (parseHost_leaves inetPton found.1 found.2 u)
      (fun line u => leaves_andThen (parseUriPort_leaves line u) (fun line u => leaves_pure true line u)
        leaveAuthority_refuses) leaveAuthority_refuses)
    (fun found => leaveAuthority_refuses found.2)
  refine steps.congr ?_
  unfold authority
  cases hostStart text with
  | none => rfl
  | some start =>
    cases stop : hostEnd inetPton start.1.1 start.1.2 with
    | none => simp [stop]
    | some rest => cases number : portEnd rest <;> simp [stop, number]

theorem parseUriTail_leaves (delimiter : Char) (len : Text → ℕ)
    (set : Record → Pointer OwnString → Record) (line : Text) (u : Pointer Record) :
    Leaves (parseUriTail delimiter len set line u) (some (tailEnd delimiter len line).1) := by
  unfold parseUriTail tailEnd
  by_cases here : head line = delimiter
  · simp only [if_pos here]
    exact leaves_keep set line.tail _ u
  · simp only [if_neg here]
    exact leaves_pure true line u

theorem leavePath_refuses (line : Text) (u : Pointer Record) (h : Heap) :
    (leavePath line u h).1.1 = false := by
  cases u <;> rfl

theorem parseUriPath_leaves (text : Text) (u : Pointer Record) :
    Leaves (parseUriPath text u) (some (pathOf text).1) := by
  have path : Leaves (if (skipAll pchar text).length = text.length then pure (true, skipAll pchar text, u)
      else keep (fun u s => { u with path := s }) text (skipAll pchar text) u)
      (some (pathEnd text).1) := by
    unfold pathEnd
    by_cases empty : (skipAll pchar text).length = text.length
    · simp only [if_pos empty]
      exact leaves_pure true _ u
    · simp only [if_neg empty]
      exact leaves_keep _ text _ u
  exact leaves_andThen path
    (fun line u => leaves_andThen (parseUriTail_leaves '?' qchar (fun u s => { u with query := s }) line u)
      (fun line u => leaves_andThen
        (parseUriTail_leaves '#' pchar (fun u s => { u with fragment := s }) line u)
        (fun line u => leaves_pure true line u) leavePath_refuses) leavePath_refuses)
    fun _ _ _ => rfl

theorem parseUriOpaque_leaves (line : Text) (u : Pointer Record) :
    Leaves (parseUriOpaque line u) (some (line.dropWhile fun c => !isspace c)) :=
  leaves_andThen (leaves_keep _ line _ u) (fun line u => leaves_pure true line u) fun _ _ _ => rfl

theorem parseUriRest_leaves (inetPton : Text → Bool) (text : Text) (u : Pointer Record) :
    Leaves (parseUriRest inetPton text u) ((bodyOf inetPton text).map Prod.fst) := by
  unfold parseUriRest bodyOf
  by_cases slash : head text = '/'
  · simp only [if_pos slash]
    by_cases double : text[1]? = some '/'
    · simp only [if_pos double]
      refine (leaves_andThen (parseUriAuthority_leaves inetPton (text.drop 2) u)
        (fun line u => parseUriPath_leaves line u) fun _ _ _ => rfl).congr ?_
      cases authority inetPton (text.drop 2) <;> rfl
    · simp only [if_neg double]
      exact leaves_andThen (leaves_pure true text u) (fun line u => parseUriPath_leaves line u)
        fun _ _ _ => rfl
  · simp only [if_neg slash]
    exact parseUriOpaque_leaves text u

theorem parseUriScheme_leaves (scheme : Pointer Text) (text : Text) (u : Pointer Record) :
    Leaves (parseUriScheme scheme text u) ((schemeEnd scheme text).map Prod.fst) := by
  unfold parseUriScheme schemeEnd
  by_cases some_ : text.length ≠ (text.dropWhile fun c => isalnum c || c = '-').length ∧
      head (text.dropWhile fun c => isalnum c || c = '-') = ':'
  · simp only [if_pos some_]
    cases schemeMatches scheme text with
    | true =>
      rw [if_pos rfl, if_pos rfl]
      exact leaves_andThen (leaves_keep _ text _ u) (fun line u => leaves_pure true line.tail u)
        fun _ _ _ => rfl
    | false => exact leaves_false _ u _
  · simp only [if_neg some_]
    exact leaves_pure true text _

/-- A call that succeeds has read a URI of the grammar, with the scheme asked for. -/
theorem extractUriInternal_leaves (inetPton : Text → Bool) (scheme : Pointer Text) (line : Text)
    (u : Pointer Record) :
    Leaves (extractUriInternal inetPton scheme line u)
      ((partsOf inetPton scheme (parseWhitespace line)).map Prod.fst) := by
  have leave (a : Text) (ur : Pointer Record) (h : Heap) :
      ((do pure (false, line, ← resetUri ur) : Request (Ended Text)) h).1.1 = false := rfl
  refine (leaves_andThen
    (parseUriScheme_leaves scheme (parseWhitespace line) (u.map fun _ => zeroed))
    (fun text u => leaves_andThen (parseUriRest_leaves inetPton text u)
      (fun text u => leaves_pure true text u) leave) leave).congr ?_
  unfold partsOf
  cases start : schemeEnd scheme (parseWhitespace line) with
  | none => rfl
  | some s => cases rest : bodyOf inetPton s.1 <;> simp [rest]

end Libdank.Uri
