import Libdank.Carving.QuotedTokens

/-! Pairs of a name and a value. Whether a call fails depends on the string alone;
what a failed call leaves behind is the NUL it has written over the equals sign. -/
namespace Libdank.Carving
open Requests Parse Printing

/-- A double quote that no backslash stands in front of closes the text that one
has opened. -/
def closes (escaped : Bool) : Text → Bool
  | [] => false
  | c :: rest =>
    if escaped then closes false rest
    else if c = '"' then true
    else closes (c = '\\') rest

/-- A quoted value that is closed, not at once, or characters that whitespace or
the end follows. -/
def WellFormedValue (s : Text) : Prop :=
  let value := parseWhitespace s
  if value.head? = some '"' then value.tail.head? ≠ some '"' ∧ closes false value.tail = true
  else value.takeWhile listCharset ≠ [] ∧
    ∀ c ∈ (value.dropWhile listCharset).head?, isspace c = true

/-- A name and an equals sign with no value that can be carved behind it. -/
def MalformedPair (s : Text) : Prop :=
  let pair := parseWhitespace s
  let behind := pair.dropWhile carveCharset
  pair.takeWhile carveCharset ≠ [] ∧ behind.head? = some '=' ∧ ¬ WellFormedValue behind.tail

section Quoted

variable {start passes escapedDest : ℕ} {text : Cursor}

theorem writeBehind_string (dest : escapedDest ≤ text.at_) :
    (⟨writeBehind escapedDest text, text.at_ + 1⟩ : Cursor).string = text.next.string := by
  rw [writeBehind]
  split_ifs
  · exact @string_set text.next escapedDest (Nat.lt_succ_of_le dest) _
  · rfl

theorem closes_plain {c : Char} (open_ : c ≠ '"') (plain : c ≠ '\\') (s : Text) :
    closes false (c :: s) = closes false s := by
  rw [closes, if_neg Bool.false_ne_true, if_neg open_, decide_eq_false plain]

theorem quotedLoop_isSome (enough : text.string.length < passes) (dest : escapedDest ≤ text.at_)
    (begun : start ≤ text.at_) (some_ : start = text.at_ → text.string.head? ≠ some '"') :
    (quotedLoop start passes escapedDest text).1.isSome = closes false text.string := by
  induction passes generalizing escapedDest text with
  | zero => omega
  | succ passes ih =>
    cases string : text.string with
    | nil => rw [quotedLoop_ended (string_eq_nil_iff.mp string)]; rfl
    | cons c s =>
      obtain ⟨here, next, -⟩ := string_cons string
      rw [string] at enough some_
      have nonempty : text.deref ≠ nul := fun ended =>
        absurd (string_eq_nil_iff.mpr ended) (by simp [string])
      by_cases quote : c = '"'
      · subst quote
        rw [quotedLoop_closed here (fun same => some_ same rfl)]
        rfl
      by_cases backslash : c = '\\'
      · subst backslash
        cases s with
        | nil => rw [quotedLoop_broken here (string_eq_nil_iff.mp next)]; rfl
        | cons d s =>
          obtain ⟨-, next', -⟩ := string_cons next
          have nonempty' : text.next.deref ≠ nul := fun ended =>
            absurd (string_eq_nil_iff.mpr ended) (by simp [next])
          have moved := @writeBehind_string escapedDest text.next (Nat.le_succ_of_le dest)
          rw [next'] at moved
          rw [quotedLoop_escaped here nonempty', ih, moved]
          · rfl
          · rw [moved]
            simp only [List.length_cons] at enough
            omega
          · exact Nat.succ_le_succ (Nat.le_succ_of_le dest)
          · exact Nat.le_succ_of_le (Nat.le_succ_of_le begun)
          · intro same
            have : text.next.at_ = text.at_ + 1 := rfl
            simp only at same
            omega
      · have moved := writeBehind_string dest
        rw [next] at moved
        rw [quotedLoop_plain nonempty (here ▸ quote) (here ▸ backslash), ih, moved,
          closes_plain quote backslash]
        · rw [moved]
          exact Nat.lt_of_succ_lt_succ enough
        · exact Nat.succ_le_succ dest
        · exact Nat.le_succ_of_le begun
        · intro same
          simp only at same
          omega

theorem quotedLoop_before {i : ℕ} (before : i < escapedDest) :
    (quotedLoop start passes escapedDest text).2.buf.getD i nul = text.buf.getD i nul := by
  induction passes generalizing escapedDest text with
  | zero => rfl
  | succ passes ih =>
    have written (text : Cursor) :
        (writeBehind escapedDest text).getD i nul = text.buf.getD i nul := by
      rw [writeBehind]
      split_ifs
      · exact getD_set_ne before.ne' _ _
      · rfl
    have later : i < escapedDest + 1 := Nat.lt_succ_of_lt before
    by_cases ended : text.deref = nul
    · rw [quotedLoop_ended ended]
    by_cases quote : text.deref = '"'
    · by_cases same : start = text.at_
      · rw [quotedLoop_empty quote same]
      · rw [quotedLoop_closed quote same]
        exact getD_set_ne before.ne' _ _
    by_cases backslash : text.deref = '\\'
    · by_cases ended' : text.next.deref = nul
      · rw [quotedLoop_broken backslash ended']
        rfl
      · rw [quotedLoop_escaped backslash ended', ih later]
        exact written text.next
    · rw [quotedLoop_plain ended quote backslash, ih later]
      exact written text

end Quoted

section Values

variable {text : Cursor}

theorem carveEnd_isSome (old ret : ℕ) (text : Cursor) :
    (carveEnd old ret text).1.isSome = true ↔
      ret ≠ text.at_ ∧ ∀ c ∈ text.string.head?, isspace c = true := by
  rw [carveEnd]
  by_cases none_ : ret = text.at_
  · simp [none_]
  cases string : text.string with
  | nil => simp [none_, string_eq_nil_iff.mp string]
  | cons x s =>
    have other : text.deref ≠ nul := fun ended => by simp [string_eq_nil_iff.mpr ended] at string
    have here : text.deref = x := (string_cons string).1
    by_cases space : isspace x = true <;> simp [none_, here ▸ other, here, space]

theorem carveEnd_failed {old ret : ℕ} (failed : (carveEnd old ret text).1 = none) :
    (carveEnd old ret text).2 = { text with at_ := old } := by
  rw [carveEnd] at failed ⊢
  split_ifs at failed ⊢ <;> rfl

theorem parseWhitespaces_string (text : Cursor) :
    (parseWhitespaces text).string = parseWhitespace text.string := skip_string text (by decide)

theorem skip_at_eq_iff {p : Char → Bool} (ends : p nul = false) (text : Cursor) :
    text.at_ = (text.skip p).at_ ↔ text.string.takeWhile p = [] := by
  rw [skip_offset text ends, ← List.length_eq_zero_iff]
  omega

theorem carveQuotableToken_isSome (text : Cursor) :
    (carveQuotableToken text).1.isSome = true ↔ WellFormedValue text.string := by
  rw [WellFormedValue, ← parseWhitespaces_string, carveQuotableToken]
  generalize parseWhitespaces text = ret
  have begins := @deref_eq_iff ret '"' (by decide)
  by_cases quote : ret.deref = '"'
  · rw [if_pos quote, if_pos (begins.mp quote), ← next_string (by rw [quote]; decide)]
    generalize ret.next = opened
    rw [carveQuotedToken]
    by_cases empty : opened.string.head? = some '"'
    · have here := (deref_eq_iff (by decide)).mpr empty
      rw [quotedLoop_empty here rfl]
      simp [empty]
    · have enough : opened.string.length < opened.buf.length + 1 := by
        have := (List.takeWhile_sublist (· ≠ nul) (l := opened.buf.drop opened.at_)).length_le
        rw [List.length_drop] at this
        exact Nat.lt_succ_of_le (this.trans (Nat.sub_le _ _))
      rw [quotedLoop_isSome enough le_rfl le_rfl fun _ => empty]
      exact (and_iff_right empty).symm
  · rw [if_neg quote, if_neg (mt begins.mpr quote), carveEnd_isSome,
      skip_string ret listCharset_nul, Ne, skip_at_eq_iff listCharset_nul]

end Values

section Pairs

theorem carveQuotableToken_before {text : Cursor} (failed : (carveQuotableToken text).1 = none)
    {i : ℕ} (before : i < text.at_) :
    (carveQuotableToken text).2.buf.getD i nul = text.buf.getD i nul := by
  rw [carveQuotableToken] at failed ⊢
  by_cases quote : (parseWhitespaces text).deref = '"'
  · rw [if_pos quote]
    have le : text.at_ ≤ (parseWhitespaces text).at_ := Nat.le_add_right _ _
    exact quotedLoop_before (before.trans_le (Nat.le_succ_of_le le))
  · rw [if_neg quote] at failed ⊢
    rw [carveEnd_failed failed]
    rfl

/-- A failed call leaves no trace, and the fallback is a token of the text as it
was. -/
def Traceless (text : Cursor) : Prop :=
  ∀ value, (carveValuePair text value).ret = none →
    (carveValuePair text value).text = text ∧
      ((carveOptionalValuePair text value).ret, (carveOptionalValuePair text value).text) =
        carveToken text

theorem traceless_of_unchanged {text : Cursor}
    (unchanged : ∀ value, (carveValuePair text value).ret = none →
      (carveValuePair text value).text = text) : Traceless text := by
  intro value failed
  have same := unchanged value failed
  refine ⟨same, ?_⟩
  rw [carveOptionalValuePair, failed]
  simp [same]

def valueText (text : Cursor) : Cursor :=
  let stop := (parseWhitespaces text).skip carveCharset
  ⟨stop.buf.set stop.at_ nul, stop.at_ + 1⟩

theorem carveValuePair_value {text : Cursor} (some_ : (parseWhitespaces text).deref ≠ nul)
    (named : ((parseWhitespaces text).skip carveCharset).at_ ≠ (parseWhitespaces text).at_)
    (equals : ((parseWhitespaces text).skip carveCharset).deref = '=') (value : Pointer ℕ) :
    carveValuePair text value =
      if (carveQuotableToken (valueText text)).1.isNone then
        ⟨none, (carveQuotableToken (valueText text)).1,
          { (carveQuotableToken (valueText text)).2 with at_ := text.at_ }⟩
      else ⟨some (parseWhitespaces text).at_, (carveQuotableToken (valueText text)).1,
        (carveQuotableToken (valueText text)).2⟩ := by
  rw [carveValuePair, if_neg some_, if_neg (not_or.mpr ⟨named, not_not.mpr equals⟩)]
  rfl

theorem carveValuePair_trace {text : Cursor}
    (equals : ((parseWhitespaces text).skip carveCharset).deref = '=')
    (failed : (carveQuotableToken (valueText text)).1 = none) :
    (carveQuotableToken (valueText text)).2.buf ≠ text.buf := by
  intro same
  let stop := (parseWhitespaces text).skip carveCharset
  have inside : stop.at_ < stop.buf.length := by
    by_contra outside
    rw [Cursor.deref, List.getD_eq_getElem?_getD, List.getElem?_eq_none (not_lt.mp outside)] at equals
    exact absurd equals (by decide)
  have lost := carveQuotableToken_before failed (Nat.lt_succ_self stop.at_)
  rw [same] at lost
  have nul_ : (valueText text).buf.getD stop.at_ nul = nul := by
    simp [valueText, stop, List.getD_eq_getElem?_getD, List.getElem?_set_self inside]
  exact absurd ((lost.symm.trans equals).symm.trans nul_) (by decide)

/-- What a failed call leaves behind depends on whether it has come to the value. -/
theorem traceless_iff (text : Cursor) : Traceless text ↔ ¬ MalformedPair text.string := by
  let toke := parseWhitespaces text
  let stop := toke.skip carveCharset
  have behind : stop.string = toke.string.dropWhile carveCharset := skip_string toke carveCharset_nul
  have name := skip_at_eq_iff carveCharset_nul toke
  have sign := @deref_eq_iff stop '=' (by decide)
  rw [MalformedPair, ← parseWhitespaces_string, ← behind, Ne, ← name, ← sign]
  by_cases ended : toke.deref = nul
  · refine iff_of_true (traceless_of_unchanged fun value failed => ?_) fun bad => bad.1 ?_
    · rw [carveValuePair, if_pos ended] at failed
      cases failed
    · rw [name, string_eq_nil_iff.mpr ended]
      rfl
  by_cases named : stop.at_ = toke.at_
  · refine iff_of_true (traceless_of_unchanged fun value _ => ?_) fun bad => bad.1 named.symm
    rw [carveValuePair, if_neg ended, if_pos (.inl named)]
  by_cases equals : stop.deref = '='
  swap
  · refine iff_of_true (traceless_of_unchanged fun value _ => ?_) fun bad => equals bad.2.1
    rw [carveValuePair, if_neg ended, if_pos (.inr equals)]
  have value : (valueText text).string = stop.string.tail := by
    rw [← next_string (by rw [equals]; decide)]
    exact @string_set stop.next stop.at_ (Nat.lt_succ_self _) nul
  have pair := carveValuePair_value ended named equals
  have carved := carveQuotableToken_isSome (valueText text)
  rw [value] at carved
  rw [← carved]
  by_cases fails : (carveQuotableToken (valueText text)).1 = none
  · have gone : (carveQuotableToken (valueText text)).1.isNone = true := by rw [fails]; rfl
    refine iff_of_false (fun traceless => ?_) ?_
    · have trace := traceless none
      rw [pair, if_pos gone] at trace
      have kept := congrArg Cursor.buf (trace rfl).1
      exact carveValuePair_trace equals fails kept
    · exact not_not.mpr ⟨fun same => named same.symm, equals, by simp [fails]⟩
  · have served : (carveQuotableToken (valueText text)).1.isSome = true :=
      Option.isSome_iff_ne_none.mpr fails
    refine iff_of_true (traceless_of_unchanged fun value failed => ?_) fun bad => bad.2.2 served
    rw [pair, if_neg (by simpa using fails)] at failed
    cases failed

/-- A pair whose value is missing. -/
theorem carveValuePair_leaves_trace : ¬ Traceless ⟨['a', '='], 0⟩ := by
  intro traceless
  exact absurd (traceless none (by decide)).1 (by decide)

end Pairs

end Libdank.Carving
