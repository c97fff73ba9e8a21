import Libdank.Carving.Cursors

/-! Quoted tokens. What `carve_quoted_token` has unescaped lies at the start of
the token, and between it and the place that is read next lie as many cells as
characters have been dropped. -/
namespace Libdank.Carving
open Parse Printing

/-- A backslash in front of every double quote and every backslash. -/
def escape (s : Text) : Text := s.flatMap fun c => if c = '"' ∨ c = '\\' then ['\\', c] else [c]

section Passes

variable {start passes escapedDest : ℕ} {text : Cursor}

/-- `*escaped_dest = **text`, unless both are one place. -/
def writeBehind (escapedDest : ℕ) (text : Cursor) : Text :=
  if escapedDest ≠ text.at_ then text.buf.set escapedDest text.deref else text.buf

theorem quotedLoop_ended (ended : text.deref = nul) :
    quotedLoop start (passes + 1) escapedDest text = (none, text) := by
  rw [quotedLoop, if_pos ended]

theorem quotedLoop_empty (quote : text.deref = '"') (none_ : start = text.at_) :
    quotedLoop start (passes + 1) escapedDest text = (none, text) := by
  rw [quotedLoop, quote, if_neg (by decide), if_pos rfl, if_pos none_]

theorem quotedLoop_closed (quote : text.deref = '"') (later : start ≠ text.at_) :
    quotedLoop start (passes + 1) escapedDest text =
      (some start, ⟨text.buf.set escapedDest nul, text.at_ + 1⟩) := by
  rw [quotedLoop, quote, if_neg (by decide), if_pos rfl, if_neg later]

theorem quotedLoop_plain (nonempty : text.deref ≠ nul) (open_ : text.deref ≠ '"')
    (plain : text.deref ≠ '\\') :
    quotedLoop start (passes + 1) escapedDest text =
      quotedLoop start passes (escapedDest + 1) ⟨writeBehind escapedDest text, text.at_ + 1⟩ := by
  rw [quotedLoop, if_neg nonempty, if_neg open_, if_neg plain, if_neg nonempty]
  rfl

theorem quotedLoop_broken (backslash : text.deref = '\\') (ended : text.next.deref = nul) :
    quotedLoop start (passes + 1) escapedDest text = (none, text.next) := by
  rw [quotedLoop, if_neg (by rw [backslash]; decide), if_neg (by rw [backslash]; decide),
    if_pos backslash, if_pos ended]

theorem quotedLoop_escaped (backslash : text.deref = '\\') (nonempty : text.next.deref ≠ nul) :
    quotedLoop start (passes + 1) escapedDest text =
      quotedLoop start passes (escapedDest + 1)
        ⟨writeBehind escapedDest text.next, text.next.at_ + 1⟩ := by
  rw [quotedLoop, if_neg (by rw [backslash]; decide), if_neg (by rw [backslash]; decide),
    if_pos backslash, if_neg nonempty]
  rfl

end Passes

section Unescaping

variable (pre : Text)

/-- The text in the loop: what has been unescaped, the cells left over, and what
is still to be read. -/
def quoted (unescaped cells more : Text) : Cursor :=
  ⟨pre ++ (unescaped ++ (cells ++ more)), pre.length + (unescaped.length + cells.length)⟩

variable {pre} {unescaped cells more : Text} {c : Char}

theorem quoted_deref : (quoted pre unescaped cells (c :: more)).deref = c := by
  have here := @deref_at (pre ++ unescaped ++ cells) more c
  simpa [quoted] using here

theorem quoted_next :
    (quoted pre unescaped cells (c :: more)).next = quoted pre unescaped (cells ++ [c]) more := by
  simp [quoted, Cursor.next]
  omega

theorem quoted_write :
    (⟨writeBehind (pre.length + unescaped.length) (quoted pre unescaped cells (c :: more)),
      (quoted pre unescaped cells (c :: more)).at_ + 1⟩ : Cursor) =
      quoted pre (unescaped ++ [c]) (cells ++ [c]).tail more := by
  rw [writeBehind, quoted_deref]
  cases cells with
  | nil => simp [quoted, Nat.add_assoc]
  | cons j js =>
    have write : (quoted pre unescaped (j :: js) (c :: more)).buf.set
        (pre.length + unescaped.length) c = pre ++ (unescaped ++ [c] ++ (js ++ c :: more)) := by
      simp [quoted]
    rw [if_pos (by simp [quoted]), write]
    simp [quoted]
    omega

theorem quoted_close :
    (⟨(quoted pre unescaped cells ('"' :: more)).buf.set (pre.length + unescaped.length) nul,
      (quoted pre unescaped cells ('"' :: more)).at_ + 1⟩ : Cursor) =
      quoted pre unescaped (nul :: (cells ++ ['"']).tail) more := by
  cases cells with
  | nil => simp [quoted, Nat.add_assoc]
  | cons j js => simp [quoted, Nat.add_assoc]

theorem escape_special (special : c = '"' ∨ c = '\\') (s : Text) :
    escape (c :: s) = '\\' :: c :: escape s := by
  rw [escape, List.flatMap_cons, if_pos special]
  rfl

theorem escape_plain (plain : ¬ (c = '"' ∨ c = '\\')) (s : Text) :
    escape (c :: s) = c :: escape s := by
  rw [escape, List.flatMap_cons, if_neg plain]
  rfl

theorem quotedLoop_escape (rest : Text) {s : Text} (nulFree : nul ∉ s) (some_ : unescaped ++ s ≠ [])
    {passes : ℕ} (enough : s.length < passes) :
    ∃ left : Text, (unescaped ++ s).length + left.length = (unescaped ++ cells ++ escape s).length ∧
      quotedLoop pre.length passes (pre.length + unescaped.length)
        (quoted pre unescaped cells (escape s ++ '"' :: rest)) =
      (some pre.length, quoted pre (unescaped ++ s) (nul :: left) rest) := by
  induction s generalizing unescaped cells passes with
  | nil =>
    obtain ⟨passes, rfl⟩ : ∃ n, passes = n + 1 := ⟨passes - 1, by omega⟩
    rw [List.append_nil] at some_
    have later : pre.length ≠ (quoted pre unescaped cells ('"' :: rest)).at_ := by
      have := List.length_pos_iff.mpr some_
      simp only [quoted]
      omega
    refine ⟨(cells ++ ['"']).tail, by simp [escape], ?_⟩
    rw [List.append_nil, ← quoted_close]
    exact quotedLoop_closed quoted_deref later
  | cons c s ih =>
    obtain ⟨passes, rfl⟩ : ∃ n, passes = n + 1 := ⟨passes - 1, by omega⟩
    have charNul : c ≠ nul := fun h => nulFree (by simp [h])
    have whole : unescaped ++ [c] ++ s = unescaped ++ c :: s := by simp
    have advance : pre.length + (unescaped ++ [c]).length = pre.length + unescaped.length + 1 := by
      simp [Nat.add_assoc]
    -- the cells left over once `c` has been read and written
    have next (cells' : Text) := @ih (unescaped ++ [c]) cells' (fun h => nulFree (by simp [h]))
      (by simp) passes (by simpa using enough)
    simp only [whole, advance] at next
    by_cases special : c = '"' ∨ c = '\\'
    · obtain ⟨left, size, run⟩ := next (cells ++ ['\\'] ++ [c]).tail
      rw [escape_special special]
      refine ⟨left, ?_, ?_⟩
      · simp only [List.length_append, List.length_tail, List.length_cons, List.length_nil] at size ⊢
        omega
      · rw [← run, ← quoted_write, ← quoted_next]
        refine quotedLoop_escaped quoted_deref ?_
        rw [List.cons_append, quoted_next, List.cons_append, quoted_deref]
        exact charNul
    · obtain ⟨left, size, run⟩ := next (cells ++ [c]).tail
      obtain ⟨quote, backslash⟩ := not_or.mp special
      rw [escape_plain special]
      refine ⟨left, ?_, ?_⟩
      · simp only [List.length_append, List.length_tail, List.length_cons, List.length_nil] at size ⊢
        omega
      · rw [← run, ← quoted_write]
        refine quotedLoop_plain ?_ ?_ ?_ <;> rw [List.cons_append, quoted_deref] <;> assumption

end Unescaping

theorem string_at {pre s more : Text} (nulFree : nul ∉ s) :
    (⟨pre ++ (s ++ nul :: more), pre.length⟩ : Cursor).string = s := by
  rw [Cursor.string, List.drop_left]
  refine takeWhile_append_stop (fun c hc => ?_) (by simp)
  simpa using fun h : c = nul => nulFree (h ▸ hc)

theorem length_le_escape (s : Text) : s.length ≤ (escape s).length := by
  induction s with
  | nil => rfl
  | cons c s ih =>
    by_cases special : c = '"' ∨ c = '\\'
    · rw [escape_special special]
      simp only [List.length_cons]
      omega
    · rw [escape_plain special]
      simpa using ih

/-- Carving a quoted token undoes escaping. -/
theorem carveQuotableToken_escape {s ws : Text} (some_ : s ≠ []) (nulFree : nul ∉ s)
    (space : ∀ c ∈ ws, isspace c = true) (pre rest : Text) :
    ∃ ret after,
      carveQuotableToken ⟨pre ++ (ws ++ '"' :: (escape s ++ '"' :: rest)), pre.length⟩ =
        (some ret, after) ∧
      (⟨after.buf, ret⟩ : Cursor).string = s ∧
      after.at_ = (pre ++ (ws ++ '"' :: (escape s ++ ['"']))).length ∧
      after.buf.drop after.at_ = rest := by
  let start := pre ++ ws ++ ['"']
  let text : Cursor := ⟨pre ++ (ws ++ '"' :: (escape s ++ '"' :: rest)), pre.length⟩
  have white : parseWhitespaces text = ⟨text.buf, (pre ++ ws).length⟩ := by
    rw [List.length_append]
    exact skip_at space (by simp; decide)
  have opened : (parseWhitespaces text).deref = '"' := by
    have here := @deref_at (pre ++ ws) (escape s ++ '"' :: rest) '"'
    rwa [white, show text.buf = pre ++ ws ++ '"' :: (escape s ++ '"' :: rest) by simp [text]]
  have inside : (parseWhitespaces text).next = quoted start [] [] (escape s ++ '"' :: rest) := by
    simp [white, Cursor.next, quoted, start, text]
    omega
  have longer := length_le_escape s
  have enough : s.length < text.buf.length + 1 := by
    simp only [text, List.length_append, List.length_cons]
    omega
  obtain ⟨left, size, run⟩ := @quotedLoop_escape start [] [] rest s nulFree (by simpa using some_)
    _ enough
  refine ⟨start.length, quoted start s (nul :: left) rest, ?_, ?_, ?_, ?_⟩
  · change carveQuotableToken text = _
    rw [carveQuotableToken, if_pos opened, carveQuotedToken, inside]
    simpa [quoted, start, text] using run
  · simpa [quoted] using string_at nulFree
  · simp [quoted, start] at size ⊢
    omega
  · simp [quoted]

theorem carveQuotableToken_escape_quote :
    ∃ ret after, carveQuotableToken ⟨[] ++ ([' '] ++ '"' :: (escape ['a', '"'] ++ '"' :: ['b'])), 0⟩ =
        (some ret, after) ∧
      (⟨after.buf, ret⟩ : Cursor).string = ['a', '"'] ∧
      after.at_ = ([] ++ ([' '] ++ '"' :: (escape ['a', '"'] ++ ['"']))).length ∧
      after.buf.drop after.at_ = ['b'] :=
  carveQuotableToken_escape (by simp) (by decide) (List.forall_mem_singleton.mpr (by decide)) [] ['b']

end Libdank.Carving
