import Libdank.LineParser.Continuations
import Libdank.LineParser.Outcomes

/-! The parser on a text that its buffer holds whole. It finds the first line as
joining finds it, unless that begins with a continuation: then it takes the spaces for
a part of the line. -/
namespace Libdank.LineParser
open Buffers Requests

def LineParserCtx.withData (ctx : LineParserCtx) (data : Bytes) : LineParserCtx :=
  { ctx with buf := overwrite ctx.buf ctx.base data }

def LineParserCtx.advance (ctx : LineParserCtx) (n : ℕ) : LineParserCtx :=
  { ctx with count := ctx.count - n, base := ctx.base + n }

def behind (rest : Option Bytes) : Bytes := rest.elim [] (newline :: ·)

section States
variable {ctx : LineParserCtx} {data : Bytes}

theorem Holds.inside (h : Holds ctx data) : ctx.base ≤ ctx.buf.length := by
  have size := h.size
  have fits := h.fits
  omega

theorem Holds.withData_self (h : Holds ctx data) : ctx.withData data = ctx := by
  have size := h.size
  have fits := h.fits
  rw [LineParserCtx.withData, ← h.held, overwrite_slice _ _ _ (by omega)]

theorem withData_withData (inside : ctx.base ≤ ctx.buf.length) {data' : Bytes}
    (same : data'.length = data.length) : (ctx.withData data).withData data' = ctx.withData data' := by
  rw [LineParserCtx.withData]
  exact congrArg (fun buf => { ctx with buf := buf }) (overwrite_overwrite ctx.buf inside same)

theorem withData_behind (inside : ctx.base ≤ ctx.buf.length) (x : Bytes) {y y' : Bytes}
    (same : y'.length = y.length) :
    ((ctx.withData (x ++ y)).advance x.length).withData y' = (ctx.withData (x ++ y')).advance x.length :=
  congrArg (fun buf => { ctx with buf := buf, count := ctx.count - x.length, base := ctx.base + x.length })
    (overwrite_append ctx.buf x inside same)

theorem Holds.withData (h : Holds ctx data) {data' : Bytes} (same : data'.length = data.length)
    (live : 0 ∉ data') : Holds (ctx.withData data') data' := by
  have size := h.size
  have fits := h.fits
  have count := h.length
  have len : (overwrite ctx.buf ctx.base data').length = ctx.buf.length :=
    length_overwrite _ _ _ (by omega)
  refine ⟨len.trans size, h.room, fits, ?_, live, fun some_ => ?_⟩
  · have read := slice_overwrite ctx.buf data' h.inside
    rwa [same, count] at read
  · change (overwrite ctx.buf ctx.base data')[ctx.base + ctx.count]? = some 0
    rw [getElem?_overwrite_after _ _ h.inside (by omega), h.nul some_]

theorem Holds.behind (h : Holds ctx data) {x y : Bytes} (split : data = x ++ y) :
    Holds (ctx.advance x.length) y := by
  have count := h.length
  have le : x.length ≤ ctx.count := by
    rw [← count, split, List.length_append]
    omega
  have next := h.advance le
  rwa [split, List.drop_left] at next

theorem Holds.replace {x y : Bytes} (h : Holds ctx (x ++ y)) {x' : Bytes} (same : x'.length = x.length) :
    Holds ((ctx.withData (x' ++ y)).advance x.length) y := by
  have size := h.size
  have fits := h.fits
  have count := h.length
  have le : x.length ≤ ctx.count := by
    rw [← count, List.length_append]
    omega
  have whole : (x' ++ y).length = ctx.count := by
    rw [← count, List.length_append, List.length_append, same]
  have next := h.behind rfl
  have len : (overwrite ctx.buf ctx.base (x' ++ y)).length = ctx.buf.length :=
    length_overwrite _ _ _ (by omega)
  refine ⟨len.trans size, h.room, next.fits, ?_, next.live, fun some_ => ?_⟩
  · change slice (overwrite ctx.buf ctx.base (x' ++ y)) (ctx.base + x.length) (ctx.count - x.length) = y
    have read := slice_overwrite ctx.buf (x' ++ y) h.inside
    rw [whole] at read
    rw [← slice_drop, read, List.drop_left' same]
  · have end_ : ctx.base + x.length + (ctx.count - x.length) = ctx.base + ctx.count := by omega
    change (overwrite ctx.buf ctx.base (x' ++ y))[ctx.base + x.length + (ctx.count - x.length)]? = some 0
    rw [end_, getElem?_overwrite_after _ _ h.inside (by omega)]
    refine h.nul fun none_ => some_ ?_
    change ctx.count - x.length = 0
    omega

theorem Holds.set_eq (h : Holds ctx data) {i : ℕ} (lt : i < data.length) (x : UInt8) :
    { ctx with buf := ctx.buf.set (ctx.base + i) x } = ctx.withData (data.set i x) := by
  rw [LineParserCtx.withData, ← overwrite_set ctx.buf data x h.inside lt]
  have same := congrArg LineParserCtx.buf h.withData_self
  exact congrArg (fun buf => { ctx with buf := buf.set (ctx.base + i) x }) same.symm

theorem Holds.join {front text : Bytes} (h : Holds ctx (front ++ newline :: text)) {i : ℕ}
    (lt : i < front.length) :
    { ctx with buf := (ctx.buf.set (ctx.base + i) space).set (ctx.base + front.length) space } =
        ctx.withData (front.set i space ++ space :: text) ∧
      Holds (ctx.withData (front.set i space ++ space :: text)) (front.set i space ++ space :: text) := by
  have len := h.length
  rw [List.length_append, List.length_cons] at len
  have first := h.set_eq (show i < (front ++ newline :: text).length by simp; omega) space
  have spaced := @Holds.set _ _ h i (by omega) space (by decide)
  have second := spaced.set_eq (i := front.length) (by simp) space
  rw [set_spaces lt] at second
  have whole := second.trans (show LineParserCtx.withData { ctx with buf := _ } _ = _ by
    rw [first, withData_withData h.inside (by simp)])
  exact ⟨whole, whole ▸ h.spaces lt⟩

end States

section Searches
variable {ctx : LineParserCtx} {data : Bytes}

theorem continuation_joinBack (buf : Bytes) (base n : ℕ) (inside : base + n ≤ buf.length)
    (clean : newline ∉ slice buf base n) :
    (continuation buf base n = none ∧ joinBack (slice buf base n).reverse = none) ∨
    ∃ i < n, continuation buf base n = some (base + i) ∧
      joinBack (slice buf base n).reverse = some ((slice buf base n).set i space).reverse := by
  induction n with
  | zero => exact .inl ⟨rfl, by simp [joinBack]⟩
  | succ n ih =>
    have len : (slice buf base n).length = n := length_slice _ _ _ (by omega)
    rw [slice_succ buf base n (by omega)] at clean ⊢
    rw [continuation, List.reverse_append, List.reverse_singleton, List.singleton_append, joinBack]
    generalize buf.getD (base + n) 0 = c at clean ⊢
    obtain ⟨clean, other⟩ : newline ∉ slice buf base n ∧ c ≠ newline := by
      simpa [eq_comm] using clean
    by_cases here : c = backslash
    · rw [if_pos here, if_pos here]
      refine .inr ⟨n, Nat.lt_succ_self n, rfl, ?_⟩
      rw [List.set_append_right _ _ len.le, len, Nat.sub_self, List.reverse_append]
      rfl
    · rw [if_neg here, if_neg here]
      by_cases blank : isspace c = true
      · rw [if_pos blank, if_pos ⟨blank, other⟩]
        rcases ih (by omega) clean with ⟨none_, walk⟩ | ⟨i, lt, some_, walk⟩
        · exact .inl ⟨none_, by rw [walk]; rfl⟩
        · refine .inr ⟨i, by omega, some_, ?_⟩
          rw [walk, List.set_append_left _ _ (by omega), List.reverse_append]
          rfl
      · rw [if_neg blank, if_neg fun both => blank both.1]
        exact .inl ⟨rfl, rfl⟩

theorem firstLine_length {done text line : Bytes} {rest : Option Bytes}
    (first : firstLine done text = (line, rest)) :
    (line ++ behind rest).length = done.length + text.length := by
  have size := (joinFrom_cells done text).length_eq
  rw [List.length_append, List.length_reverse] at size
  cases rest with
  | none =>
    rw [behind, Option.elim_none, List.append_nil, ← firstLine_none first, size]
  | some rest =>
    obtain ⟨all, -⟩ := firstLine_some first
    rw [behind, Option.elim_some, size, all]
    simp [length_joined]

theorem firstLine_live {text line : Bytes} {rest : Option Bytes} (live : 0 ∉ text)
    (first : firstLine [] text = (line, rest)) : 0 ∉ line ++ behind rest := by
  have joined_ := joined_live live
  cases rest with
  | none =>
    have all : joined text = line := firstLine_none first
    rw [behind, Option.elim_none, List.append_nil]
    rwa [all] at joined_
  | some rest =>
    obtain ⟨all, -, suffix⟩ := firstLine_some first
    rw [show joinFrom [] text = joined text from rfl] at all
    rw [all] at joined_
    rw [behind, Option.elim_some]
    intro mem
    rcases List.mem_append.mp mem with early | late
    · exact joined_ (List.mem_append_left _ early)
    · exact live (suffix.subset late)

theorem findEnd_firstLine (passes : ℕ) {first text line : Bytes} {rest : Option Bytes} {examined : ℕ}
    (h : Holds ctx (first ++ text)) (some_ : ctx.count ≠ 0) (le : examined ≤ first.length)
    (clean : newline ∉ first) (enough : text.count newline < passes)
    (found : firstLine first.reverse text = (line, rest)) :
    ∃ e, findEnd passes ctx examined =
      (rest.map fun _ => ctx.base + line.length, ctx.withData (line ++ behind rest), e) := by
  induction passes generalizing ctx first text examined with
  | zero => omega
  | succ passes ih =>
    have size := h.size
    have fits := h.fits
    have len := h.length
    by_cases mem : newline ∈ text
    · obtain ⟨more, text', rfl, fresh⟩ := List.eq_append_cons_of_mem mem
      rw [firstLine_append fresh, ← List.reverse_append] at found
      rw [← List.append_assoc] at h len
      have clean' : newline ∉ first ++ more := by simp [clean, fresh]
      have within : examined ≤ (first ++ more).length := by
        rw [List.length_append]
        omega
      generalize first ++ more = front at *
      rw [List.length_append, List.length_cons] at len
      have held := h.front
      have walks := continuation_joinBack ctx.buf ctx.base front.length (by omega) (held.symm ▸ clean')
      obtain ⟨stops, joins⟩ := findEnd_newline h within clean' passes
      rw [firstLine, if_pos rfl] at found
      rw [held] at walks
      rcases walks with ⟨none_, walk⟩ | ⟨i, lt, joined_, walk⟩
      · rw [walk] at found
        obtain ⟨rfl, rfl⟩ := Prod.mk.inj found
        rw [List.reverse_reverse, behind, Option.elim_some, h.withData_self]
        exact ⟨examined, stops none_⟩
      · rw [walk] at found
        obtain ⟨state, next⟩ := h.join lt
        have same : (front.set i space ++ [space]).length = front.length + 1 := by simp
        have blank : newline ∉ front.set i space ++ [space] := fun mem => by
          rcases List.mem_append.mp mem with old | new
          · exact newline_not_mem_set clean' i old
          · cases List.mem_singleton.mp new
        rw [List.append_cons] at next
        obtain ⟨e, ends⟩ := ih next some_ (show front.length ≤ _ by omega) blank
          (by
            rw [List.count_append, List.count_cons_self] at enough
            omega)
          (by rwa [List.reverse_append])
        rw [joins _ joined_, state]
        rw [withData_withData h.inside, ← List.append_cons] at ends
        · exact ⟨e, ends⟩
        · rw [firstLine_length found]
          simp
          omega
    · have last : firstLine first.reverse text = (first ++ text, none) := by
        have whole := firstLine_append mem first.reverse []
        rwa [List.append_nil, ← List.reverse_append, firstLine, List.reverse_reverse] at whole
      obtain ⟨rfl, rfl⟩ := Prod.mk.inj (last.symm.trans found)
      refine ⟨examined, ?_⟩
      rw [behind, Option.elim_none, List.append_nil, h.withData_self]
      rw [List.length_append] at len
      refine findEnd_none h some_ (by omega) (fun late => ?_) passes
      rw [List.drop_append_of_le_length le] at late
      rcases List.mem_append.mp late with early | late
      · exact clean (List.mem_of_mem_drop early)
      · exact mem late

end Searches

section Passes
variable {ctx : LineParserCtx} {data : Bytes}

theorem takeLine_eq {line rest : Bytes} (h : Holds ctx (line ++ newline :: rest)) (some_ : line ≠ []) :
    takeLine ctx (ctx.base + line.length) =
      if line.head? = some hash then (none, ctx.advance (line.length + 1))
      else (some line, (ctx.withData (line ++ 0 :: rest)).advance (line.length + 1)) := by
  have size := h.size
  have fits := h.fits
  have len := h.length
  rw [List.length_append, List.length_cons] at len
  have comment : isComment ctx.buf ctx.base = true ↔ line.head? = some hash := by
    rw [h.isComment (by omega), List.head?_append_of_ne_nil _ some_]
  have whole : ctx.base + line.length - ctx.base + 1 = line.length + 1 := by omega
  rw [takeLine]
  simp only [comment, whole]
  by_cases starts : line.head? = some hash
  · rw [if_pos starts, if_pos starts]
    rfl
  · rw [if_neg starts, if_neg starts]
    have state := h.set_eq (i := line.length) (by simp) 0
    rw [List.set_append_right _ _ le_rfl, Nat.sub_self, List.set_cons_zero] at state
    have held : slice (ctx.buf.set (ctx.base + line.length) 0) ctx.base line.length = line := by
      rw [slice_set_after _ _ _ _ le_rfl, h.front]
    have string : cstring (ctx.buf.set (ctx.base + line.length) 0) ctx.base = line := by
      have live : 0 ∉ line := fun mem => h.live (List.mem_append_left _ mem)
      rw [cstring_eq (held.symm ▸ live) (List.getElem?_set_self (by omega)), held]
    rw [string, ← state]
    rfl

def taken (ctx : LineParserCtx) (line : Bytes) : Option Bytes → Option Bytes × LineParserCtx × ℕ
  | none => (none, ctx, ctx.count)
  | some rest =>
    if line.head? = some hash then (none, ctx.advance (line.length + 1), 0)
    else (some line, (ctx.withData (line ++ 0 :: rest)).advance (line.length + 1), 0)

def lead (data : Bytes) : ℕ := data.length - (trim data).length

theorem trim_head (solid : trim data ≠ []) : ∃ c, (trim data).head? = some c ∧ isspace c = false :=
  ⟨_, List.head?_eq_some_head solid, List.head_dropWhile_not isspace solid⟩

theorem skipWhitespace_eq (h : Holds ctx data) :
    skipWhitespace (ctx.count + 2) none ctx = ctx.advance (lead data) ∧
      Holds (ctx.advance (lead data)) (trim data) := by
  obtain ⟨n, le, trimmed, skipped⟩ := skipWhitespace_holds (ctx.count + 2) h (Nat.lt_succ_self _)
  have amount : lead data = n := by
    rw [lead, ← trimmed, List.length_drop, h.length]
    omega
  rw [amount, ← trimmed]
  exact ⟨skipped, h.advance le⟩

theorem scan_eq (h : Holds ctx data) (solid : trim data ≠ []) {line : Bytes} {rest : Option Bytes}
    (first : firstLine [] (trim data) = (line, rest)) :
    scan ctx 0 = taken ((ctx.advance (lead data)).withData (line ++ behind rest)) line rest := by
  obtain ⟨skipped, holds⟩ := skipWhitespace_eq h
  obtain ⟨c, head, other⟩ := trim_head solid
  generalize ctx.advance (lead data) = ctx₁ at *
  generalize trim data = text at *
  have len := holds.length
  have some_ : ctx₁.count ≠ 0 := by
    rw [← len]
    exact mt List.length_eq_zero_iff.mp solid
  have whole : Holds ctx₁ ([] ++ text) := holds
  obtain ⟨e, ends⟩ := findEnd_firstLine (ctx₁.count + 1) whole some_ (Nat.zero_le ([] : Bytes).length)
    (by simp) (Nat.lt_succ_of_le (len ▸ List.count_le_length)) first
  rw [scan]
  simp only [if_true, skipped, some_, and_false, if_false, ends]
  cases rest with
  | none => rfl
  | some rest =>
    have size : (line ++ behind (some rest)).length = text.length :=
      (firstLine_length first).trans (Nat.zero_add _)
    have next : Holds (ctx₁.withData (line ++ behind (some rest))) (line ++ newline :: rest) :=
      holds.withData size (firstLine_live holds.live first)
    simp only [Option.map_some]
    rw [show ctx₁.base = (ctx₁.withData (line ++ behind (some rest))).base from rfl]
    generalize ctx₁.withData (line ++ behind (some rest)) = ctx₂ at next ⊢
    rw [takeLine_eq next (firstLine_head head other first).1, taken]
    split_ifs <;> rfl

theorem Holds.rest (h : Holds ctx data) {line rest : Bytes}
    (first : firstLine [] data = (line, some rest)) (mark : UInt8) :
    Holds ((ctx.withData (line ++ mark :: rest)).advance (line.length + 1)) rest := by
  obtain ⟨before, rfl, size⟩ := firstLine_split first
  rw [List.append_cons] at h
  have same : (line ++ [mark]).length = (before ++ [newline]).length := by simp [size]
  have next := h.replace same
  rwa [← List.append_cons, List.length_append, size] at next

end Passes

section Twins
variable {ctx : LineParserCtx} {data : Bytes}

/-- The reader holds the joined data, or the same as the other. -/
inductive Twins : LineParserCtx → LineParserCtx → Prop
  | same (ctx : LineParserCtx) : Twins ctx ctx
  | apart {ctx : LineParserCtx} {data : Bytes} (holds : Holds ctx data) (good : ¬ JoinsAtStart data) :
      Twins ctx (ctx.withData (joined data))

theorem trim_split (data : Bytes) :
    ∃ blank, data = blank ++ trim data ∧ (∀ c ∈ blank, isspace c = true) ∧ blank.length = lead data := by
  have split := (List.takeWhile_append_dropWhile (p := isspace) (l := data)).symm
  refine ⟨data.takeWhile isspace, split, fun c mem => List.mem_takeWhile_imp mem, ?_⟩
  have len := congrArg List.length split
  rw [List.length_append] at len
  rw [lead, trim]
  omega

theorem joined_trim (data : Bytes) : ∃ blank, blank.length = lead data ∧ data = blank ++ trim data ∧
    joined data = blank ++ joined (trim data) ∧ (JoinsAtStart data ↔ JoinsAtStart (trim data)) ∧
    (∀ c ∈ blank, isspace c = true) := by
  obtain ⟨blank, split, all, size⟩ := trim_split data
  obtain ⟨front, starts⟩ := joined_blank all (trim data)
  rw [← split] at front starts
  exact ⟨blank, size, split, front, starts, all⟩

theorem Holds.joined (h : Holds ctx data) : Holds (ctx.withData (joined data)) (joined data) :=
  h.withData (length_joined data) (joined_live h.live)

theorem joined_advance (h : Holds ctx data) :
    (ctx.withData (joined data)).advance (lead data) =
      (ctx.advance (lead data)).withData (joined (trim data)) := by
  obtain ⟨blank, size, split, front, -⟩ := joined_trim data
  have behind := withData_behind h.inside blank (length_joined (trim data))
  rw [← split, h.withData_self, ← front, size] at behind
  exact behind.symm

/-- A text whose first line begins with no continuation has the joined first line, and
then what is joined behind it. -/
theorem firstLine_twin {line : Bytes} {rest : Option Bytes} (solid : trim data ≠ [])
    (good : ¬ JoinsAtStart data) (first : firstLine [] (trim data) = (line, rest)) :
    trim (joined data) = joined (trim data) ∧
      firstLine [] (trim (joined data)) = (line, rest.map joined) ∧
      ∀ text ∈ rest, ¬ JoinsAtStart text := by
  obtain ⟨blank, -, -, front, starts, all⟩ := joined_trim data
  obtain ⟨c, head, other⟩ := trim_head solid
  rw [starts] at good
  have clean := firstLine_clean (by simp) first
  obtain ⟨some_, same⟩ := firstLine_head head other first
  have kept : (joined (trim data)).head? = some c := by
    rcases joined_head head other with kept | ⟨-, spaced⟩
    · exact kept
    · exact absurd (joinsAtStart_of_head head other spaced) good
  have trims : trim (joined data) = joined (trim data) := by
    rw [front, trim_append_space all]
    generalize joined (trim data) = text at kept
    cases text with
    | nil => cases kept
    | cons d text =>
      obtain rfl : d = c := Option.some.inj kept
      exact trim_of_head text other
  refine ⟨trims, ?_⟩
  rw [trims]
  cases rest with
  | none =>
    rw [show joined (trim data) = line from firstLine_none first]
    exact ⟨firstLine_last clean, fun text mem => by cases mem⟩
  | some rest =>
    obtain ⟨whole, stop, -⟩ := firstLine_some first
    rw [show joined (trim data) = _ from whole]
    refine ⟨firstLine_joined clean stop _, fun text mem bad => good ?_⟩
    obtain rfl := Option.some.inj mem
    exact (joinsAtStart_some head other first).mpr (.inr bad)

/-- A pass over the data and one over the joined data: they end alike, or with a line
behind which one has the joined data of the other. -/
theorem scan_twin (h : Holds ctx data) (solid : trim data ≠ []) (good : ¬ JoinsAtStart data) :
    scan (ctx.withData (joined data)) 0 = scan ctx 0 ∨
      ∃ line a rest, scan ctx 0 = (line, a, 0) ∧ Holds a rest ∧ ¬ JoinsAtStart rest ∧
        scan (ctx.withData (joined data)) 0 = (line, a.withData (joined rest), 0) := by
  rcases first : firstLine [] (trim data) with ⟨line, rest⟩
  obtain ⟨trims, first', goods⟩ := firstLine_twin solid good first
  have holds := (skipWhitespace_eq h).2
  have solid' : trim (joined data) ≠ [] := fun nil => by
    have len := length_joined (trim data)
    rw [← trims, nil] at len
    exact solid (List.length_eq_zero_iff.mp len.symm)
  have leads : lead (joined data) = lead data := by
    rw [lead, lead, trims, length_joined, length_joined]
  have size := firstLine_length first'
  have size' : (line ++ behind (rest.map joined)).length = (joined (trim data)).length := by
    rw [← trims, size, List.length_nil, Nat.zero_add]
  rw [scan_eq h solid first, scan_eq h.joined solid' first', leads, joined_advance h,
    withData_withData holds.inside size']
  generalize ctx.advance (lead data) = ctx₁ at holds
  cases rest with
  | none => exact .inl rfl
  | some rest =>
    have twin (mark : UInt8) : (ctx₁.withData (line ++ mark :: joined rest)).advance (line.length + 1) =
        ((ctx₁.withData (line ++ mark :: rest)).advance (line.length + 1)).withData (joined rest) := by
      have apart := withData_behind holds.inside (line ++ [mark]) (length_joined rest)
      rw [← List.append_cons, ← List.append_cons, List.length_append] at apart
      exact apart.symm
    have after (mark : UInt8) : (ctx₁.withData (line ++ newline :: rest)).withData (line ++ mark :: rest) =
        ctx₁.withData (line ++ mark :: rest) := withData_withData holds.inside (by simp)
    have after' (mark : UInt8) :
        (ctx₁.withData (line ++ newline :: joined rest)).withData (line ++ mark :: joined rest) =
        ctx₁.withData (line ++ mark :: joined rest) := withData_withData holds.inside (by simp)
    have good' := goods rest rfl
    right
    rw [Option.map_some, taken, taken, behind, behind, Option.elim_some, Option.elim_some, after, after',
      twin, twin]
    by_cases comment : line.head? = some hash
    · simp only [if_pos comment]
      exact ⟨_, _, rest, rfl, holds.rest first newline, good', rfl⟩
    · simp only [if_neg comment]
      exact ⟨_, _, rest, rfl, holds.rest first 0, good', rfl⟩

end Twins

section Calls
variable (junk : ℕ → UInt8) (bufsiz : ℕ) {ctx : LineParserCtx} {data : Bytes}

/-- What is left of a pass of the loop once it has looked at fresh data. -/
def afterScan (passes : ℕ) (fd : File) (q : Option Bytes × LineParserCtx × ℕ) :
    Request (NextLine × LineParserCtx × File) :=
  match q with
  | (some line, ctx, _) => pure (.line line, ctx, fd)
  | (none, ctx, examined) => nextLoop junk bufsiz passes ctx fd examined

theorem nextLoop_fresh (some_ : ctx.count ≠ 0) (passes : ℕ) (fd : File) :
    nextLoop junk bufsiz (passes + 1) ctx fd 0 = afterScan junk bufsiz passes fd (scan ctx 0) := by
  rw [nextLoop, if_pos (.inl (Nat.pos_of_ne_zero some_)), refillAt, if_neg some_]
  rfl

structure Alike (a b : (NextLine × LineParserCtx × File) × Heap) : Prop where
  line : b.1.1 = a.1.1
  ctx : Twins a.1.2.1 b.1.2.1
  fd : b.1.2.2 = a.1.2.2
  heap : b.2 = a.2

theorem alike_refl (a : (NextLine × LineParserCtx × File) × Heap) : Alike a a :=
  ⟨rfl, .same _, rfl, rfl⟩

theorem joined_of_blank (blank : trim data = []) : joined data = data := by
  obtain ⟨front, -, split, same, -⟩ := joined_trim data
  rw [blank] at split same
  exact same.trans split.symm

theorem Holds.count_ne_zero (h : Holds ctx data) (solid : trim data ≠ []) : ctx.count ≠ 0 := by
  rw [← h.length]
  exact fun none_ => solid (by rw [List.length_eq_zero_iff.mp none_]; rfl)

theorem nextLoop_alike (passes : ℕ) (h : Holds ctx data) (good : ¬ JoinsAtStart data) (fd : File)
    (s : Heap) :
    Alike (nextLoop junk bufsiz passes ctx fd 0 s)
      (nextLoop junk bufsiz passes (ctx.withData (joined data)) fd 0 s) := by
  induction passes generalizing ctx data with
  | zero => exact ⟨rfl, .apart h good, rfl, rfl⟩
  | succ passes ih =>
    by_cases blank : trim data = []
    · rw [joined_of_blank blank, h.withData_self]
      exact alike_refl _
    · have some_ := h.count_ne_zero blank
      have same_ : (ctx.withData (joined data)).count ≠ 0 := some_
      rw [nextLoop_fresh junk bufsiz some_, nextLoop_fresh junk bufsiz same_]
      rcases scan_twin h blank good with same | ⟨line, a, rest, run, holds, good', run'⟩
      · rw [same]
        exact alike_refl _
      · rw [run, run']
        cases line with
        | none => exact ih holds good'
        | some line => exact ⟨rfl, .apart holds good', rfl, rfl⟩

theorem lineParserNext_alike {a b : LineParserCtx} (twins : Twins a b) (fd : File) (s : Heap) :
    Alike (lineParserNext junk bufsiz a fd s) (lineParserNext junk bufsiz b fd s) := by
  cases twins with
  | same => exact alike_refl _
  | apart holds good => exact nextLoop_alike junk bufsiz _ holds good fd s

def afterCall (calls : ℕ) (q : NextLine × LineParserCtx × File) : Request (List Bytes) :=
  match q.1 with
  | .line text => do
    let lines ← nextLines junk bufsiz calls q.2.1 q.2.2
    pure (text :: lines)
  | _ => pure []

theorem afterCall_alike {calls : ℕ} {q q' : (NextLine × LineParserCtx × File) × Heap}
    (later : ∀ a b, Twins a b → ∀ fd s,
      nextLines junk bufsiz calls b fd s = nextLines junk bufsiz calls a fd s) (alike : Alike q q') :
    afterCall junk bufsiz calls q'.1 q'.2 = afterCall junk bufsiz calls q.1 q.2 := by
  obtain ⟨⟨line, a, fd⟩, s⟩ := q
  obtain ⟨⟨line', b, fd'⟩, s'⟩ := q'
  obtain ⟨rfl, twins, rfl, rfl⟩ := alike
  dsimp only at twins
  rw [afterCall, afterCall]
  cases line' with
  | line text =>
    dsimp only
    rw [bind_apply, bind_apply, later a b twins]
  | eof => rfl
  | failed => rfl

theorem nextLines_alike (calls : ℕ) (a b : LineParserCtx) (twins : Twins a b) (fd : File) (s : Heap) :
    nextLines junk bufsiz calls b fd s = nextLines junk bufsiz calls a fd s := by
  induction calls generalizing a b fd s with
  | zero => rfl
  | succ calls ih => exact afterCall_alike junk bufsiz ih (lineParserNext_alike junk bufsiz twins fd s)

end Calls

end Libdank.LineParser
