import Libdank.LineParser.Comments
import Libdank.LineParser.Delivery

/-! Whether a call delivers a line, backslashes and short reads included. It does if
the data not yet worked off and what can still be read have more than whitespace and
comments, unless a short read hides some of that. -/
namespace Libdank.LineParser
open Buffers Requests

structure Quiet (fd : File) : Prop where
  sound : ∀ a ∈ fd.arrivals, a ≠ .fault
  live : 0 ∉ fd.rest

def left (ctx : LineParserCtx) (fd : File) : Bytes := if ctx.eof then [] else fd.rest

/-- The data not yet worked off, with a NUL behind it. -/
structure Holds (ctx : LineParserCtx) (data : Bytes) : Prop where
  size : ctx.buf.length = ctx.total
  room : 2 ≤ ctx.total
  fits : ctx.base + ctx.count < ctx.total
  held : slice ctx.buf ctx.base ctx.count = data
  live : 0 ∉ data
  nul : ctx.count ≠ 0 → ctx.buf[ctx.base + ctx.count]? = some 0

/-- A line is still to come from data of which the first `examined` bytes have no
newline, and from what follows it. -/
def Due (examined : ℕ) (data rest : Bytes) : Prop :=
  (examined ≠ 0 ∧ data.head? ≠ some hash) ∨ modeAfter .outside (data ++ rest) = .line

theorem slice_set (buf : Bytes) (base n i : ℕ) (x : UInt8) :
    slice (buf.set (base + i) x) base n = (slice buf base n).set i x := by
  rw [slice, slice, List.drop_set, if_neg (by omega), Nat.add_sub_cancel_left, List.take_set]

theorem slice_set_after (buf : Bytes) (base n : ℕ) {i : ℕ} (x : UInt8) (after : base + n ≤ i) :
    slice (buf.set i x) base n = slice buf base n := by
  obtain ⟨k, rfl⟩ := Nat.exists_eq_add_of_le (Nat.le_of_add_right_le after)
  rw [slice_set, List.set_eq_of_length_le]
  exact (List.length_take_le _ _).trans (by omega)

section holds
variable {ctx : LineParserCtx} {data : Bytes}

theorem Holds.length (h : Holds ctx data) : data.length = ctx.count := by
  have fits := h.fits
  have size := h.size
  rw [← h.held, length_slice _ _ _ (by omega)]

theorem Holds.cell (h : Holds ctx data) {i : ℕ} (lt : i < ctx.count) :
    data[i]? = some (ctx.buf.getD (ctx.base + i) 0) := by
  have fits := h.fits
  have size := h.size
  rw [← h.held, getElem?_slice _ _ _ _ lt, List.getD_eq_getElem?_getD,
    List.getElem?_eq_getElem (by omega), Option.getD_some]

theorem Holds.front {first rest : Bytes} (h : Holds ctx (first ++ rest)) :
    slice ctx.buf ctx.base first.length = first := by
  have len := h.length
  rw [List.length_append] at len
  rw [← slice_take ctx.buf ctx.base ctx.count _ (by omega), h.held, List.take_left]

theorem Holds.head (h : Holds ctx data) (some_ : ctx.count ≠ 0) :
    data.head? = some (ctx.buf.getD ctx.base 0) := by
  rw [List.head?_eq_getElem?, h.cell (Nat.pos_of_ne_zero some_), Nat.add_zero]

theorem Holds.isComment (h : Holds ctx data) (some_ : ctx.count ≠ 0) :
    isComment ctx.buf ctx.base = true ↔ data.head? = some hash := by
  rw [LineParser.isComment, h.head some_, decide_eq_true_iff, Option.some.injEq]

theorem Holds.advance (h : Holds ctx data) {n : ℕ} (le : n ≤ ctx.count) :
    Holds { ctx with count := ctx.count - n, base := ctx.base + n } (data.drop n) := by
  have fits := h.fits
  have whole : ctx.base + n + (ctx.count - n) = ctx.base + ctx.count := by omega
  refine ⟨h.size, h.room, whole ▸ fits, ?_, fun mem => h.live (List.mem_of_mem_drop mem), fun some_ => ?_⟩
  · rw [← h.held, slice_drop]
  · simp only [whole]
    exact h.nul fun none_ => some_ (by simp only; omega)

theorem Holds.set (h : Holds ctx data) {i : ℕ} (lt : i < ctx.count) {x : UInt8} (live : x ≠ 0) :
    Holds { ctx with buf := ctx.buf.set (ctx.base + i) x } (data.set i x) := by
  refine ⟨by rw [List.length_set, h.size], h.room, h.fits, ?_, fun mem => ?_, fun some_ => ?_⟩
  · rw [slice_set, h.held]
  · rcases List.mem_or_eq_of_mem_set mem with old | same
    · exact h.live old
    · exact live same.symm
  · rw [List.getElem?_set_ne (by simp only; omega)]
    exact h.nul some_

theorem skipWhitespace_holds (passes : ℕ) (h : Holds ctx data) (enough : ctx.count + 1 < passes) :
    ∃ n ≤ ctx.count, data.drop n = trim data ∧
      skipWhitespace passes none ctx = { ctx with count := ctx.count - n, base := ctx.base + n } := by
  induction passes generalizing ctx data with
  | zero => omega
  | succ passes ih =>
    rw [skipWhitespace]
    by_cases none_ : ctx.count = 0
    · have nil : data = [] := List.length_eq_zero_iff.mp (h.length.trans none_)
      rw [if_pos none_]
      exact ⟨0, Nat.zero_le _, by rw [nil]; rfl, rfl⟩
    · have head := h.head none_
      obtain ⟨rest, split⟩ : ∃ rest, data = ctx.buf.getD ctx.base 0 :: rest := by
        cases data with
        | nil => simp at head
        | cons c rest => exact ⟨rest, by rw [Option.some.inj head]⟩
      rw [if_neg none_]
      simp only
      by_cases blank : isspace (ctx.buf.getD ctx.base 0) = true
      · rw [if_pos blank]
        have next := @Holds.advance _ _ h 1 (Nat.pos_of_ne_zero none_)
        obtain ⟨n, le, trimmed, result⟩ := ih next (by simp only; omega)
        simp only at le
        refine ⟨n + 1, by omega, ?_, ?_⟩
        · rw [split, List.drop_one, List.tail_cons] at trimmed
          rw [split, List.drop_succ_cons, trim_cons_space blank]
          exact trimmed
        · rw [result]
          simp only [LineParserCtx.mk.injEq, true_and, and_true]
          omega
      · rw [if_neg blank]
        have trimmed : data.drop 0 = trim data := by
          rw [split, trim_of_head _ (by simpa using blank)]
          rfl
        refine ⟨0, Nat.zero_le _, trimmed, ?_⟩
        by_cases joined : ctx.buf.getD ctx.base 0 = backslash
        · -- The pass that sets `joinlines` is followed by one that stops here.
          obtain ⟨passes, rfl⟩ : ∃ k, passes = k + 1 := ⟨passes - 1, by omega⟩
          rw [if_pos joined, skipWhitespace, if_neg none_]
          simp only [if_neg blank]
          rfl
        · rw [if_neg joined]
          rfl

theorem newline_not_mem_set {first : Bytes} (clean : newline ∉ first) (i : ℕ) :
    newline ∉ first.set i space := fun mem => by
  rcases List.mem_or_eq_of_mem_set mem with old | same
  · exact clean old
  · cases same

theorem findIdx?_newline {first : Bytes} (clean : newline ∉ first) (rest : Bytes) :
    (first ++ newline :: rest).findIdx? (· == newline) = some first.length := by
  induction first with
  | nil => simp [List.findIdx?_cons]
  | cons c first ih =>
    obtain ⟨other, clean⟩ : newline ≠ c ∧ newline ∉ first := by simpa using clean
    have miss : (c == newline) = false := beq_eq_false_iff_ne.mpr (Ne.symm other)
    simp [List.findIdx?_cons, miss, ih clean]

theorem Holds.cstring (h : Holds ctx data) (some_ : ctx.count ≠ 0) {examined : ℕ}
    (le : examined ≤ ctx.count) : cstring ctx.buf (ctx.base + examined) = data.drop examined := by
  have tail : slice ctx.buf (ctx.base + examined) (ctx.count - examined) = data.drop examined := by
    rw [← slice_drop, h.held]
  rw [cstring_eq, tail]
  · rw [tail]
    exact fun mem => h.live (List.mem_of_mem_drop mem)
  · rw [show ctx.base + examined + (ctx.count - examined) = ctx.base + ctx.count by omega]
    exact h.nul some_

theorem findEnd_none (h : Holds ctx data) (some_ : ctx.count ≠ 0) {examined : ℕ}
    (le : examined ≤ ctx.count) (clean : newline ∉ data.drop examined) (passes : ℕ) :
    findEnd (passes + 1) ctx examined = (none, ctx, examined) := by
  have miss : (data.drop examined).findIdx? (· == newline) = none :=
    List.findIdx?_eq_none_iff.mpr fun c mem => beq_eq_false_iff_ne.mpr fun same => clean (same ▸ mem)
  rw [findEnd, strchr, h.cstring some_ le, miss]
  rfl

theorem findEnd_newline {first rest : Bytes} (h : Holds ctx (first ++ newline :: rest)) {examined : ℕ}
    (le : examined ≤ first.length) (clean : newline ∉ first) (passes : ℕ) :
    (continuation ctx.buf ctx.base first.length = none →
      findEnd (passes + 1) ctx examined = (some (ctx.base + first.length), ctx, examined)) ∧
    ∀ tmp, continuation ctx.buf ctx.base first.length = some tmp →
      findEnd (passes + 1) ctx examined = findEnd passes
        { ctx with buf := (ctx.buf.set tmp space).set (ctx.base + first.length) space } first.length := by
  have len := h.length
  rw [List.length_append, List.length_cons] at len
  have hit : ((first ++ newline :: rest).drop examined).findIdx? (· == newline) =
      some (first.length - examined) := by
    rw [List.drop_append_of_le_length le,
      findIdx?_newline (fun mem => clean (List.mem_of_mem_drop mem)), List.length_drop]
  have end_ : ctx.base + examined + (first.length - examined) = ctx.base + first.length := by omega
  rw [findEnd, strchr, h.cstring (by omega) (by omega), hit]
  simp only [Option.map_some, end_, Nat.add_sub_cancel_left]
  exact ⟨fun none_ => by rw [none_], fun tmp some_ => by rw [some_]⟩

/-- How the search for the end of a line ends, with the continued lines before it
joined: what is delivered of the data is as before. -/
inductive Found (ctx : LineParserCtx) (data : Bytes) : Option ℕ × LineParserCtx × ℕ → Prop
  | ended {buf first rest : Bytes} {e : ℕ} (holds : Holds { ctx with buf := buf } (first ++ newline :: rest))
      (head : (first ++ newline :: rest).head? = some hash ↔ data.head? = some hash)
      (mode : data.head? = some hash → modeAfter .outside data = modeAfter .outside rest) :
      Found ctx data (some (ctx.base + first.length), { ctx with buf := buf }, e)
  | unended {buf data' : Bytes} {e : ℕ} (holds : Holds { ctx with buf := buf } data')
      (clean : newline ∉ data') (head : data'.head? = some hash ↔ data.head? = some hash)
      (mode : data.head? = some hash → modeAfter .outside data' = modeAfter .outside data) :
      Found ctx data (none, { ctx with buf := buf }, e)

theorem Found.before {ctx : LineParserCtx} {buf data data' : Bytes} {q : Option ℕ × LineParserCtx × ℕ}
    (found : Found { ctx with buf := buf } data' q)
    (head : data'.head? = some hash ↔ data.head? = some hash)
    (mode : data.head? = some hash → modeAfter .outside data' = modeAfter .outside data) :
    Found ctx data q := by
  cases found with
  | ended holds head' mode' =>
    exact .ended holds (head'.trans head) fun starts => (mode starts).symm.trans (mode' (head.mpr starts))
  | unended holds clean head' mode' =>
    exact .unended holds clean (head'.trans head) fun starts => (mode' (head.mpr starts)).trans (mode starts)

theorem join_head {first rest : Bytes} {i : ℕ} (lt : i < first.length) (joined : first[i]? = some backslash) :
    (first.set i space ++ space :: rest).head? = some hash ↔
      (first ++ newline :: rest).head? = some hash := by
  cases first with
  | nil => simp at lt
  | cons c first =>
    cases i with
    | zero =>
      obtain rfl : c = backslash := by simpa using joined
      simp [space, backslash, hash]
    | succ i => simp

theorem set_spaces {first : Bytes} {i : ℕ} (lt : i < first.length) (rest : Bytes) :
    ((first ++ newline :: rest).set i space).set first.length space =
      first.set i space ++ space :: rest := by
  rw [List.set_append_left _ _ lt, List.set_append_right _ _ (List.length_set).le, List.length_set,
    Nat.sub_self, List.set_cons_zero]

theorem Holds.spaces {first rest : Bytes} (h : Holds ctx (first ++ newline :: rest)) {i : ℕ}
    (lt : i < first.length) :
    Holds { ctx with buf := (ctx.buf.set (ctx.base + i) space).set (ctx.base + first.length) space }
      (first.set i space ++ space :: rest) := by
  have len := h.length
  rw [List.length_append, List.length_cons] at len
  have once := @Holds.set ctx _ h i (by omega) space (by decide)
  have twice := once.set (show first.length < ctx.count by omega) (show space ≠ 0 by decide)
  rwa [set_spaces lt] at twice

/-- A comment is over behind its first newline, unless that is joined to the next line;
then the comment is as long with spaces in place of the two bytes. -/
theorem Holds.comment_mode {first rest : Bytes} (h : Holds ctx (first ++ newline :: rest))
    (fresh : newline ∉ first) (starts : (first ++ newline :: rest).head? = some hash) :
    (continuation ctx.buf ctx.base first.length = none →
      modeAfter .outside (first ++ newline :: rest) = modeAfter .outside rest) ∧
    ∀ i, continuation ctx.buf ctx.base first.length = some (ctx.base + i) →
      modeAfter .outside (first.set i space ++ space :: rest) =
        modeAfter .outside (first ++ newline :: rest) := by
  have size := h.size
  have fits := h.fits
  have len := h.length
  rw [List.length_append, List.length_cons] at len
  have front := h.front
  have begins : (slice ctx.buf ctx.base first.length).head? = some hash := by
    rw [front]
    cases first with
    | nil => simp [newline, hash] at starts
    | cons c first => exact starts
  have walk := continuation_comment ctx.buf ctx.base first.length (by omega) begins (front.symm ▸ fresh)
  rw [front] at walk
  refine ⟨fun none_ => ?_, fun i some_ => ?_⟩
  · obtain ⟨-, mode⟩ | ⟨i, k, -, some_, -⟩ := walk
    · rw [modeAfter_append, mode, modeAfter_cons, next_newline]
      rfl
    · simp [none_] at some_
  · obtain ⟨none_, -⟩ | ⟨i', k, -, same, before, after⟩ := walk
    · simp [some_] at none_
    · obtain rfl : i = i' := by
        rw [some_, Option.some.injEq] at same
        omega
      rw [modeAfter_append, modeAfter_append, before, after, modeAfter_cons, modeAfter_cons, next_newline]
      rfl

theorem findEnd_found (passes : ℕ) (h : Holds ctx data) (some_ : ctx.count ≠ 0) {examined : ℕ}
    (le : examined ≤ ctx.count) (clean : newline ∉ data.take examined)
    (enough : data.count newline < passes) : Found ctx data (findEnd passes ctx examined) := by
  induction passes generalizing ctx data examined with
  | zero => omega
  | succ passes ih =>
    by_cases mem : newline ∈ data
    · obtain ⟨first, rest, rfl, fresh⟩ := List.eq_append_cons_of_mem mem
      have len := h.length
      rw [List.length_append, List.length_cons] at len
      have within : examined ≤ first.length := by
        by_contra beyond
        refine clean (List.mem_of_getElem? (show _[first.length]? = some newline from ?_))
        rw [List.getElem?_take_of_lt (by omega), List.getElem?_append_right le_rfl, Nat.sub_self]
        rfl
      have comment := h.comment_mode fresh
      obtain ⟨stops, joins⟩ := findEnd_newline h within fresh passes
      cases cont : continuation ctx.buf ctx.base first.length with
      | none =>
        rw [stops cont]
        exact .ended h Iff.rfl fun starts => (comment starts).1 cont
      | some tmp =>
        obtain ⟨i, lt, rfl, joined⟩ := continuation_backslash cont
        have cell := h.cell (show i < ctx.count by omega)
        rw [joined, List.getElem?_append_left lt] at cell
        have blank := newline_not_mem_set fresh i
        have next := ih (h.spaces lt) some_ (show first.length ≤ ctx.count by omega)
          (by rwa [List.take_append_of_le_length (List.length_set).ge, List.take_of_length_le (List.length_set).le])
          (by
            rw [List.count_append, List.count_eq_zero_of_not_mem fresh, List.count_cons_self] at enough
            rw [List.count_append, List.count_eq_zero_of_not_mem blank, List.count_cons_of_ne (by decide)]
            omega)
        rw [joins _ cont]
        exact @Found.before ctx _ _ _ _ next (join_head lt cell) fun starts => (comment starts).2 i cont
    · rw [findEnd_none h some_ le (fun found => mem (List.mem_of_mem_drop found))]
      exact .unended h mem Iff.rfl fun _ => rfl

structure Look (ctx : LineParserCtx) (examined : ℕ) (data : Bytes) : Prop where
  holds : Holds ctx data
  within : examined ≤ ctx.count
  clean : newline ∉ data.take examined

inductive Looked (ctx : LineParserCtx) (rest : Bytes) (due : Prop) :
    Option Bytes × LineParserCtx × ℕ → Prop
  | line {text : Bytes} {ctx' : LineParserCtx} {e : ℕ} (yes : due) : Looked ctx rest due (some text, ctx', e)
  | pass {ctx' : LineParserCtx} {e : ℕ} {data' : Bytes} (look : Look ctx' e data')
      (same : due ↔ Due e data' rest) (eof : ctx'.eof = ctx.eof)
      (progress : ctx'.count < ctx.count ∨ ctx'.count = ctx.count ∧ e = ctx'.count) :
      Looked ctx rest due (none, ctx', e)

theorem Looked.after {ctx₁ : LineParserCtx} {rest : Bytes} {due due₁ : Prop}
    {q : Option Bytes × LineParserCtx × ℕ} (h : Looked ctx₁ rest due₁ q) (same : due ↔ due₁)
    (eof : ctx₁.eof = ctx.eof) (fewer : ctx₁.count ≤ ctx.count) : Looked ctx rest due q := by
  cases h with
  | line yes => exact .line (same.mpr yes)
  | pass look here eof₁ progress => exact .pass look (same.trans here) (eof₁.trans eof) (by omega)

theorem due_comment {examined : ℕ} {rest : Bytes} (starts : data.head? = some hash) :
    Due examined data rest ↔ modeAfter .outside (data ++ rest) = .line :=
  or_iff_right fun both => both.2 starts

theorem due_line {examined : ℕ} {rest : Bytes} (other : data.head? ≠ some hash)
    (solid : examined = 0 → ∃ c, data.head? = some c ∧ isspace c = false) : Due examined data rest := by
  by_cases start : examined = 0
  · obtain ⟨c, head, solid⟩ := solid start
    cases data with
    | nil => simp at head
    | cons d data =>
      obtain rfl : d = c := Option.some.inj head
      exact .inr (modeAfter_solid solid (fun same => other (congrArg some same)) _)
  · exact .inl ⟨start, other⟩

theorem findEnd_looked (rest : Bytes) {examined : ℕ} (look : Look ctx examined data)
    (some_ : ctx.count ≠ 0) (solid : examined = 0 → ∃ c, data.head? = some c ∧ isspace c = false) :
    Looked ctx rest (Due examined data rest)
      (match findEnd (ctx.count + 1) ctx examined with
        | (some end_, ctx, _) => ((takeLine ctx end_).1, (takeLine ctx end_).2, 0)
        | (none, ctx, _) => (none, ctx, ctx.count)) := by
  have len := look.holds.length
  have found := findEnd_found (ctx.count + 1) look.holds some_ look.within look.clean
    (Nat.lt_succ_of_le (len ▸ List.count_le_length))
  generalize findEnd (ctx.count + 1) ctx examined = q at found
  cases found with
  | @ended buf first after e holds head mode =>
    have size := holds.length
    rw [List.length_append, List.length_cons] at size
    have comment := holds.isComment some_
    simp only [takeLine, Nat.add_sub_cancel_left]
    by_cases starts : data.head? = some hash
    · rw [if_pos (comment.mpr (head.mpr starts))]
      have gone := @Holds.advance _ _ holds (first.length + 1) (by omega)
      have left : (first ++ newline :: after).drop (first.length + 1) = after := by
        rw [← List.drop_drop, List.drop_left]
        rfl
      rw [left] at gone
      refine .pass ⟨gone, Nat.zero_le _, by simp⟩ ?_ rfl (.inl (by simp only at size ⊢; omega))
      rw [due_comment starts, modeAfter_append, mode starts, ← modeAfter_append]
      simp [Due]
    · rw [if_neg fun c => starts (head.mp (comment.mp c))]
      exact .line (due_line starts solid)
  | @unended buf data' e holds clean head mode =>
    refine .pass ⟨holds, le_rfl, fun mem => clean (List.mem_of_mem_take mem)⟩ ?_ rfl (.inr ⟨rfl, rfl⟩)
    by_cases starts : data.head? = some hash
    · rw [due_comment starts, due_comment (head.mpr starts), modeAfter_append, modeAfter_append, mode starts]
    · exact iff_of_true (due_line starts solid) (.inl ⟨some_, fun now => starts (head.mp now)⟩)

theorem scan_looked (rest : Bytes) {examined : ℕ} (look : Look ctx examined data)
    (fresh : examined < ctx.count) : Looked ctx rest (Due examined data rest) (scan ctx examined) := by
  unfold scan
  by_cases start : examined = 0
  · subst start
    obtain ⟨n, le, trimmed, result⟩ := skipWhitespace_holds (ctx.count + 2) look.holds (by omega)
    have skipped := look.holds.advance le
    rw [trimmed] at skipped
    simp only [if_true, true_and, result]
    have same : Due 0 data rest ↔ Due 0 (trim data) rest := by
      simp [Due, modeAfter_append, modeAfter_trim]
    by_cases none_ : ctx.count - n = 0
    · rw [if_pos none_]
      exact .pass ⟨skipped, Nat.zero_le _, by simp⟩ same rfl (.inl (by simp only; omega))
    · rw [if_neg none_]
      have solid : ∃ c, (trim data).head? = some c ∧ isspace c = false := by
        have nonempty : trim data ≠ [] := fun nil => by
          have len := skipped.length
          rw [nil] at len
          exact none_ len.symm
        refine ⟨_, List.head?_eq_some_head nonempty, ?_⟩
        exact List.head_dropWhile_not isspace nonempty
      have looked := findEnd_looked rest ⟨skipped, Nat.zero_le _, by simp⟩ none_ fun _ => solid
      exact looked.after same rfl (Nat.sub_le _ _)
  · simp only [start, false_and, if_false]
    exact findEnd_looked rest look (by omega) fun zero => absurd zero start

/-- A line comes from a call if one is due and no read is short; if none is due,
none comes. -/
def Outcome (due regular : Prop) (line : NextLine) : Prop :=
  (¬ due → line = .eof) ∧ (due → regular → ∃ text, line = .line text)

theorem lastLine_outcome (held : slice ctx.buf ctx.base ctx.count = data)
    (len : data.length = ctx.count) (clean : newline ∉ data) (regular : Prop) :
    Outcome (Due ctx.count data []) regular (lastLine ctx).1 := by
  unfold lastLine
  cases data with
  | nil =>
    rw [if_neg fun both => both.1 len.symm]
    refine ⟨fun _ => rfl, fun due => ?_⟩
    obtain ⟨some_, -⟩ | line := due
    · exact absurd len.symm some_
    · cases line
  | cons c data =>
    have some_ : ctx.count ≠ 0 := by
      rw [← len]
      simp
    have comment : isComment ctx.buf ctx.base = true ↔ c = hash := by
      have head := getElem?_slice ctx.buf ctx.base ctx.count 0 (Nat.pos_of_ne_zero some_)
      rw [held, Nat.add_zero] at head
      rw [isComment, List.getD_eq_getElem?_getD, ← head]
      simp
    by_cases starts : c = hash
    · rw [if_neg fun both => both.2 (comment.mpr starts)]
      refine ⟨fun _ => rfl, fun due => ?_⟩
      subst starts
      obtain ⟨joins, mode⟩ := modeAfter_hash fun mem => clean (.tail _ mem)
      rw [due_comment rfl, List.append_nil, mode] at due
      cases due
    · rw [if_pos ⟨some_, fun now => starts (comment.mp now)⟩]
      refine ⟨fun none_ => absurd (.inl ⟨some_, ?_⟩) none_, fun _ _ => ⟨_, rfl⟩⟩
      simpa using starts

theorem read_quiet {fd : File} (quiet : Quiet fd) {tlen : ℕ} (pos : 0 < tlen) :
    ∃ n, 0 < n ∧ n ≤ tlen ∧ (fd.arrivals = [] → n = tlen) ∧
      read fd tlen = (some (fd.rest.take n), ⟨fd.rest.drop n, fd.arrivals.tail⟩) := by
  unfold read
  obtain ⟨rest, arrivals⟩ := fd
  cases arrivals with
  | nil => exact ⟨tlen, pos, le_rfl, fun _ => rfl, rfl⟩
  | cons a arrivals =>
    cases a with
    | fault => exact absurd rfl (quiet.sound .fault (.head _))
    | data more =>
      exact ⟨min (more + 1) tlen, by omega, Nat.min_le_right _ _, fun none_ => by simp at none_, rfl⟩

inductive Refills (data : Bytes) (ctx : LineParserCtx) (fd : File) :
    Refilled × LineParserCtx × File → Prop
  | more {ctx' : LineParserCtx} {fd' : File} {got : Bytes} (some_ : got ≠ [])
      (rest : fd.rest = got ++ fd'.rest) (holds : Holds ctx' (data ++ got)) (quiet : Quiet fd')
      (regular : fd.arrivals = [] → fd'.arrivals = [] ∧ left ctx' fd' = fd'.rest) :
      Refills data ctx fd (.more, ctx', fd')
  | ended {ctx' : LineParserCtx} {fd' : File} (none_ : fd.rest = [])
      (held : slice ctx'.buf ctx'.base ctx'.count = data) (count : ctx'.count = ctx.count) :
      Refills data ctx fd (.ended, ctx', fd')

theorem receive_more {fd fd' : File} (size : ctx.buf.length = ctx.total) (base : ctx.base = 0)
    (room : ctx.count + 1 < ctx.total) (held : slice ctx.buf 0 ctx.count = data) (live : 0 ∉ data)
    (going : ctx.eof = false) {got : Bytes} (some_ : got ≠ []) (more : 0 ∉ got)
    (fits : got.length ≤ ctx.total - ctx.count - 1)
    (result : read fd (ctx.total - ctx.count - 1) = (some got, fd')) :
    ∃ ctx', receive ctx fd = (.more, ctx', fd') ∧ Holds ctx' (data ++ got) ∧
      ctx'.eof = decide (got.length < ctx.total - ctx.count - 1) := by
  have pos := List.length_pos_of_ne_nil some_
  have inside : (overwrite ctx.buf ctx.count got).length = ctx.total := by
    rw [length_overwrite _ _ _ (by omega), size]
  unfold receive
  simp only [result, going, Bool.false_or]
  rw [if_neg (by omega)]
  refine ⟨_, rfl, ⟨?_, by simp only; omega, ?_, ?_, ?_, fun _ => ?_⟩, rfl⟩
  · rw [List.length_set, inside]
  · simp only [base]
    omega
  · have front := slice_overwrite_after ctx.buf got ctx.count (by omega)
    rw [held] at front
    rw [← front, base]
    exact slice_set_after _ 0 _ _ (Nat.zero_add _).le
  · rw [List.mem_append, not_or]
    exact ⟨live, more⟩
  · simp only [base, Nat.zero_add]
    exact List.getElem?_set_self (by omega)

theorem receive_refills {fd : File} (size : ctx.buf.length = ctx.total) (base : ctx.base = 0)
    (room : ctx.count + 1 < ctx.total) (held : slice ctx.buf 0 ctx.count = data) (live : 0 ∉ data)
    (going : ctx.eof = false) (quiet : Quiet fd) : Refills data ctx fd (receive ctx fd) := by
  obtain ⟨n, pos, le, full, result⟩ := @read_quiet fd quiet (ctx.total - ctx.count - 1) (by omega)
  by_cases none_ : fd.rest = []
  · have nothing : (fd.rest.take n).length = 0 := by rw [none_, List.take_nil, List.length_nil]
    unfold receive
    simp only [result, going, Bool.false_or]
    rw [if_pos ⟨by omega, nothing⟩]
    exact .ended none_ (base ▸ held) rfl
  · have longer := List.length_pos_of_ne_nil none_
    have got : (fd.rest.take n).length = min n fd.rest.length := List.length_take
    have some_ : fd.rest.take n ≠ [] := fun nil => by
      rw [nil, List.length_nil] at got
      omega
    obtain ⟨ctx', received, holds, eof⟩ := receive_more size base room held live going some_
      (fun mem => quiet.live (List.mem_of_mem_take mem)) (by omega) result
    rw [received]
    refine .more some_ (List.take_append_drop n _).symm holds
      ⟨fun a mem => quiet.sound a (List.mem_of_mem_tail mem),
        fun mem => quiet.live (List.mem_of_mem_drop mem)⟩ fun regular => ⟨by rw [regular]; rfl, ?_⟩
    rw [left, eof]
    split
    · rename_i short
      have short := of_decide_eq_true short
      rw [full regular] at got short ⊢
      exact (List.drop_eq_nil_of_le (by omega)).symm
    · rfl

theorem makeRoom_holds (junk : ℕ → UInt8) (bufsiz : ℕ) (positive : 0 < bufsiz) (h : Holds ctx data) :
    Ensures Served (makeRoom junk bufsiz ctx) (fun q s => q.1 = true ∧ Served s ∧
      q.2.buf.length = q.2.total ∧ ctx.count + 1 < q.2.total ∧ q.2.count = ctx.count ∧
      q.2.eof = ctx.eof ∧ slice q.2.buf 0 ctx.count = data) := by
  have size := h.size
  have room := h.room
  have fits := h.fits
  have held := h.held
  have len := length_slice ctx.buf ctx.base ctx.count (by omega)
  refine ensures_ite (fun full => ?_) (fun some_ => ?_)
  · refine ensures_granted (allocate_served (by omega)) (ensures_pure fun s hs => ?_)
    have base : ctx.base = 0 := by omega
    refine ⟨rfl, hs, length_regrow _ _ (by omega), by simp only; omega, rfl, rfl, ?_⟩
    rw [slice_regrow _ _ _ _ _ (by omega), ← held, base]
  · have moved : (overwrite ctx.buf 0 (slice ctx.buf ctx.base ctx.count)).length = ctx.total := by
      rw [length_overwrite _ _ _ (by omega), size]
    have start := slice_overwrite_start ctx.buf (slice ctx.buf ctx.base ctx.count)
    rw [len, held] at start
    rw [held] at moved
    refine ensures_ite (fun _ => ensures_pure fun s hs => ?_) fun _ =>
      ensures_ite (fun _ => ensures_pure fun s hs => ?_) fun none_ => ensures_pure fun s hs => ?_
    · exact ⟨rfl, hs, held ▸ moved, by simp only; omega, rfl, rfl, held ▸ start⟩
    · exact ⟨rfl, hs, held ▸ moved, by simp only; omega, rfl, rfl, held ▸ start⟩
    · have none_ : ctx.count = 0 := not_not.mp none_
      refine ⟨rfl, hs, size, by simp only; omega, rfl, rfl, ?_⟩
      rw [← held, none_, slice_zero, slice_zero]

theorem refill_refills (junk : ℕ → UInt8) (bufsiz : ℕ) (positive : 0 < bufsiz) {fd : File}
    (h : Holds ctx data) (going : ctx.eof = false) (quiet : Quiet fd) :
    Ensures Served (refill junk bufsiz ctx fd) (fun q s => Served s ∧ Refills data ctx fd q) := by
  refine ensures_bind (makeRoom_holds junk bufsiz positive h) fun ⟨ok, ctx'⟩ =>
    ensures_pure fun s hs => ?_
  obtain ⟨rfl, hs, size, fits, count, eof, held⟩ := hs
  simp only at size fits count eof held
  have refills := @receive_refills { ctx' with base := 0 } data fd size rfl (count ▸ fits)
    (count ▸ held) h.live (eof.trans going) quiet
  refine ⟨hs, ?_⟩
  simp only [if_true]
  generalize receive { ctx' with base := 0 } fd = q at refills
  cases refills with
  | more some_ rest holds quiet regular => exact .more some_ rest holds quiet regular
  | ended none_ held same => exact .ended none_ held (same.trans count)

theorem due_left {examined : ℕ} {fd : File} (due : Due examined data (left ctx fd)) :
    Due examined data fd.rest := by
  unfold left at due
  split at due
  · obtain early | begun := due
    · exact .inl early
    · rw [List.append_nil] at begun
      exact .inr (by rw [modeAfter_append, begun, modeAfter_line])
  · exact due

def Concludes (junk : ℕ → UInt8) (bufsiz passes : ℕ) : Prop :=
  ∀ ctx fd data examined, Look ctx examined data → Quiet fd → work ctx fd examined < passes →
    Ensures Served (nextLoop junk bufsiz passes ctx fd examined) (fun q s => Served s ∧
      Outcome (Due examined data (left ctx fd)) (fd.arrivals = []) q.1)

theorem scan_concludes {junk : ℕ → UInt8} {bufsiz passes : ℕ} (later : Concludes junk bufsiz passes)
    {fd : File} {examined : ℕ} (look : Look ctx examined data) (fresh : examined < ctx.count)
    (quiet : Quiet fd) (enough : 4 * fd.rest.length + 2 * ctx.count < passes) :
    Ensures Served (match scan ctx examined with
      | (some line, ctx, _) => pure (.line line, ctx, fd)
      | (none, ctx, examined) => nextLoop junk bufsiz passes ctx fd examined) (fun q s => Served s ∧
        Outcome (Due examined data (left ctx fd)) (fd.arrivals = []) q.1) := by
  have looked := scan_looked (left ctx fd) look fresh
  generalize scan ctx examined = q at looked
  cases looked with
  | line yes => exact ensures_pure fun s hs => ⟨hs, fun none_ => absurd yes none_, fun _ _ => ⟨_, rfl⟩⟩
  | @pass ctx' e data' look' same eof progress =>
    have fewer : work ctx' fd e < passes := by
      unfold work
      split_ifs <;> omega
    have same : Due examined data (left ctx fd) ↔ Due e data' (left ctx' fd) := by
      rw [same, left, left, eof]
    rw [same]
    exact later ctx' fd data' e look' quiet fewer

theorem nextLoop_concludes (junk : ℕ → UInt8) (bufsiz : ℕ) (positive : 0 < bufsiz) (passes : ℕ) :
    Concludes junk bufsiz passes := by
  induction passes with
  | zero => exact fun ctx fd data examined _ _ enough => absurd enough (Nat.not_lt_zero _)
  | succ passes ih =>
    intro ctx fd data examined look quiet enough
    have len := look.holds.length
    rw [nextLoop]
    rcases Nat.lt_or_eq_of_le look.within with fresh | rfl
    · have other : ctx.count ≠ examined := by omega
      rw [if_pos (.inl fresh), refillAt, if_neg other]
      refine scan_concludes ih look fresh quiet ?_
      rw [work, if_neg other.symm] at enough
      omega
    · rw [work, if_pos rfl] at enough
      have clean : newline ∉ data := by
        have clean := look.clean
        rwa [← len, List.take_length] at clean
      by_cases going : ctx.eof = false
      · rw [if_pos (.inr going), refillAt, if_pos rfl]
        refine ensures_bind (refill_refills junk bufsiz positive look.holds going quiet) fun q s hs => ?_
        obtain ⟨hs, refills⟩ := hs
        cases refills with
        | @more ctx' fd' got some_ rest holds quiet' regular =>
          have len' := holds.length
          have read := List.length_pos_of_ne_nil some_
          rw [List.length_append] at len'
          have fewer : fd.rest.length = got.length + fd'.rest.length := by rw [rest, List.length_append]
          have next : Look ctx' ctx.count (data ++ got) := by
            refine ⟨holds, by omega, ?_⟩
            rwa [← len, List.take_left]
          have same : Due ctx.count data (left ctx fd) ↔ Due ctx.count (data ++ got) fd'.rest := by
            rw [left, if_neg (by simp [going]), Due, Due, rest, List.append_assoc]
            cases data with
            | nil => simp [← len]
            | cons c data => rfl
          have outcome := scan_concludes ih next (by omega) quiet' (by omega) s hs
          refine ⟨outcome.1, fun none_ => outcome.2.1 (mt (fun due => ?_) none_), fun due w => ?_⟩
          · exact same.mpr (due_left due)
          · obtain ⟨regular', all⟩ := regular w
            rw [all] at outcome
            exact outcome.2.2 (same.mp due) regular'
        | @ended ctx' fd' none_ held count =>
          rw [← count] at len ⊢
          rw [left, none_, ite_self]
          exact ⟨hs, lastLine_outcome held len clean _⟩
      · rw [if_neg]
        · have ended : ctx.eof = true := by simpa using going
          rw [left, if_pos ended]
          exact ensures_pure fun s hs => ⟨hs, lastLine_outcome look.holds.held len clean _⟩
        · rintro (more | still)
          · exact lt_irrefl _ more
          · exact going still

theorem lineParserNext_outcome (junk : ℕ → UInt8) (bufsiz : ℕ) (positive : 0 < bufsiz) {fd : File}
    (h : Holds ctx data) (quiet : Quiet fd) : Ensures Served (lineParserNext junk bufsiz ctx fd)
      (fun q s => Served s ∧ Outcome (¬ Barren (data ++ left ctx fd)) (fd.arrivals = []) q.1) := by
  have bound := work_le ctx fd 0
  have look : Look ctx 0 data := ⟨h, Nat.zero_le _, by simp⟩
  have same : ¬ Barren (data ++ left ctx fd) ↔ Due 0 data (left ctx fd) := by simp [Due, Barren]
  rw [same]
  exact nextLoop_concludes junk bufsiz positive _ ctx fd data 0 look quiet (by omega)

theorem nextLines_barren (junk : ℕ → UInt8) (bufsiz : ℕ) (positive : 0 < bufsiz) {fd : File}
    (h : Holds ctx data) (quiet : Quiet fd) (barren : Barren (data ++ left ctx fd)) (calls : ℕ) :
    Ensures Served (nextLines junk bufsiz calls ctx fd) (fun lines _ => lines = []) := by
  cases calls with
  | zero => exact ensures_pure fun s hs => rfl
  | succ calls =>
    refine ensures_bind (lineParserNext_outcome junk bufsiz positive h quiet) fun ⟨line, ctx', fd'⟩ s hs => ?_
    obtain rfl : line = .eof := hs.2.1 (not_not.mpr barren)
    rfl

theorem nextLines_due (junk : ℕ → UInt8) (bufsiz : ℕ) (positive : 0 < bufsiz) {fd : File}
    (h : Holds ctx data) (quiet : Quiet fd) (regular : fd.arrivals = [])
    (due : ¬ Barren (data ++ left ctx fd)) (calls : ℕ) :
    Ensures Served (nextLines junk bufsiz (calls + 1) ctx fd) (fun lines _ => lines ≠ []) := by
  refine ensures_bind (lineParserNext_outcome junk bufsiz positive h quiet) fun ⟨line, ctx', fd'⟩ s hs => ?_
  obtain ⟨text, rfl⟩ : ∃ text, line = .line text := hs.2.2 due regular
  exact List.cons_ne_nil _ _

end holds

end Libdank.LineParser
