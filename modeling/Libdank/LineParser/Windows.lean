import Libdank.LineParser.Segments

/-! The parser on regular files without backslashes. Its buffer is a window onto
the text, in which the newlines of the lines handed out have become NULs; all
goes well until the file ends with the window full, when the open line is moved
to the start of the buffer and no NUL put behind it. -/
namespace Libdank.LineParser
open Buffers Requests

structure Plain (text : Bytes) : Prop where
  nul : 0 ∉ text
  straight : backslash ∉ text

theorem Plain.drop {text : Bytes} (h : Plain text) (n : ℕ) : Plain (text.drop n) :=
  ⟨fun mem => h.nul (List.mem_of_mem_drop mem), fun mem => h.straight (List.mem_of_mem_drop mem)⟩

/-- The buffer holds the start of `text`, worked off as far as `base`. -/
structure Window (ctx : LineParserCtx) (fd : File) (text : Bytes) : Prop where
  size : ctx.buf.length = ctx.total
  room : 2 ≤ ctx.total
  filled : ctx.base + ctx.count = min text.length (ctx.total - 1)
  rest : fd = ⟨text.drop (ctx.base + ctx.count), []⟩
  ends : ctx.eof = decide (text.length < ctx.total - 1)
  nul : ctx.buf[ctx.base + ctx.count]? = some 0
  done : ∀ i < ctx.base, ctx.buf[i]? = if EndsKept text i then some 0 else text[i]?
  ahead : ∀ i, ctx.base ≤ i → i < ctx.base + ctx.count → ctx.buf[i]? = text[i]?
  shut : openLine (text.take ctx.base) = []
  plain : Plain text

def Solid (text : Bytes) (base : ℕ) : Prop := ∃ c, text[base]? = some c ∧ isspace c = false

/-- The data not yet worked off, as far as `examined`, has no newline, and once
some of it has been examined it starts with more than whitespace. -/
structure Seen (ctx : LineParserCtx) (text : Bytes) (examined : ℕ) : Prop where
  within : examined ≤ ctx.count
  clean : newline ∉ slice text ctx.base examined
  solid : examined ≠ 0 → Solid text ctx.base

theorem seen_zero (ctx : LineParserCtx) (text : Bytes) : Seen ctx text 0 :=
  ⟨Nat.zero_le _, by simp, fun h => absurd rfl h⟩

section window
variable {ctx : LineParserCtx} {fd : File} {text : Bytes}

theorem Window.inside (h : Window ctx fd text) : ctx.base + ctx.count ≤ text.length := by
  have := h.filled
  omega

theorem Window.slice_eq (h : Window ctx fd text) {n : ℕ} (le : n ≤ ctx.count) :
    slice ctx.buf ctx.base n = slice text ctx.base n := by
  refine List.ext_getElem? fun i => ?_
  rcases lt_or_ge i n with lt | ge
  · rw [getElem?_slice _ _ _ _ lt, getElem?_slice _ _ _ _ lt,
      h.ahead _ (by omega) (by omega)]
  · have inside := h.inside
    have filled := h.filled
    have size := h.size
    rw [List.getElem?_eq_none, List.getElem?_eq_none]
    · rw [length_slice] <;> omega
    · rw [length_slice] <;> omega

theorem Window.getD (h : Window ctx fd text) {i : ℕ} (lt : i < ctx.count) :
    text[ctx.base + i]? = some (ctx.buf.getD (ctx.base + i) 0) := by
  have inside := h.inside
  rw [List.getD_eq_getElem?_getD, h.ahead _ (by omega) (by omega),
    List.getElem?_eq_getElem (by omega), Option.getD_some]

theorem Plain.ne_nul (h : Plain text) {i : ℕ} {c : UInt8} (here : text[i]? = some c) : c ≠ 0 := by
  rintro rfl
  exact h.nul (List.mem_of_getElem? here)

theorem Plain.ne_backslash (h : Plain text) {i : ℕ} {c : UInt8} (here : text[i]? = some c) :
    c ≠ backslash := by
  rintro rfl
  exact h.straight (List.mem_of_getElem? here)

theorem cstring_eq {buf : Bytes} {at_ n : ℕ} (live : 0 ∉ slice buf at_ n)
    (stop : buf[at_ + n]? = some 0) : cstring buf at_ = slice buf at_ n := by
  obtain ⟨inside, zero⟩ := List.getElem?_eq_some_iff.mp stop
  have split : buf.drop at_ = slice buf at_ n ++ buf.drop (at_ + n) := by
    rw [slice, ← List.drop_drop, List.take_append_drop]
  have all : ∀ c ∈ slice buf at_ n, decide (c ≠ 0) = true := fun c mem =>
    decide_eq_true fun same => live (same ▸ mem)
  rw [cstring, split, List.takeWhile_append_of_pos all, List.drop_eq_getElem_cons inside, zero]
  simp

theorem nul_not_mem_slice (h : Plain text) (base n : ℕ) : 0 ∉ slice text base n :=
  fun mem => h.nul (List.mem_of_mem_drop (List.mem_of_mem_take mem))

theorem Window.cstring (h : Window ctx fd text) {examined : ℕ} (le : examined ≤ ctx.count) :
    cstring ctx.buf (ctx.base + examined) =
      slice text (ctx.base + examined) (ctx.count - examined) := by
  have tail : slice ctx.buf (ctx.base + examined) (ctx.count - examined) =
      slice text (ctx.base + examined) (ctx.count - examined) := by
    rw [← slice_drop, ← slice_drop, h.slice_eq le_rfl]
  rw [cstring_eq, tail]
  · rw [tail]
    exact nul_not_mem_slice h.plain _ _
  · rw [show ctx.base + examined + (ctx.count - examined) = ctx.base + ctx.count by omega]
    exact h.nul

theorem continuation_none {buf : Bytes} {base : ℕ} (len : ℕ)
    (h : ∀ i < len, buf.getD (base + i) 0 ≠ backslash) : continuation buf base len = none := by
  induction len with
  | zero => rfl
  | succ len ih =>
    rw [continuation]
    simp only [if_neg (h len (Nat.lt_succ_self _)), ih fun i lt => h i (by omega), ite_self]

theorem Window.skip (h : Window ctx fd text) (some_ : ctx.count ≠ 0)
    (blank : isspace (ctx.buf.getD ctx.base 0) = true) :
    Window { ctx with count := ctx.count - 1, base := ctx.base + 1 } fd text ∧
      keptLines (text.drop (ctx.base + 1)) = keptLines (text.drop ctx.base) := by
  have here := h.getD (Nat.pos_of_ne_zero some_)
  rw [Nat.add_zero] at here
  obtain ⟨inside, same⟩ := List.getElem?_eq_some_iff.mp here
  have next : ctx.base + 1 + (ctx.count - 1) = ctx.base + ctx.count := by omega
  refine ⟨⟨h.size, h.room, next ▸ h.filled, next ▸ h.rest, h.ends, ?_, ?_, ?_, ?_, h.plain⟩, ?_⟩
  · simpa only [next] using h.nul
  · intro i lt
    rcases Nat.lt_succ_iff_lt_or_eq.mp lt with old | rfl
    · exact h.done i old
    · have shut : ¬ EndsKept text ctx.base := fun ends => by
        rw [EndsKept, h.shut] at ends
        exact not_kept_nil ends.2
      rw [if_neg shut]
      exact h.ahead _ le_rfl (by omega)
  · intro i ge lt
    exact h.ahead i (by simp only at ge; omega) (by simp only [next] at lt; exact lt)
  · simp only
    rw [List.take_succ_eq_append_getElem inside, same]
    exact openLine_append_space (by simpa using blank) h.shut
  · rw [List.drop_eq_getElem_cons inside, same, keptLines_cons_space blank]

theorem skipWhitespace_spec (passes : ℕ) (h : Window ctx fd text) (enough : ctx.count < passes) :
    let ctx' := skipWhitespace passes none ctx
    Window ctx' fd text ∧ keptLines (text.drop ctx'.base) = keptLines (text.drop ctx.base) ∧
      ctx'.total = ctx.total ∧ ctx'.base + ctx'.count = ctx.base + ctx.count ∧
      ctx.base ≤ ctx'.base ∧
      (ctx'.count ≠ 0 → isspace (ctx'.buf.getD ctx'.base 0) = false) := by
  induction passes generalizing ctx with
  | zero => omega
  | succ passes ih =>
    rw [skipWhitespace]
    by_cases none : ctx.count = 0
    · rw [if_pos none]
      exact ⟨h, rfl, rfl, rfl, le_rfl, fun some_ => absurd none some_⟩
    · rw [if_neg none]
      have here := h.getD (Nat.pos_of_ne_zero none)
      have plain := h.plain.ne_backslash here
      rw [Nat.add_zero] at plain
      dsimp only
      by_cases blank : isspace (ctx.buf.getD ctx.base 0) = true
      · rw [if_pos blank]
        obtain ⟨next, same⟩ := h.skip none blank
        obtain ⟨window, lines, total, whole, further, solid⟩ := ih next (by simp only; omega)
        simp only at further
        refine ⟨window, lines.trans same, total, whole.trans ?_, by omega, solid⟩
        simp only
        omega
      · rw [if_neg blank, if_neg plain]
        exact ⟨h, rfl, rfl, rfl, le_rfl, fun _ => by simpa using blank⟩

theorem findEnd_plain (h : Window ctx fd text) (passes : ℕ) {examined : ℕ}
    (le : examined ≤ ctx.count) :
    findEnd (passes + 1) ctx examined =
      (strchr ctx.buf (ctx.base + examined) newline, ctx, examined) := by
  rw [findEnd, strchr, h.cstring le]
  cases look : (slice text (ctx.base + examined) (ctx.count - examined)).findIdx? (· == newline) with
  | none => rfl
  | some off =>
    obtain ⟨inside, -, -⟩ := List.findIdx?_eq_some_iff_getElem.mp look
    have whole := h.inside
    rw [length_slice _ _ _ (by omega)] at inside
    have straight : continuation ctx.buf ctx.base (ctx.base + examined + off - ctx.base) = none :=
      continuation_none _ fun i lt => h.plain.ne_backslash (h.getD (by omega))
    simp only [Option.map_some, straight]

theorem take_base_add (text : Bytes) (base d : ℕ) :
    text.take (base + d) = text.take base ++ slice text base d := List.take_add

theorem trim_slice {base : ℕ} (solid : Solid text base) (d : ℕ) :
    trim (slice text base d) = slice text base d := by
  obtain ⟨c, here, solid⟩ := solid
  obtain ⟨inside, rfl⟩ := List.getElem?_eq_some_iff.mp here
  cases d with
  | zero => simp [trim]
  | succ d => rw [slice, List.drop_eq_getElem_cons inside, List.take_succ_cons, trim_of_head _ solid]

theorem Window.endsKept_iff (h : Window ctx fd text) (solid : Solid text ctx.base) {d : ℕ}
    (clean : newline ∉ slice text ctx.base d) (feed : text[ctx.base + d]? = some newline) :
    EndsKept text (ctx.base + d) ↔ Kept (slice text ctx.base d) := by
  rw [EndsKept, take_base_add, openLine_append clean h.shut, trim_slice solid]
  exact ⟨And.right, fun kept => ⟨feed, kept⟩⟩

theorem Window.advance (h : Window ctx fd text) (solid : Solid text ctx.base) {d : ℕ}
    (lt : d < ctx.count) (clean : newline ∉ slice text ctx.base d)
    (feed : text[ctx.base + d]? = some newline) {buf : Bytes} (size : buf.length = ctx.buf.length)
    (others : ∀ i, i ≠ ctx.base + d → buf[i]? = ctx.buf[i]?)
    (mark : buf[ctx.base + d]? = some (if Kept (slice text ctx.base d) then 0 else newline)) :
    Window { ctx with buf := buf, count := ctx.count - (d + 1), base := ctx.base + (d + 1) } fd text ∧
      keptLines (text.drop ctx.base) =
        (if Kept (slice text ctx.base d) then [slice text ctx.base d] else []) ++
          keptLines (text.drop (ctx.base + (d + 1))) := by
  have next : ctx.base + (d + 1) + (ctx.count - (d + 1)) = ctx.base + ctx.count := by omega
  refine ⟨⟨size.trans h.size, h.room, next ▸ h.filled, next ▸ h.rest, h.ends, ?_, ?_, ?_, ?_,
    h.plain⟩, ?_⟩
  · simp only [next]
    rw [others _ (by omega)]
    exact h.nul
  · intro i less
    simp only at less ⊢
    rcases lt_trichotomy i (ctx.base + d) with near | rfl | far
    · rw [others i (by omega)]
      rcases lt_or_ge i ctx.base with old | new
      · exact h.done i old
      · have plain : ¬ EndsKept text i := fun ends =>
          clean (mem_slice new near ends.1)
        rw [if_neg plain]
        exact h.ahead i new (by omega)
    · have ends := h.endsKept_iff solid clean feed
      rw [mark, feed]
      by_cases kept : Kept (slice text ctx.base d)
      · rw [if_pos kept, if_pos (ends.mpr kept)]
      · rw [if_neg kept, if_neg fun e => kept (ends.mp e)]
    · omega
  · intro i ge less
    simp only [next] at ge less ⊢
    rw [others i (by omega)]
    exact h.ahead i (by omega) less
  · have inside := (List.getElem?_eq_some_iff.mp feed).1
    have same := (List.getElem?_eq_some_iff.mp feed).2
    simp only
    rw [← Nat.add_assoc, List.take_succ_eq_append_getElem inside, same, openLine_concat_newline]
  · have inside := (List.getElem?_eq_some_iff.mp feed).1
    have same := (List.getElem?_eq_some_iff.mp feed).2
    have split : text.drop ctx.base =
        slice text ctx.base d ++ newline :: text.drop (ctx.base + (d + 1)) := by
      have := List.take_append_drop d (text.drop ctx.base)
      rw [← this, List.drop_drop, List.drop_eq_getElem_cons inside, same]
      rfl
    rw [split, keptLines_line clean, trim_slice solid]

theorem isComment_iff {buf data : Bytes} {base d : ℕ} (held : slice buf base d = data)
    (some_ : data ≠ []) : isComment buf base = true ↔ ¬ Kept data := by
  subst held
  have pos : 0 < d := by
    rcases Nat.eq_zero_or_pos d with rfl | pos
    · exact absurd (slice_zero buf base) some_
    · exact pos
  have head : (slice buf base d).head? = buf[base]? := by
    rw [List.head?_eq_getElem?, getElem?_slice _ _ _ _ pos, Nat.add_zero]
  obtain ⟨c, first⟩ : ∃ c, (slice buf base d).head? = some c := by
    obtain ⟨c, rest, split⟩ := List.exists_cons_of_ne_nil some_
    exact ⟨c, by rw [split, List.head?_cons]⟩
  rw [isComment, List.getD_eq_getElem?_getD, ← head, Kept, first]
  simp [some_]

/-- How a pass over fresh data ends: with a line handed out, or with more to
look at in the next pass. -/
inductive Scanned (ctx : LineParserCtx) (fd : File) (text : Bytes) :
    Option Bytes × LineParserCtx × ℕ → Prop
  | line {line ctx' e} (window : Window ctx' fd text)
      (lines : keptLines (text.drop ctx.base) = line :: keptLines (text.drop ctx'.base))
      (total : ctx'.total = ctx.total) (further : ctx.base < ctx'.base) :
      Scanned ctx fd text (some line, ctx', e)
  | pass {ctx' e} (window : Window ctx' fd text)
      (lines : keptLines (text.drop ctx.base) = keptLines (text.drop ctx'.base))
      (total : ctx'.total = ctx.total) (further : ctx.base ≤ ctx'.base)
      (seen : Seen ctx' text e)
      (progress : ctx'.count < ctx.count ∨ ctx'.count = ctx.count ∧ e = ctx'.count) :
      Scanned ctx fd text (none, ctx', e)

theorem takeLine_scanned (h : Window ctx fd text) (solid : Solid text ctx.base) {d : ℕ} (pos : 0 < d)
    (lt : d < ctx.count) (clean : newline ∉ slice text ctx.base d)
    (feed : text[ctx.base + d]? = some newline) :
    Scanned ctx fd text ((takeLine ctx (ctx.base + d)).1, (takeLine ctx (ctx.base + d)).2, 0) := by
  have len : ctx.base + d - ctx.base + 1 = d + 1 := by omega
  have cell : ctx.buf[ctx.base + d]? = some newline := by
    rw [h.ahead _ (by omega) (by omega), feed]
  have inside := (List.getElem?_eq_some_iff.mp cell).1
  have whole := h.inside
  have data : slice text ctx.base d ≠ [] := fun nil => by
    have := length_slice text ctx.base d (by omega)
    rw [nil, List.length_nil] at this
    omega
  have comment := isComment_iff (h.slice_eq lt.le) data
  unfold takeLine
  simp only [len]
  by_cases kept : Kept (slice text ctx.base d)
  · rw [if_neg fun c => comment.mp c kept]
    have size : (ctx.buf.set (ctx.base + d) 0).length = ctx.buf.length := List.length_set
    obtain ⟨window, lines⟩ := h.advance solid lt clean feed size
      (fun i other => List.getElem?_set_ne (Ne.symm other))
      (by rw [if_pos kept, List.getElem?_set_self inside])
    have text_ : cstring (ctx.buf.set (ctx.base + d) 0) ctx.base = slice text ctx.base d := by
      have same : slice (ctx.buf.set (ctx.base + d) 0) ctx.base d = slice text ctx.base d := by
        rw [← h.slice_eq lt.le]
        refine List.ext_getElem? fun i => ?_
        rcases lt_or_ge i d with near | far
        · rw [getElem?_slice _ _ _ _ near, getElem?_slice _ _ _ _ near,
            List.getElem?_set_ne (by omega)]
        · rw [List.getElem?_eq_none, List.getElem?_eq_none]
          · exact (List.length_take_le _ _).trans far
          · exact (List.length_take_le _ _).trans far
      rw [cstring_eq, same]
      · rw [same]
        exact nul_not_mem_slice h.plain _ _
      · exact List.getElem?_set_self inside
    rw [text_]
    rw [if_pos kept] at lines
    exact .line window lines rfl (by simp only; omega)
  · rw [if_pos (comment.mpr kept)]
    have size : ctx.buf.length = ctx.buf.length := rfl
    obtain ⟨window, lines⟩ := h.advance solid lt clean feed size (fun i _ => rfl)
      (by rw [if_neg kept, cell])
    rw [if_neg kept] at lines
    exact .pass window lines rfl (by simp only; omega) (seen_zero _ _)
      (.inl (by simp only; omega))

theorem Scanned.after {ctx₁ : LineParserCtx} {q : Option Bytes × LineParserCtx × ℕ}
    (h : Scanned ctx₁ fd text q)
    (lines : keptLines (text.drop ctx.base) = keptLines (text.drop ctx₁.base))
    (total : ctx₁.total = ctx.total) (further : ctx.base ≤ ctx₁.base)
    (fewer : ctx₁.count ≤ ctx.count) : Scanned ctx fd text q := by
  cases h with
  | line window rest same ahead =>
    exact .line window (lines.trans rest) (same.trans total) (by omega)
  | pass window rest same ahead seen progress =>
    exact .pass window (lines.trans rest) (same.trans total) (by omega) seen (by omega)

theorem slice_append (buf : Bytes) (base m n : ℕ) :
    slice buf base (m + n) = slice buf base m ++ slice buf (base + m) n := by
  rw [slice, slice, slice, List.take_add, List.drop_drop]

theorem findEnd_scanned (h : Window ctx fd text) (solid : Solid text ctx.base) {examined : ℕ}
    (seen : Seen ctx text examined) (some_ : examined < ctx.count) :
    Scanned ctx fd text (match findEnd (ctx.count + 1) ctx examined with
      | (some end_, ctx, _) => ((takeLine ctx end_).1, (takeLine ctx end_).2, 0)
      | (none, ctx, _) => (none, ctx, ctx.count)) := by
  have whole := h.inside
  rw [findEnd_plain h _ seen.within, strchr, h.cstring seen.within]
  cases look : (slice text (ctx.base + examined) (ctx.count - examined)).findIdx? (· == newline) with
  | none =>
    have clean : newline ∉ slice text ctx.base ctx.count := by
      rw [show ctx.count = examined + (ctx.count - examined) by omega, slice_append,
        List.mem_append, not_or]
      exact ⟨seen.clean, fun mem => by simpa using List.findIdx?_eq_none_iff.mp look newline mem⟩
    exact .pass h rfl rfl le_rfl ⟨le_rfl, clean, fun _ => solid⟩ (.inr ⟨rfl, rfl⟩)
  | some off =>
    obtain ⟨bound, hit, earlier⟩ := List.findIdx?_eq_some_iff_getElem.mp look
    have inside : off < ctx.count - examined := by
      rwa [length_slice _ _ _ (by omega)] at bound
    have feed : text[ctx.base + (examined + off)]? = some newline := by
      rw [← Nat.add_assoc, ← getElem?_slice _ _ _ _ inside, List.getElem?_eq_getElem bound,
        beq_iff_eq.mp hit]
    have clean : newline ∉ slice text ctx.base (examined + off) := by
      rw [slice_append, List.mem_append, not_or]
      refine ⟨seen.clean, fun mem => ?_⟩
      obtain ⟨i, here⟩ := List.mem_iff_getElem?.mp mem
      have near : i < off := by
        have := (List.getElem?_eq_some_iff.mp here).1
        rwa [length_slice _ _ _ (by omega)] at this
      have miss := earlier i near
      rw [getElem?_slice _ _ _ _ near, ← getElem?_slice text _ (ctx.count - examined) i (by omega)]
        at here
      simp [(List.getElem?_eq_some_iff.mp here).2] at miss
    have pos : 0 < examined + off := by
      by_contra zero
      obtain ⟨c, here, more⟩ := solid
      rw [show examined + off = 0 by omega, Nat.add_zero, here] at feed
      rw [Option.some.inj feed, isspace_newline] at more
      cases more
    have scanned := takeLine_scanned h solid pos (by omega) clean feed
    simp only [Option.map_some, Nat.add_assoc]
    exact scanned

theorem scan_scanned (h : Window ctx fd text) {examined : ℕ} (seen : Seen ctx text examined)
    (some_ : examined < ctx.count) : Scanned ctx fd text (scan ctx examined) := by
  unfold scan
  by_cases start : examined = 0
  · subst start
    obtain ⟨window, lines, total, whole, further, solid⟩ :=
      skipWhitespace_spec (ctx.count + 2) h (by omega)
    simp only [if_true, true_and]
    generalize skipWhitespace (ctx.count + 2) none ctx = ctx₁ at *
    by_cases none : ctx₁.count = 0
    · rw [if_pos none]
      exact .pass window lines.symm total further (seen_zero _ _) (.inl (by omega))
    · rw [if_neg none]
      have cell := window.getD (Nat.pos_of_ne_zero none)
      have scanned := findEnd_scanned window ⟨_, cell, solid none⟩ (seen_zero _ _) (by omega)
      exact scanned.after lines.symm total further (by omega)
  · simp only [start, false_and, if_false]
    exact findEnd_scanned h (seen.solid start) seen some_

theorem receive_window {data : ℕ} (size : ctx.buf.length = ctx.total) (base : ctx.base = 0)
    (count : ctx.count = data) (room : data + 1 < ctx.total) (going : ctx.eof = false)
    (held : slice ctx.buf 0 data = slice text 0 data) (le : data < text.length) (plain : Plain text)
    (seen : newline ∉ slice text 0 data) (solid : data ≠ 0 → Solid text 0) :
    ∃ ctx' fd', receive ctx ⟨text.drop data, []⟩ = (.more, ctx', fd') ∧ Window ctx' fd' text ∧
      ctx'.base = 0 ∧ ctx'.total = ctx.total ∧ Seen ctx' text data ∧ data < ctx'.count := by
  subst count
  have got : ((text.drop ctx.count).take (ctx.total - ctx.count - 1)).length =
      min (text.length - ctx.count) (ctx.total - ctx.count - 1) := by
    rw [List.length_take, List.length_drop, Nat.min_comm]
  unfold receive read
  simp only [going, Bool.false_or]
  rw [if_neg (by omega)]
  refine ⟨_, _, rfl, ⟨?_, ?_, ?_, ?_, ?_, ?_, ?_, ?_, ?_, plain⟩, base, rfl, ⟨?_, ?_, ?_⟩, ?_⟩
  all_goals simp only [base, Nat.zero_add]
  · rw [List.length_set, length_overwrite _ _ _ (by omega), size]
  · omega
  · omega
  · rw [got, List.drop_drop]
    rcases le_total (text.length - ctx.count) (ctx.total - ctx.count - 1) with short | long
    · rw [List.drop_eq_nil_of_le (by omega), List.drop_eq_nil_of_le (by omega)]
    · rw [min_eq_right long]
  · rw [got]
    exact decide_eq_decide.mpr (by omega)
  · rw [List.getElem?_set_self]
    rw [length_overwrite _ _ _ (by omega)]
    omega
  · intro i lt
    omega
  · intro i _ lt
    rw [List.getElem?_set_ne (by omega)]
    have front := slice_overwrite_after ctx.buf ((text.drop ctx.count).take (ctx.total - ctx.count - 1))
      ctx.count (by omega)
    rw [held, show slice text 0 ctx.count = text.take ctx.count from rfl, ← List.take_add] at front
    have cell := getElem?_slice (overwrite ctx.buf ctx.count
      ((text.drop ctx.count).take (ctx.total - ctx.count - 1))) 0 _ i lt
    rw [front, Nat.zero_add] at cell
    rw [← cell, List.getElem?_take_of_lt (by omega)]
  · rfl
  · omega
  · exact seen
  · exact solid
  · omega

theorem Window.openLine_eq (h : Window ctx fd text) (seen : Seen ctx text ctx.count) :
    openLine (text.take (ctx.base + ctx.count)) = slice text ctx.base ctx.count := by
  rw [take_base_add, openLine_append seen.clean h.shut]
  rcases Nat.eq_zero_or_pos ctx.count with none | pos
  · simp [none, trim]
  · exact trim_slice (seen.solid (by omega)) _

variable (junk : ℕ → UInt8) (bufsiz : ℕ)

def nextTotal (ctx : LineParserCtx) : ℕ :=
  if ctx.count = ctx.total - 1 then ctx.total + bufsiz else ctx.total

structure Moved (ctx ctx' : LineParserCtx) (data : Bytes) : Prop where
  size : ctx'.buf.length = ctx'.total
  total : ctx'.total = nextTotal bufsiz ctx
  count : ctx'.count = ctx.count
  eof : ctx'.eof = ctx.eof
  room : ctx.count + 1 < ctx'.total
  held : slice ctx'.buf 0 ctx.count = data
  string : cstring ctx'.buf 0 =
    if ctx.count = ctx.total - 1 then data else data ++ cstring ctx.buf ctx.count

theorem cstring_overwrite {buf data : Bytes} (live : 0 ∉ data) (rest : Bytes)
    (split : buf = data ++ rest) : cstring buf 0 = data ++ cstring buf data.length := by
  subst split
  have all : ∀ c ∈ data, decide (c ≠ 0) = true := fun c mem =>
    decide_eq_true fun same => live (same ▸ mem)
  rw [cstring, List.drop_zero, List.takeWhile_append_of_pos all, cstring, List.drop_left]

theorem moved_down (h : Window ctx fd text) (room : ctx.count + 1 < ctx.total) {buf : Bytes}
    (down : buf = overwrite ctx.buf 0 (slice ctx.buf ctx.base ctx.count)) :
    Moved bufsiz ctx { ctx with buf := buf } (slice text ctx.base ctx.count) := by
  have short : ctx.count ≠ ctx.total - 1 := by omega
  have inside := h.filled
  have size := h.size
  have len := length_slice ctx.buf ctx.base ctx.count (by omega)
  have data := h.slice_eq le_rfl
  have split : overwrite ctx.buf 0 (slice ctx.buf ctx.base ctx.count) =
      slice text ctx.base ctx.count ++ ctx.buf.drop ctx.count := by
    rw [overwrite, len, data, List.take_zero, List.nil_append, Nat.zero_add]
  have len' : (slice text ctx.base ctx.count).length = ctx.count := data ▸ len
  have tail : cstring buf (slice text ctx.base ctx.count).length = cstring ctx.buf ctx.count := by
    rw [down, split, cstring, List.drop_left, cstring]
  subst down
  refine ⟨?_, ?_, rfl, rfl, room, ?_, ?_⟩
  · rw [length_overwrite _ _ _ (by omega), size]
  · rw [nextTotal, if_neg short]
  · have := slice_overwrite_start ctx.buf (slice ctx.buf ctx.base ctx.count)
    rw [len] at this
    exact this.trans data
  · rw [if_neg short, cstring_overwrite (nul_not_mem_slice h.plain _ _) _ split, tail]

theorem makeRoom_moved (h : Window ctx fd text) (positive : 0 < bufsiz) :
    Ensures Served (makeRoom junk bufsiz ctx) (fun q s => q.1 = true ∧ Served s ∧
      Moved bufsiz ctx q.2 (slice text ctx.base ctx.count)) := by
  have inside := h.filled
  have size := h.size
  have room := h.room
  refine ensures_ite (fun full => ?_) (fun some_ => ?_)
  · refine ensures_granted (allocate_served (by omega)) (ensures_pure fun s hs => ?_)
    have base : ctx.base = 0 := by omega
    have stop := h.nul
    have data := h.slice_eq le_rfl
    rw [base] at data stop
    refine ⟨rfl, hs, ⟨length_regrow _ _ (by omega), ?_, rfl, rfl, ?_, ?_, ?_⟩⟩
    · rw [nextTotal, if_pos full]
    · simp only
      omega
    · rw [slice_regrow _ _ _ _ _ (by omega), data, base]
    · have held : slice (regrow junk ctx.buf (ctx.total + bufsiz)) 0 ctx.count =
          slice text 0 ctx.count := by
        rw [slice_regrow _ _ _ _ _ (by omega), data]
      rw [if_pos full, base, cstring_eq, held]
      · rw [held]
        exact nul_not_mem_slice h.plain _ _
      · rw [regrow, List.getElem?_append_left (by omega)]
        exact stop
  · have down : ctx.count + 1 < ctx.total := by omega
    have moved := moved_down bufsiz h down rfl
    refine ensures_ite (fun _ => ensures_pure fun s hs => ⟨rfl, hs, moved⟩) fun _ =>
      ensures_ite (fun _ => ensures_pure fun s hs => ⟨rfl, hs, moved⟩) fun none =>
        ensures_pure fun s hs => ⟨rfl, hs, ?_⟩
    have none : ctx.count = 0 := not_not.mp none
    have still : ctx.buf = overwrite ctx.buf 0 (slice ctx.buf ctx.base ctx.count) := by
      simp [none, overwrite]
    exact moved_down bufsiz h down still

end window

end Libdank.LineParser
