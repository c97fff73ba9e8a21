import Libdank.LineParser.Windows

/-! Which lines a caller is given. Every pass of the loop scans fresh data of
the window or reads on; the last read, of nothing at all, is the one that can
spoil the open line. -/
namespace Libdank.LineParser
open Buffers Requests

section
variable {ctx : LineParserCtx} {fd : File} {text : Bytes} (junk : ℕ → UInt8) (bufsiz : ℕ)

theorem refill_more (h : Window ctx fd text) (seen : Seen ctx text ctx.count)
    (positive : 0 < bufsiz) (going : ctx.eof = false) (more : ctx.total - 1 < text.length) :
    Ensures Served (refill junk bufsiz ctx fd) (fun q s => Served s ∧ ∃ ctx' fd',
      q = (.more, ctx', fd') ∧ Window ctx' fd' (text.drop ctx.base) ∧ ctx'.base = 0 ∧
        ctx'.total = nextTotal bufsiz ctx ∧ Seen ctx' (text.drop ctx.base) ctx.count ∧
        ctx.count < ctx'.count) := by
  have filled := h.filled
  refine ensures_bind (makeRoom_moved junk bufsiz h positive) fun ⟨ok, ctx'⟩ =>
    ensures_pure fun s hs => ?_
  obtain ⟨rfl, hs, moved⟩ := hs
  have clean : newline ∉ slice (text.drop ctx.base) 0 ctx.count := seen.clean
  have solid : ctx.count ≠ 0 → Solid (text.drop ctx.base) 0 := fun some_ => by
    obtain ⟨c, here, solid⟩ := seen.solid some_
    exact ⟨c, by rwa [List.getElem?_drop, Nat.add_zero], solid⟩
  have from_ : fd = ⟨(text.drop ctx.base).drop ctx.count, []⟩ := by
    rw [List.drop_drop]
    exact h.rest
  have longer : ctx.count < (text.drop ctx.base).length := by
    rw [List.length_drop]
    omega
  have window := @receive_window { ctx' with base := 0 } (text.drop ctx.base) ctx.count moved.size rfl
    moved.count moved.room (moved.eof.trans going) moved.held longer (h.plain.drop _) clean solid
  obtain ⟨ctx'', fd', result, window, base, total, seen', ahead⟩ := window
  refine ⟨hs, ctx'', fd', ?_, window, base, total.trans moved.total, seen', ahead⟩
  rw [← result, ← from_]
  rfl

theorem refill_ended (h : Window ctx fd text) (positive : 0 < bufsiz) (going : ctx.eof = false)
    (all : text.length = ctx.base + ctx.count) :
    Ensures Served (refill junk bufsiz ctx fd) (fun q s => Served s ∧ ∃ ctx' fd',
      q = (.ended, ctx', fd') ∧ ctx'.eof = true ∧ ctx'.base = 0 ∧
        Moved bufsiz ctx { ctx' with eof := false } (slice text ctx.base ctx.count)) := by
  refine ensures_bind (makeRoom_moved junk bufsiz h positive) fun ⟨ok, ctx'⟩ =>
    ensures_pure fun s hs => ?_
  obtain ⟨rfl, hs, moved⟩ := hs
  have room : ctx.count + 1 < ctx'.total := moved.room
  have count : ctx'.count = ctx.count := moved.count
  have from_ : fd = ⟨[], []⟩ := by
    rw [h.rest, List.drop_eq_nil_of_le all.le]
  refine ⟨hs, { ctx' with base := 0, eof := true }, ⟨[], []⟩, ?_, rfl, rfl, ?_⟩
  · have nothing : (0 : ℕ) < ctx'.total - ctx'.count - 1 := by omega
    subst from_
    simp [receive, read, nothing]
  · exact ⟨moved.size, moved.total, moved.count, going.symm, moved.room, moved.held, moved.string⟩

/-- The window over the open line reaches the end of the text, or goes on with
the line at its start. -/
theorem stale_next (h : Window ctx fd text) (seen : Seen ctx text ctx.count)
    (more : ctx.total - 1 < text.length) :
    Stale bufsiz ctx.total text ↔ Stale bufsiz (nextTotal bufsiz ctx) (text.drop ctx.base) := by
  have filled := h.filled
  have whole : ctx.base + ctx.count = ctx.total - 1 := by omega
  have opened := h.openLine_eq seen
  have inside := h.inside
  have len : (openLine (text.take (ctx.total - 1))).length = ctx.count := by
    rw [← whole, opened, length_slice _ _ _ inside]
  have start : ctx.total - 1 - ctx.count = ctx.base := by omega
  constructor
  · rintro (⟨full, -⟩ | ⟨-, next⟩)
    · omega
    · rwa [len, start] at next
  · intro next
    refine .later more ?_
    rwa [len, start]

theorem stale_iff_overhang (full : text.length = ctx.total - 1) :
    Stale bufsiz ctx.total text ↔ Overhang text := by
  constructor
  · rintro (⟨-, overhang⟩ | ⟨more, -⟩)
    · exact overhang
    · omega
  · exact .here full

theorem not_stale_short (short : text.length < ctx.total - 1) : ¬ Stale bufsiz ctx.total text := by
  rintro (⟨full, -⟩ | ⟨more, -⟩) <;> omega

theorem slice_ne_nil {base n : ℕ} (some_ : n ≠ 0) (fits : base + n ≤ text.length) :
    slice text base n ≠ [] := fun nil => by
  have := length_slice text base n fits
  rw [nil, List.length_nil] at this
  omega

theorem keptLines_data (seen : Seen ctx text ctx.count)
    (all : text.length = ctx.base + ctx.count) :
    keptLines (text.drop ctx.base) =
      if Kept (slice text ctx.base ctx.count) then [slice text ctx.base ctx.count] else [] := by
  have data : text.drop ctx.base = slice text ctx.base ctx.count := by
    rw [slice, List.take_of_length_le (by rw [List.length_drop]; omega)]
  have trimmed : trim (slice text ctx.base ctx.count) = slice text ctx.base ctx.count := by
    rcases Nat.eq_zero_or_pos ctx.count with none | pos
    · simp [none, trim]
    · exact trim_slice (seen.solid (by omega)) _
  rw [data, keptLines_last seen.clean, trimmed]

theorem cstring_nil {buf : Bytes} {i : ℕ} (stop : buf[i]? = some 0) : cstring buf i = [] := by
  obtain ⟨inside, zero⟩ := List.getElem?_eq_some_iff.mp stop
  rw [cstring, List.drop_eq_getElem_cons inside, zero]
  rfl

theorem cstring_ne_nil {buf : Bytes} {i : ℕ} {c : UInt8} (here : buf[i]? = some c) (live : c ≠ 0) :
    cstring buf i ≠ [] := by
  obtain ⟨inside, same⟩ := List.getElem?_eq_some_iff.mp here
  rw [cstring, List.drop_eq_getElem_cons inside, same]
  simp [live]

def Finished (ctx : LineParserCtx) : Prop := ctx.count = 0 ∧ ctx.eof = true

/-- How a call ends when the lines `keep` are still to come from at most `n`
bytes, and the last of them will overhang its window if `stale`. -/
inductive Gives (keep : List Bytes) (stale : Prop) (n : ℕ) :
    NextLine × LineParserCtx × File → Prop
  | line {text : Bytes} {ctx' : LineParserCtx} {fd' : File} {rest : Bytes} (window : Window ctx' fd' rest)
      (lines : keep = text :: keptLines (rest.drop ctx'.base))
      (same : stale ↔ Stale bufsiz ctx'.total rest) (fewer : (rest.drop ctx'.base).length < n) :
      Gives keep stale n (.line text, ctx', fd')
  | last {text : Bytes} {ctx' : LineParserCtx} {fd' : File} (finished : Finished ctx')
      (lines : keep = [text]) (sound : ¬ stale) : Gives keep stale n (.line text, ctx', fd')
  | spoilt {text extra : Bytes} {ctx' : LineParserCtx} {fd' : File} (finished : Finished ctx')
      (lines : keep = [text]) (bad : stale) (longer : extra ≠ []) :
      Gives keep stale n (.line (text ++ extra), ctx', fd')
  | none {ctx' : LineParserCtx} {fd' : File} (lines : keep = []) (sound : ¬ stale) :
      Gives keep stale n (.eof, ctx', fd')

theorem Gives.congr {bufsiz : ℕ} {keep keep' : List Bytes} {stale stale' : Prop} {m n : ℕ}
    {q : NextLine × LineParserCtx × File} (h : Gives bufsiz keep stale m q) (lines : keep = keep')
    (same : stale ↔ stale') (le : m ≤ n) : Gives bufsiz keep' stale' n q := by
  subst lines
  cases h with
  | line window lines here fewer => exact .line window lines (same.symm.trans here) (by omega)
  | last finished lines sound => exact .last finished lines (mt same.mpr sound)
  | spoilt finished lines bad longer => exact .spoilt finished lines (same.mp bad) longer
  | none lines sound => exact .none lines (mt same.mpr sound)

theorem lastLine_short (h : Window ctx fd text) (seen : Seen ctx text ctx.count)
    (ended : ctx.eof = true) :
    Gives bufsiz (keptLines (text.drop ctx.base)) (Stale bufsiz ctx.total text)
      (text.drop ctx.base).length ((lastLine ctx).1, (lastLine ctx).2, fd) := by
  have short : text.length < ctx.total - 1 := by
    have := h.ends
    rw [ended] at this
    exact of_decide_eq_true this.symm
  have filled := h.filled
  have sound := not_stale_short bufsiz short
  have keep := keptLines_data seen (show text.length = ctx.base + ctx.count by omega)
  unfold lastLine
  by_cases none : ctx.count = 0
  · rw [if_neg fun both => both.1 none]
    refine .none (keep.trans (if_neg ?_)) sound
    simp [none, not_kept_nil]
  · have comment := isComment_iff (h.slice_eq le_rfl) (slice_ne_nil none h.inside)
    by_cases kept : Kept (slice text ctx.base ctx.count)
    · rw [if_pos ⟨none, fun c => comment.mp c kept⟩]
      have string := h.cstring (Nat.zero_le _)
      rw [Nat.add_zero, Nat.sub_zero] at string
      simp only [string]
      exact .last ⟨rfl, ended⟩ (keep.trans (if_pos kept)) sound
    · rw [if_neg fun both => both.2 (comment.mpr kept)]
      exact .none (keep.trans (if_neg kept)) sound

theorem lastLine_full (h : Window ctx fd text) (seen : Seen ctx text ctx.count)
    (full : text.length = ctx.total - 1) {ctx' : LineParserCtx} (ended : ctx'.eof = true)
    (base : ctx'.base = 0)
    (moved : Moved bufsiz ctx { ctx' with eof := false } (slice text ctx.base ctx.count))
    (fd' : File) :
    Gives bufsiz (keptLines (text.drop ctx.base)) (Stale bufsiz ctx.total text)
      (text.drop ctx.base).length ((lastLine ctx').1, (lastLine ctx').2, fd') := by
  have filled := h.filled
  have size := h.size
  have all : text.length = ctx.base + ctx.count := by omega
  have count : ctx'.count = ctx.count := moved.count
  have opened := h.openLine_eq seen
  rw [← all, List.take_length] at opened
  have len := length_slice text ctx.base ctx.count all.ge
  have keep := keptLines_data seen all
  rw [stale_iff_overhang bufsiz full, Overhang, opened, len]
  unfold lastLine
  by_cases none : ctx.count = 0
  · rw [if_neg fun both => both.1 (count.trans none)]
    have not_kept : ¬ Kept (slice text ctx.base ctx.count) := by simp [none, not_kept_nil]
    exact .none (keep.trans (if_neg not_kept)) fun overhang => not_kept overhang.1
  · have comment := isComment_iff moved.held (slice_ne_nil none h.inside)
    by_cases kept : Kept (slice text ctx.base ctx.count)
    · rw [base, if_pos ⟨count ▸ none, fun c => comment.mp c kept⟩]
      have keep := keep.trans (if_pos kept)
      have string : cstring ctx'.buf 0 = _ := moved.string
      rw [string]
      by_cases start : ctx.count = ctx.total - 1
      · rw [if_pos start]
        exact .last ⟨rfl, ended⟩ keep fun overhang => by omega
      · rw [if_neg start]
        by_cases ends : EndsKept text ctx.count
        · have worked : ctx.count < ctx.base := by
            by_contra within
            exact seen.clean (mem_slice (not_lt.mp within) (by omega) ends.1)
          have stop := h.done ctx.count worked
          rw [if_pos ends] at stop
          rw [cstring_nil stop, List.append_nil]
          exact .last ⟨rfl, ended⟩ keep fun overhang => overhang.2.2 ends
        · have before : ctx.count < ctx.base + ctx.count := by omega
          have cell : ctx.buf[ctx.count]? = text[ctx.count]? := by
            rcases lt_or_ge ctx.count ctx.base with worked | within
            · rw [h.done _ worked, if_neg ends]
            · exact h.ahead _ within before
          have stored := List.getElem?_eq_getElem (show ctx.count < text.length by omega)
          exact .spoilt ⟨rfl, ended⟩ keep ⟨kept, by omega, ends⟩
            (cstring_ne_nil (cell.trans stored) (h.plain.ne_nul stored))
    · rw [base, if_neg fun both => both.2 (comment.mpr kept)]
      exact .none (keep.trans (if_neg kept)) fun overhang => kept overhang.1

def work (ctx : LineParserCtx) (fd : File) (examined : ℕ) : ℕ :=
  4 * fd.rest.length + 2 * ctx.count + if examined = ctx.count then 0 else 1

theorem work_le (ctx : LineParserCtx) (fd : File) (examined : ℕ) :
    work ctx fd examined ≤ 4 * fd.rest.length + 2 * ctx.count + 1 := by
  unfold work
  split_ifs <;> omega

def Delivers (passes : ℕ) : Prop := ∀ ctx fd text examined, Window ctx fd text →
  Seen ctx text examined → work ctx fd examined < passes →
  Ensures Served (nextLoop junk bufsiz passes ctx fd examined) (fun q s => Served s ∧
    Gives bufsiz (keptLines (text.drop ctx.base)) (Stale bufsiz ctx.total text)
      (text.drop ctx.base).length q)

theorem scan_gives (h : Window ctx fd text) {examined passes : ℕ} (seen : Seen ctx text examined)
    (some_ : examined < ctx.count) (later : Delivers junk bufsiz passes)
    (enough : 4 * fd.rest.length + 2 * ctx.count < passes) :
    Ensures Served (match scan ctx examined with
      | (some line, ctx, _) => pure (.line line, ctx, fd)
      | (none, ctx, examined) => nextLoop junk bufsiz passes ctx fd examined) (fun q s => Served s ∧
        Gives bufsiz (keptLines (text.drop ctx.base)) (Stale bufsiz ctx.total text)
          (text.drop ctx.base).length q) := by
  have inside := h.inside
  have scanned := scan_scanned h seen some_
  generalize scan ctx examined = q at scanned
  cases scanned with
  | @line line ctx' e window lines total further =>
    refine ensures_pure fun s hs => ⟨hs, .line window lines (by rw [total]) ?_⟩
    rw [List.length_drop, List.length_drop]
    omega
  | @pass ctx' e window lines total further seen' progress =>
    have fewer : work ctx' fd e < passes := by
      unfold work
      split_ifs <;> omega
    refine (later ctx' fd text e window seen' fewer).mono (fun _ h => h) fun q _ gives => ?_
    refine ⟨gives.1, gives.2.congr lines.symm (by rw [total]) ?_⟩
    rw [List.length_drop, List.length_drop]
    omega

theorem nextLoop_gives (positive : 0 < bufsiz) (passes : ℕ) : Delivers junk bufsiz passes := by
  induction passes with
  | zero => exact fun ctx fd text examined _ _ enough => absurd enough (Nat.not_lt_zero _)
  | succ passes ih =>
    intro ctx fd text examined h seen enough
    have within := seen.within
    rw [nextLoop]
    rcases Nat.lt_or_eq_of_le within with some_ | rfl
    · have other : ctx.count ≠ examined := by omega
      rw [if_pos (.inl some_), refillAt, if_neg other]
      refine scan_gives junk bufsiz h seen some_ ih ?_
      rw [work, if_neg other.symm] at enough
      omega
    · rw [work, if_pos rfl] at enough
      by_cases going : ctx.eof = false
      · rw [if_pos (.inr going), refillAt, if_pos rfl]
        have long : ctx.total - 1 ≤ text.length := by
          have := h.ends
          rw [going] at this
          exact not_lt.mp (of_decide_eq_false this.symm)
        have filled := h.filled
        rcases Nat.lt_or_eq_of_le long with more | full
        · refine ensures_bind (refill_more junk bufsiz h seen positive going more) fun q s hs => ?_
          obtain ⟨hs, ctx', fd', rfl, window, base, total, seen', ahead⟩ := hs
          have left : fd.rest.length = text.length - (ctx.base + ctx.count) := by
            rw [h.rest, List.length_drop]
          have left' : fd'.rest.length = text.length - ctx.base - ctx'.count := by
            rw [window.rest, List.length_drop, List.length_drop, base, Nat.zero_add]
          have inside' := window.inside
          rw [base, List.length_drop] at inside'
          have gives := scan_gives junk bufsiz window seen' ahead ih (by omega) s hs
          refine ⟨gives.1, Gives.congr gives.2 (by rw [base, List.drop_zero]) ?_
            (by rw [base, List.drop_zero])⟩
          rw [total, ← stale_next bufsiz h seen more]
        · refine ensures_bind (refill_ended junk bufsiz h positive going (by omega)) fun q s hs => ?_
          obtain ⟨hs, ctx', fd', rfl, ended, base, moved⟩ := hs
          exact ⟨hs, lastLine_full bufsiz h seen full.symm ended base moved fd'⟩
      · rw [if_neg]
        · exact ensures_pure fun s hs => ⟨hs, lastLine_short bufsiz h seen (by simpa using going)⟩
        · rintro (more | still)
          · exact lt_irrefl _ more
          · exact going still

theorem lineParserNext_gives (positive : 0 < bufsiz) (h : Window ctx fd text) :
    Ensures Served (lineParserNext junk bufsiz ctx fd) (fun q s => Served s ∧
      Gives bufsiz (keptLines (text.drop ctx.base)) (Stale bufsiz ctx.total text)
        (text.drop ctx.base).length q) := by
  have bound := work_le ctx fd 0
  exact nextLoop_gives junk bufsiz positive _ ctx fd text 0 h (seen_zero _ _) (by omega)

theorem lineParserNext_first (large : 2 ≤ bufsiz) (plain : Plain text) (buf : Bytes)
    (size : buf.length = bufsiz) :
    Ensures Served (lineParserNext junk bufsiz ⟨buf, 0, bufsiz, 0, false⟩ ⟨text, []⟩) (fun q s => Served s ∧
      Gives bufsiz (keptLines text) (Stale bufsiz bufsiz text) (text.length + 1) q) := by
  have room : makeRoom junk bufsiz ⟨buf, 0, bufsiz, 0, false⟩ =
      pure (true, ⟨buf, 0, bufsiz, 0, false⟩) := by
    simp only [makeRoom]
    rw [if_neg (by omega)]
    rfl
  have first : Ensures Served (refill junk bufsiz ⟨buf, 0, bufsiz, 0, false⟩ ⟨text, []⟩)
      (fun q s => q = receive ⟨buf, 0, bufsiz, 0, false⟩ ⟨text, []⟩ ∧ Served s) := by
    rw [refill, room]
    exact fun s hs => ⟨rfl, hs⟩
  rw [lineParserNext, nextLoop, if_pos (.inr rfl), refillAt, if_pos rfl]
  refine ensures_bind first fun q s hs => ?_
  obtain ⟨rfl, hs⟩ := hs
  rcases Nat.eq_zero_or_pos text.length with none | pos
  · obtain rfl := List.length_eq_zero_iff.mp none
    have sound : ¬ Stale bufsiz bufsiz [] := by
      rintro (⟨full, -⟩ | ⟨more, -⟩)
      · simp only [List.length_nil] at full
        omega
      · exact absurd more (Nat.not_lt_zero _)
    have nothing : 1 < bufsiz := large
    have ended : receive ⟨buf, 0, bufsiz, 0, false⟩ ⟨[], []⟩ =
        (.ended, ⟨buf, 0, bufsiz, 0, true⟩, ⟨[], []⟩) := by
      simp [receive, read, nothing]
    rw [ended]
    exact ⟨hs, .none (by simp [keptLines, trim, Kept]) sound⟩
  · obtain ⟨ctx', fd', result, window, base, total, seen, ahead⟩ :=
      @receive_window ⟨buf, 0, bufsiz, 0, false⟩ text 0 size rfl rfl large rfl rfl pos plain
        (by simp) (fun h => absurd rfl h)
    rw [List.drop_zero] at result
    rw [result]
    have left : fd'.rest.length = text.length - ctx'.count := by
      rw [window.rest, List.length_drop, base, Nat.zero_add]
    have inside := window.inside
    rw [base] at inside
    have gives := scan_gives junk bufsiz window seen ahead
      (nextLoop_gives junk bufsiz (by omega) (4 * text.length + 2)) (by omega) s hs
    refine ⟨gives.1, Gives.congr gives.2 (by rw [base, List.drop_zero]) (by rw [total]) ?_⟩
    rw [base, List.drop_zero]
    omega

theorem nextLines_finished (calls : ℕ) (h : Finished ctx) :
    Ensures Served (nextLines junk bufsiz calls ctx fd) (fun lines _ => lines = []) := by
  cases calls with
  | zero => exact ensures_pure fun s hs => rfl
  | succ calls =>
    obtain ⟨count, ended⟩ := h
    have next : lineParserNext junk bufsiz ctx fd = pure (.eof, ctx, fd) := by
      rw [lineParserNext, nextLoop, if_neg (by simp [count, ended]), lastLine,
        if_neg fun both => both.1 count]
    rw [nextLines, next]
    exact fun s hs => rfl

theorem last_line (calls : ℕ) (h : Finished ctx) (text : Bytes) :
    Ensures Served (do
      let lines ← nextLines junk bufsiz calls ctx fd
      pure (text :: lines)) (fun lines _ => lines = [text]) :=
  ensures_bind (nextLines_finished junk bufsiz calls h) fun _ => ensures_pure fun _ nil =>
    congrArg (text :: ·) nil

theorem gives_lines {keep : List Bytes} {stale : Prop} {n calls : ℕ}
    (later : ∀ ctx fd text, Window ctx fd text → (text.drop ctx.base).length < calls →
      Ensures Served (nextLines junk bufsiz calls ctx fd) (fun lines _ =>
        lines = keptLines (text.drop ctx.base) ↔ ¬ Stale bufsiz ctx.total text))
    {q : NextLine × LineParserCtx × File} (gives : Gives bufsiz keep stale n q) (le : n ≤ calls) :
    Ensures Served (match q.1 with
      | .line text => do
        let lines ← nextLines junk bufsiz calls q.2.1 q.2.2
        pure (text :: lines)
      | _ => pure []) (fun lines _ => lines = keep ↔ ¬ stale) := by
  cases gives with
  | @line text ctx' fd' rest window lines same fewer =>
    refine ensures_bind (later ctx' fd' rest window (by omega)) fun tail => ensures_pure fun s exact_ => ?_
    rw [lines, List.cons.injEq, same, ← exact_]
    simp
  | last finished lines sound =>
    refine (last_line junk bufsiz calls finished _).mono (fun s hs => hs) fun tail s only => ?_
    simp [only, lines, sound]
  | spoilt finished lines bad longer =>
    refine (last_line junk bufsiz calls finished _).mono (fun s hs => hs) fun tail s only => ?_
    simp [only, lines, bad, longer]
  | none lines sound => exact ensures_pure fun s hs => by simp [lines, sound]

theorem nextLines_iff (positive : 0 < bufsiz) (calls : ℕ) (ctx : LineParserCtx) (fd : File)
    (text : Bytes) (h : Window ctx fd text) (enough : (text.drop ctx.base).length < calls) :
    Ensures Served (nextLines junk bufsiz calls ctx fd) (fun lines _ =>
      lines = keptLines (text.drop ctx.base) ↔ ¬ Stale bufsiz ctx.total text) := by
  induction calls generalizing ctx fd text with
  | zero => omega
  | succ calls ih =>
    refine ensures_bind (lineParserNext_gives junk bufsiz positive h) fun q s hs => ?_
    exact gives_lines junk bufsiz ih hs.2 (by omega) s hs.1

end

theorem prepareLineParser_served (junk : ℕ → UInt8) {bufsiz : ℕ} (positive : 0 < bufsiz) :
    Ensures Served (prepareLineParser junk bufsiz)
      (fun r s => Served s ∧ r = some ⟨regrow junk [] bufsiz, 0, bufsiz, 0, false⟩) :=
  ensures_granted (allocate_served positive.ne') (ensures_pure fun _ hs => ⟨hs, rfl⟩)

end Libdank.LineParser
