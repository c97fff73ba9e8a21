import Libdank.LineParser.JoinedLines

/-! How the lines begin that the parser returns for a text its buffer holds whole. They
begin with neither whitespace nor a number sign just when no line of the text begins
with a continuation. -/
namespace Libdank.LineParser
open Buffers Requests

def BeginsPlainly (line : Bytes) : Prop := ∀ c ∈ line.head?, isspace c = false ∧ c ≠ hash

instance (line : Bytes) : Decidable (BeginsPlainly line) :=
  inferInstanceAs (Decidable (∀ c ∈ line.head?, isspace c = false ∧ c ≠ hash))

section Calls
variable (junk : ℕ → UInt8) (bufsiz : ℕ) {ctx : LineParserCtx} {data : Bytes}

/-- How a call ends for a parser that holds `data`, at the end of the file. -/
inductive Called (data : Bytes) : NextLine × LineParserCtx × File → Prop
  | none {ctx : LineParserCtx} {fd : File} (good : ¬ JoinsAtStart data) : Called data (.eof, ctx, fd)
  | last {text : Bytes} {ctx : LineParserCtx} {fd : File} (finished : Finished ctx)
      (plain : BeginsPlainly text ↔ ¬ JoinsAtStart data) : Called data (.line text, ctx, fd)
  | line {text rest : Bytes} {ctx : LineParserCtx} (holds : Holds ctx rest)
      (fewer : rest.length < data.length) (plain : BeginsPlainly text)
      (same : JoinsAtStart data ↔ JoinsAtStart rest) : Called data (.line text, ctx, ⟨[], []⟩)
  | spoilt {text : Bytes} {ctx : LineParserCtx} {fd : File} (odd : ¬ BeginsPlainly text)
      (bad : JoinsAtStart data) : Called data (.line text, ctx, fd)

theorem Called.congr {rest : Bytes} {q : NextLine × LineParserCtx × File} (called : Called rest q)
    (fewer : rest.length < data.length) (same : JoinsAtStart data ↔ JoinsAtStart rest) :
    Called data q := by
  cases called with
  | none good => exact .none (mt same.mp good)
  | last finished plain => exact .last finished (plain.trans (not_congr same.symm))
  | line holds fewer' plain same' => exact .line holds (fewer'.trans fewer) plain (same.trans same')
  | spoilt odd bad => exact .spoilt odd (same.mpr bad)

theorem cstring_head {buf : Bytes} {i : ℕ} {c : UInt8} (here : buf[i]? = some c) (live : c ≠ 0) :
    (cstring buf i).head? = some c := by
  obtain ⟨inside, same⟩ := List.getElem?_eq_some_iff.mp here
  rw [cstring, List.drop_eq_getElem_cons inside, same]
  simp [live]

theorem lastLine_head {c : UInt8} (held : slice ctx.buf ctx.base ctx.count = data)
    (head : data.head? = some c) (live : c ≠ 0) (some_ : ctx.count ≠ 0) :
    (c = hash → (lastLine ctx).1 = .eof) ∧
      (c ≠ hash → ∃ text, lastLine ctx = (.line text, { ctx with count := 0 }) ∧
        text.head? = some c) := by
  have cell : ctx.buf[ctx.base]? = some c := by
    have read := getElem?_slice ctx.buf ctx.base ctx.count 0 (Nat.pos_of_ne_zero some_)
    rwa [held, ← List.head?_eq_getElem?, head, Nat.add_zero, eq_comm] at read
  have comment : isComment ctx.buf ctx.base = true ↔ c = hash := by
    simp [isComment, List.getD_eq_getElem?_getD, cell]
  rw [lastLine]
  constructor
  · intro starts
    rw [if_neg fun both => both.2 (comment.mpr starts)]
  · intro other
    rw [if_pos ⟨some_, fun now => other (comment.mp now)⟩]
    exact ⟨_, rfl, cstring_head cell live⟩

theorem refill_end (positive : 0 < bufsiz) (h : Holds ctx data) :
    Ensures Served (refill junk bufsiz ctx ⟨[], []⟩) (fun q s => Served s ∧ ∃ ctx',
      q = (.ended, ctx', ⟨[], []⟩) ∧ ctx'.eof = true ∧ ctx'.count = ctx.count ∧
      slice ctx'.buf ctx'.base ctx'.count = data) := by
  refine ensures_bind (makeRoom_holds junk bufsiz positive h) fun ⟨ok, ctx'⟩ =>
    ensures_pure fun s hs => ?_
  obtain ⟨rfl, hs, size, fits, count, eof, held⟩ := hs
  dsimp only at size fits count eof held ⊢
  have room : 0 < ctx'.total - ctx'.count - 1 := by omega
  refine ⟨hs, { ctx' with base := 0, eof := true }, ?_, rfl, count, by rw [count]; exact held⟩
  simp [receive, read, room]

theorem nextLoop_end (positive : 0 < bufsiz) (h : Holds ctx data) {c : UInt8}
    (head : data.head? = some c) (passes : ℕ) :
    Ensures Served (nextLoop junk bufsiz (passes + 1) ctx ⟨[], []⟩ ctx.count) (fun q s => Served s ∧
      (c = hash → q.1 = .eof) ∧
      (c ≠ hash → ∃ text, q.1 = .line text ∧ text.head? = some c ∧ Finished q.2.1)) := by
  have live : c ≠ 0 := fun zero => h.live (zero ▸ List.mem_of_head? head)
  have some_ : ctx.count ≠ 0 := by
    rw [← h.length]
    exact fun none_ => by rw [List.length_eq_zero_iff.mp none_] at head; cases head
  rw [nextLoop]
  by_cases going : ctx.eof = false
  · rw [if_pos (.inr going), refillAt, if_pos rfl]
    refine ensures_bind (refill_end junk bufsiz positive h) fun q s hs => ?_
    obtain ⟨hs, ctx', rfl, ended, count, held⟩ := hs
    obtain ⟨comment, line⟩ := lastLine_head held head live (count ▸ some_)
    refine ⟨hs, comment, fun other => ?_⟩
    obtain ⟨text, result, starts⟩ := line other
    refine ⟨text, congrArg Prod.fst result, starts, ?_⟩
    change Finished (lastLine ctx').2
    rw [result]
    exact ⟨rfl, ended⟩
  · rw [if_neg]
    · refine ensures_pure fun s hs => ?_
      obtain ⟨comment, line⟩ := lastLine_head h.held head live some_
      refine ⟨hs, comment, fun other => ?_⟩
      obtain ⟨text, result, starts⟩ := line other
      refine ⟨text, congrArg Prod.fst result, starts, ?_⟩
      change Finished (lastLine ctx).2
      rw [result]
      exact ⟨rfl, by simpa using going⟩
    · rintro (more | still)
      · exact lt_irrefl _ more
      · exact going still

theorem not_joinsAtStart_blank (blank : trim data = []) : ¬ JoinsAtStart data := by
  obtain ⟨-, -, -, -, starts, -⟩ := joined_trim data
  rw [starts, blank]
  rintro ⟨p, here, -⟩
  cases here

theorem beginsPlainly_iff {text : Bytes} {c : UInt8} (head : text.head? = some c) :
    BeginsPlainly text ↔ isspace c = false ∧ c ≠ hash := by
  simp [BeginsPlainly, head]

theorem firstLine_begins {text line : Bytes} {rest : Option Bytes} {c : UInt8}
    (head : text.head? = some c) (solid : isspace c = false)
    (first : firstLine [] text = (line, rest)) :
    ∃ d, line.head? = some d ∧ (isspace d = false ↔ d ≠ space) := by
  obtain ⟨-, same⟩ := firstLine_head head solid first
  rw [← same]
  rcases joined_head head solid with kept | ⟨-, spaced⟩
  · refine ⟨c, kept, iff_of_true solid ?_⟩
    rintro rfl
    cases solid
  · exact ⟨space, spaced, by decide⟩

theorem nextLoop_blank (positive : 0 < bufsiz) (passes : ℕ) (h : Holds ctx data)
    (blank : trim data = []) (enough : work ctx ⟨[], []⟩ 0 < passes) :
    Ensures Served (nextLoop junk bufsiz passes ctx ⟨[], []⟩ 0) (fun q s => Served s ∧ Called data q) := by
  have concludes := nextLoop_concludes junk bufsiz positive passes ctx ⟨[], []⟩ data 0
    ⟨h, Nat.zero_le _, by simp⟩ ⟨by simp, by simp⟩ enough
  have barren : ¬ Due 0 data (left ctx ⟨[], []⟩) := by
    rw [left, ite_self, Due, List.append_nil, ← modeAfter_trim, blank]
    simp [modeAfter]
  refine concludes.mono (fun _ hs => hs) fun q s ended => ⟨ended.1, ?_⟩
  obtain ⟨line, ctx', fd⟩ := q
  obtain rfl : line = .eof := ended.2.1 barren
  exact .none (not_joinsAtStart_blank blank)

theorem nextLoop_lastLine (positive : 0 < bufsiz) (passes : ℕ) (h : Holds ctx data)
    (solid : trim data ≠ []) {line : Bytes} (first : firstLine [] (trim data) = (line, none)) :
    Ensures Served (nextLoop junk bufsiz (passes + 2) ctx ⟨[], []⟩ 0)
      (fun q s => Served s ∧ Called data q) := by
  obtain ⟨c, head, other⟩ := trim_head solid
  obtain ⟨d, begins, spaced⟩ := firstLine_begins head other first
  obtain ⟨-, -, -, -, starts, -⟩ := joined_trim data
  have iff_ := starts.trans (joinsAtStart_none head other first)
  have holds := (skipWhitespace_eq h).2
  have size := (firstLine_length first).trans (Nat.zero_add _)
  rw [nextLoop_fresh junk bufsiz (h.count_ne_zero solid), scan_eq h solid first]
  have held := holds.withData size (firstLine_live holds.live first)
  rw [behind, Option.elim_none, List.append_nil] at held ⊢
  rw [begins, Option.some.injEq] at iff_
  refine (nextLoop_end junk bufsiz positive held begins passes).mono (fun _ hs => hs)
    fun q s ended => ⟨ended.1, ?_⟩
  obtain ⟨-, comment, last⟩ := ended
  obtain ⟨result, ctx', fd⟩ := q
  by_cases starts_ : d = hash
  · obtain rfl : result = .eof := comment starts_
    refine .none fun bad => absurd (starts_.symm.trans (iff_.mp bad)) (by decide)
  · obtain ⟨text, rfl, same, finished⟩ := last starts_
    refine .last finished ?_
    rw [beginsPlainly_iff same, iff_, spaced]
    exact and_iff_left starts_

theorem nextLoop_line (passes : ℕ) (h : Holds ctx data) (solid : trim data ≠ [])
    {line rest : Bytes} (first : firstLine [] (trim data) = (line, some rest))
    (later : ∀ ctx', Holds ctx' rest → ctx'.count < ctx.count →
      Ensures Served (nextLoop junk bufsiz passes ctx' ⟨[], []⟩ 0)
        (fun q s => Served s ∧ Called rest q)) :
    Ensures Served (nextLoop junk bufsiz (passes + 1) ctx ⟨[], []⟩ 0)
      (fun q s => Served s ∧ Called data q) := by
  obtain ⟨c, head, other⟩ := trim_head solid
  obtain ⟨d, begins, spaced⟩ := firstLine_begins head other first
  obtain ⟨-, -, -, -, starts, -⟩ := joined_trim data
  have iff_ := starts.trans (joinsAtStart_some head other first)
  have holds := (skipWhitespace_eq h).2
  have size := (firstLine_length first).trans (Nat.zero_add _)
  have shorter : (trim data).length ≤ data.length := (List.dropWhile_suffix isspace).length_le
  have fewer : rest.length < data.length := by
    rw [behind, Option.elim_some, List.length_append, List.length_cons] at size
    omega
  rw [nextLoop_fresh junk bufsiz (h.count_ne_zero solid), scan_eq h solid first]
  generalize ctx.advance (lead data) = ctx₁ at holds ⊢
  have after : (ctx₁.withData (line ++ newline :: rest)).withData (line ++ 0 :: rest) =
      ctx₁.withData (line ++ 0 :: rest) := withData_withData holds.inside (by simp)
  rw [behind, Option.elim_some, taken, after, begins]
  rw [begins, Option.some.injEq] at iff_
  by_cases starts_ : d = hash
  · have next := holds.rest first newline
    have tail : JoinsAtStart data ↔ JoinsAtStart rest :=
      iff_.trans (or_iff_right fun same => absurd (starts_.symm.trans same) (by decide))
    rw [if_pos (congrArg some starts_)]
    refine (later _ next ?_).mono (fun _ hs => hs) fun q s called =>
      ⟨called.1, called.2.congr fewer tail⟩
    rwa [← next.length, ← h.length]
  · rw [if_neg fun same => starts_ (Option.some.inj same)]
    refine ensures_pure fun s hs => ⟨hs, ?_⟩
    by_cases odd : d = space
    · refine .spoilt (fun plain => ?_) (iff_.mpr (.inl odd))
      have solid_ := ((beginsPlainly_iff begins).mp plain).1
      exact spaced.mp solid_ odd
    · exact .line (holds.rest first 0) fewer
        ((beginsPlainly_iff begins).mpr ⟨spaced.mpr odd, starts_⟩) (iff_.trans (or_iff_right odd))

/-- Every call delivers a line that begins as it should, as long as no first line begins
with a continuation; the line that does is delivered with its spaces. -/
theorem nextLoop_called (positive : 0 < bufsiz) (passes : ℕ) (h : Holds ctx data)
    (enough : work ctx ⟨[], []⟩ 0 < passes) :
    Ensures Served (nextLoop junk bufsiz passes ctx ⟨[], []⟩ 0) (fun q s => Served s ∧ Called data q) := by
  induction passes generalizing ctx data with
  | zero => omega
  | succ passes ih =>
    by_cases blank : trim data = []
    · exact nextLoop_blank junk bufsiz positive (passes + 1) h blank enough
    · have some_ := h.count_ne_zero blank
      rw [work, if_neg some_.symm] at enough
      rcases first : firstLine [] (trim data) with ⟨line, rest⟩
      cases rest with
      | none =>
        obtain ⟨k, rfl⟩ : ∃ k, passes = k + 1 := ⟨passes - 1, by omega⟩
        exact nextLoop_lastLine junk bufsiz positive k h blank first
      | some rest =>
        refine nextLoop_line junk bufsiz passes h blank first fun ctx' next fewer => ih next ?_
        refine (work_le ctx' ⟨[], []⟩ 0).trans_lt ?_
        dsimp only at enough ⊢
        omega

end Calls

section Texts
variable (junk : ℕ → UInt8) (bufsiz : ℕ)

theorem called_lines {calls : ℕ} {data : Bytes}
    (later : ∀ ctx rest, Holds ctx rest → rest.length < calls →
      Ensures Served (nextLines junk bufsiz calls ctx ⟨[], []⟩) (fun lines _ =>
        (∀ line ∈ lines, BeginsPlainly line) ↔ ¬ JoinsAtStart rest))
    {q : NextLine × LineParserCtx × File} (called : Called data q) (le : data.length ≤ calls) :
    Ensures Served (afterCall junk bufsiz calls q) (fun lines _ =>
      (∀ line ∈ lines, BeginsPlainly line) ↔ ¬ JoinsAtStart data) := by
  cases called with
  | none good =>
    exact ensures_pure fun s hs => iff_of_true (fun line mem => absurd mem List.not_mem_nil) good
  | last finished plain =>
    refine (last_line junk bufsiz calls finished _).mono (fun s hs => hs) fun tail s only => ?_
    rw [only, List.forall_mem_singleton, plain]
  | @line text rest ctx holds fewer plain same =>
    refine ensures_bind (later ctx rest holds (by omega)) fun tail => ensures_pure fun s tail_ => ?_
    rw [List.forall_mem_cons, tail_, same]
    exact and_iff_right plain
  | spoilt odd bad =>
    refine ensures_bind (ensures_true _) fun tail => ensures_pure fun s _ => ?_
    exact iff_of_false (fun all => odd (all _ (.head _))) (not_not.mpr bad)

theorem nextLines_plain (positive : 0 < bufsiz) (calls : ℕ) (ctx : LineParserCtx) (data : Bytes)
    (h : Holds ctx data) (enough : data.length < calls) :
    Ensures Served (nextLines junk bufsiz calls ctx ⟨[], []⟩) (fun lines _ =>
      (∀ line ∈ lines, BeginsPlainly line) ↔ ¬ JoinsAtStart data) := by
  induction calls generalizing ctx data with
  | zero => omega
  | succ calls ih =>
    have bound := work_le ctx ⟨[], []⟩ 0
    dsimp only at bound
    refine ensures_bind (nextLoop_called junk bufsiz positive (4 * ([] : Bytes).length + 2 * ctx.count + 3)
      h (by omega)) fun q s hs => ?_
    exact called_lines junk bufsiz ih hs.2 (by omega) s hs.1

def filled (buf text : Bytes) : LineParserCtx :=
  ⟨(overwrite buf 0 text).set text.length 0, text.length, bufsiz, 0, decide (text.length < bufsiz - 1)⟩

theorem receive_filled {buf text : Bytes} (some_ : text ≠ []) (whole : text.length < bufsiz) :
    receive ⟨buf, 0, bufsiz, 0, false⟩ ⟨text, []⟩ = (.more, filled bufsiz buf text, ⟨[], []⟩) := by
  have take : text.take (bufsiz - 1) = text := List.take_of_length_le (by omega)
  have drop : text.drop (bufsiz - 1) = [] := List.drop_of_length_le (by omega)
  simp [receive, read, take, drop, filled, some_]

theorem filled_holds {buf text : Bytes} (some_ : text ≠ []) (size : buf.length = bufsiz)
    (live : 0 ∉ text) (whole : text.length < bufsiz) : Holds (filled bufsiz buf text) text := by
  have pos := List.length_pos_of_ne_nil some_
  have result : read ⟨text, []⟩ (bufsiz - 0 - 1) = (some text, ⟨[], []⟩) := by
    have take : text.take (bufsiz - 1) = text := List.take_of_length_le (by omega)
    have drop : text.drop (bufsiz - 1) = [] := List.drop_of_length_le (by omega)
    simp [read, take, drop]
  obtain ⟨ctx, run, holds, -⟩ := @receive_more ⟨buf, 0, bufsiz, 0, false⟩ [] ⟨text, []⟩ ⟨[], []⟩ size rfl
    (show 0 + 1 < bufsiz by omega) rfl (by simp) rfl text some_ live (show text.length ≤ bufsiz - 0 - 1 by omega)
    result
  rw [receive_filled bufsiz some_ whole] at run
  obtain rfl := (Prod.mk.inj (Prod.mk.inj run).2).1
  exact holds

theorem filled_joined (buf text : Bytes) :
    filled bufsiz buf (joined text) = (filled bufsiz buf text).withData (joined text) := by
  have size := length_joined text
  have same : (overwrite buf 0 (joined text)).set text.length 0 =
      overwrite ((overwrite buf 0 text).set text.length 0) 0 (joined text) := by
    simp only [overwrite, List.take_zero, List.nil_append, Nat.zero_add, size]
    rw [List.set_append_right _ _ size.le, List.set_append_right _ _ le_rfl, size, List.drop_left]
  rw [filled, filled, LineParserCtx.withData, size, same]

theorem nextLoop_first {buf text : Bytes} (some_ : text ≠ []) (whole : text.length < bufsiz) (passes : ℕ) :
    nextLoop junk bufsiz (passes + 1) ⟨buf, 0, bufsiz, 0, false⟩ ⟨text, []⟩ 0 =
      nextLoop junk bufsiz (passes + 1) (filled bufsiz buf text) ⟨[], []⟩ 0 := by
  have pos := List.length_pos_of_ne_nil some_
  have room : makeRoom junk bufsiz ⟨buf, 0, bufsiz, 0, false⟩ = pure (true, ⟨buf, 0, bufsiz, 0, false⟩) := by
    simp only [makeRoom]
    rw [if_neg (by omega)]
    rfl
  have first : refill junk bufsiz ⟨buf, 0, bufsiz, 0, false⟩ ⟨text, []⟩ =
      pure (.more, filled bufsiz buf text, ⟨[], []⟩) := by
    rw [refill, room, ← receive_filled bufsiz some_ whole]
    rfl
  have more : (filled bufsiz buf text).count ≠ 0 := pos.ne'
  rw [nextLoop_fresh junk bufsiz more, nextLoop, if_pos (.inr rfl), refillAt, if_pos rfl, first]
  rfl

def prepared : LineParserCtx := ⟨regrow junk [] bufsiz, 0, bufsiz, 0, false⟩

theorem prepared_size : (prepared junk bufsiz).buf.length = bufsiz :=
  length_regrow junk [] (Nat.zero_le _)

theorem parseLines_prepared (positive : 0 < bufsiz) (calls : ℕ) {h : Heap} (served : Served h) :
    ∃ s, Served s ∧ ∀ fd,
      parseLines junk bufsiz calls fd h = nextLines junk bufsiz calls (prepared junk bufsiz) fd s := by
  have yes : h.answer 0 = true := by
    unfold Served at served
    simp [Heap.answer, served]
  have later : Served (h.later 1) := by
    unfold Served at served ⊢
    simp [Heap.later, served]
  refine ⟨h.later 1, later, fun fd => ?_⟩
  rw [parseLines, bind_apply, prepareLineParser, bind_apply, allocate_eq positive.ne', yes]
  rfl

theorem nextLines_first {text : Bytes} (some_ : text ≠ []) (whole : text.length < bufsiz) (calls : ℕ) :
    nextLines junk bufsiz (calls + 1) (prepared junk bufsiz) ⟨text, []⟩ =
      nextLoop junk bufsiz (4 * text.length + 3) (filled bufsiz (regrow junk [] bufsiz) text) ⟨[], []⟩ 0 >>=
        afterCall junk bufsiz calls := by
  rw [← nextLoop_first junk bufsiz some_ whole]
  rfl

theorem parseLines_joined {text : Bytes} (some_ : text ≠ []) (large : 2 ≤ bufsiz) (nul : 0 ∉ text)
    (whole : text.length < bufsiz) (calls : ℕ) {h : Heap} (served : Served h)
    (good : ¬ JoinsAtStart text) :
    (parseLines junk bufsiz (calls + 1) ⟨text, []⟩ h).1 =
      (parseLines junk bufsiz (calls + 1) ⟨joined text, []⟩ h).1 := by
  obtain ⟨s, hs, run⟩ := parseLines_prepared junk bufsiz (by omega) (calls + 1) served
  have size := length_joined text
  have some' : joined text ≠ [] := fun nil => by
    rw [nil] at size
    exact some_ (List.length_eq_zero_iff.mp size.symm)
  have holds := filled_holds bufsiz some_ (prepared_size junk bufsiz) nul whole
  rw [run, run, nextLines_first junk bufsiz some_ whole, nextLines_first junk bufsiz some' (by omega),
    bind_apply, bind_apply, size, filled_joined]
  exact congrArg Prod.fst (afterCall_alike junk bufsiz (nextLines_alike junk bufsiz calls)
    (nextLoop_alike junk bufsiz _ holds good ⟨[], []⟩ s)).symm

theorem parseLines_plain_iff {text : Bytes} (some_ : text ≠ []) (large : 2 ≤ bufsiz) (nul : 0 ∉ text)
    (whole : text.length < bufsiz) (calls : ℕ) (enough : text.length ≤ calls) {h : Heap}
    (served : Served h) :
    (∀ line ∈ (parseLines junk bufsiz (calls + 1) ⟨text, []⟩ h).1, BeginsPlainly line) ↔
      ¬ JoinsAtStart text := by
  obtain ⟨s, hs, run⟩ := parseLines_prepared junk bufsiz (by omega) (calls + 1) served
  have holds := filled_holds bufsiz some_ (prepared_size junk bufsiz) nul whole
  have positive : 0 < bufsiz := by omega
  have bound := work_le (filled bufsiz (regrow junk [] bufsiz) text) ⟨[], []⟩ 0
  have count : (filled bufsiz (regrow junk [] bufsiz) text).count = text.length := rfl
  rw [count, List.length_nil] at bound
  have lines : Ensures Served (nextLoop junk bufsiz (4 * text.length + 3)
      (filled bufsiz (regrow junk [] bufsiz) text) ⟨[], []⟩ 0 >>= afterCall junk bufsiz calls)
      (fun lines _ => (∀ line ∈ lines, BeginsPlainly line) ↔ ¬ JoinsAtStart text) :=
    ensures_bind (nextLoop_called junk bufsiz positive _ holds (by omega)) fun q s hs =>
      called_lines junk bufsiz (nextLines_plain junk bufsiz positive calls) hs.2 enough s hs.1
  rw [run, nextLines_first junk bufsiz some_ whole]
  exact lines s hs

theorem parseLines_nil (large : 2 ≤ bufsiz) (calls : ℕ) {h : Heap} (served : Served h) :
    (parseLines junk bufsiz calls ⟨[], []⟩ h).1 = [] := by
  obtain ⟨s, hs, run⟩ := parseLines_prepared junk bufsiz (by omega) calls served
  have holds : Holds (prepared junk bufsiz) [] :=
    ⟨prepared_size junk bufsiz, large, show 0 + 0 < bufsiz by omega, slice_zero _ _, by simp,
      fun some_ => absurd rfl some_⟩
  have barren : Barren ([] ++ left (prepared junk bufsiz) ⟨[], []⟩) := by
    rw [left, ite_self]
    decide
  rw [run]
  exact nextLines_barren junk bufsiz (by omega) holds ⟨by simp, by simp⟩ barren calls s hs

end Texts

/-- A text that the buffer holds whole has the lines of the joined text, and none of them
begins with whitespace or a number sign, just when no line begins with a continuation. -/
theorem parseLines_joined_iff (junk : ℕ → UInt8) (bufsiz : ℕ) (large : 2 ≤ bufsiz) (text : Bytes)
    (nul : 0 ∉ text) (whole : text.length < bufsiz) (calls : ℕ) (enough : text.length < calls)
    (h : Heap) (served : Served h) :
    ((parseLines junk bufsiz calls ⟨text, []⟩ h).1 =
          (parseLines junk bufsiz calls ⟨joined text, []⟩ h).1 ∧
        ∀ line ∈ (parseLines junk bufsiz calls ⟨text, []⟩ h).1, BeginsPlainly line) ↔
      ¬ JoinsAtStart text := by
  by_cases empty : text = []
  · subst empty
    rw [parseLines_nil junk bufsiz large calls served]
    refine iff_of_true ⟨?_, fun line mem => absurd mem List.not_mem_nil⟩ (not_joinsAtStart_blank rfl)
    rw [show joined [] = [] from rfl, parseLines_nil junk bufsiz large calls served]
  · obtain ⟨calls, rfl⟩ : ∃ k, calls = k + 1 := ⟨calls - 1, by omega⟩
    rw [parseLines_plain_iff junk bufsiz empty large nul whole calls (by omega) served]
    exact ⟨And.right, fun good =>
      ⟨parseLines_joined junk bufsiz empty large nul whole calls served good, good⟩⟩

/-- A continuation at the very start: the spaces in its place are returned, and hide the
comment behind them. -/
theorem continuation_hides_comment :
    ¬ ((parseLines (fun _ => 0) 8 5 ⟨[backslash, newline, hash, 0x78], []⟩ ⟨[], false⟩).1 =
          (parseLines (fun _ => 0) 8 5 ⟨joined [backslash, newline, hash, 0x78], []⟩ ⟨[], false⟩).1 ∧
        ∀ line ∈ (parseLines (fun _ => 0) 8 5 ⟨[backslash, newline, hash, 0x78], []⟩ ⟨[], false⟩).1,
          BeginsPlainly line) := by
  have returned : (parseLines (fun _ => 0) 8 5 ⟨[backslash, newline, hash, 0x78], []⟩ ⟨[], false⟩).1 =
      [[space, space, hash, 0x78]] := by
    decide +kernel
  rintro ⟨-, plain⟩
  rw [returned, List.forall_mem_singleton] at plain
  exact absurd plain (by decide)

theorem parseLines_joined_iff_word :
    ((parseLines (fun _ => 0) 8 4 ⟨[0x61, backslash, newline], []⟩ ⟨[], false⟩).1 =
          (parseLines (fun _ => 0) 8 4 ⟨joined [0x61, backslash, newline], []⟩ ⟨[], false⟩).1 ∧
        ∀ line ∈ (parseLines (fun _ => 0) 8 4 ⟨[0x61, backslash, newline], []⟩ ⟨[], false⟩).1,
          BeginsPlainly line) ↔
      ¬ JoinsAtStart [0x61, backslash, newline] :=
  parseLines_joined_iff (fun _ => 0) 8 (by decide) [0x61, backslash, newline] (by decide) (by decide) 4
    (by decide) ⟨[], false⟩ rfl

end Libdank.LineParser
