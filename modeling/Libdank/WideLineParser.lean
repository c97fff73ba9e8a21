import Libdank.Printing

/-! The wide-character line parser of `utils/wlineparser.c`. A wide string handed
out is read from the buffer up to its first NUL, as the caller will. Fresh memory
holds whatever `junk` says. -/
namespace Libdank.WideLineParser
open Buffers Requests Parse Printing

structure WlineParserCtx where
  eof : Bool
  buf : Pointer Text
  bufroom : ℕ
  bufused : ℕ
deriving DecidableEq, Repr

def prepareWlineParser : WlineParserCtx := ⟨false, none, 0, 0⟩

def WlineParserCtx.cells (ctx : WlineParserCtx) : Text := ctx.buf.getD []

def WlineParserCtx.string (ctx : WlineParserCtx) : Text := ctx.cells.takeWhile (· ≠ nul)

def wcharSize : ℕ := 4

section Operations

variable (junk : ℕ → Char)

/-- Room for one more character, in an `unsigned` number of cells. -/
def makeRoom (ctx : WlineParserCtx) : Request (Bool × WlineParserCtx) :=
  if ctx.bufused = ctx.bufroom then do
    let room := (ctx.bufroom + bufsiz) % 2 ^ 32
    if ← allocate (room * wcharSize) then
      pure (true, { ctx with buf := some (regrow junk ctx.cells room), bufroom := room })
    else pure (false, ctx)
  else pure (true, ctx)

def put (ctx : WlineParserCtx) (wc : Char) : WlineParserCtx :=
  { ctx with buf := ctx.buf.map fun cells => overwrite cells ctx.bufused [wc], bufused := ctx.bufused + 1 }

def growWlineParser (ctx : WlineParserCtx) (wc : Char) : Request (Bool × WlineParserCtx) := do
  let (ok, ctx) ← makeRoom junk ctx
  pure (if ok then (true, put ctx wc) else (false, ctx))

/-- What a call returns. Where it returns NULL, `errno` tells the end of the file
from a refused allocation. -/
inductive NextLine where
  | line (text : Text) | eof | failed
deriving DecidableEq, Repr

def finish (ctx : WlineParserCtx) (fp : Text) : Request (NextLine × WlineParserCtx × Text) := do
  let (ok, ctx) ← growWlineParser junk ctx nul
  pure (if ok then .line ctx.string else .failed, ctx, fp)

def nextLoop : Text → WlineParserCtx → Request (NextLine × WlineParserCtx × Text)
  | [], ctx =>
    let ctx := { ctx with eof := true }
    if ctx.bufused = 0 then pure (.eof, ctx, []) else finish junk ctx []
  | c :: fp, ctx =>
    if c = '\n' then finish junk ctx fp
    else do
      let (ok, ctx) ← growWlineParser junk ctx c
      if ok then nextLoop fp ctx else pure (.failed, ctx, fp)

def wlineParserNext (ctx : WlineParserCtx) (fp : Text) :
    Request (NextLine × WlineParserCtx × Text) :=
  if ctx.eof then pure (.eof, ctx, fp) else nextLoop junk fp { ctx with bufused := 0 }

def nextLines : ℕ → WlineParserCtx → Text → Request (List Text × Option NextLine)
  | 0, _, _ => pure ([], none)
  | calls + 1, ctx, fp => do
    let (next, ctx, fp) ← wlineParserNext junk ctx fp
    match next with
    | .line text => do
      let (lines, last) ← nextLines calls ctx fp
      pure (text :: lines, last)
    | last => pure ([], some last)

end Operations

/-- The lines of a file, the last of them ended by the end of the file unless it
is empty. -/
def fileLines (content : Text) : List Text :=
  let lines := content.splitOn '\n'
  if lines.getLastD [] = [] then lines.dropLast else lines

def IsComment (iswspace : Char → Bool) (line : Text) : Prop :=
  (line.dropWhile iswspace).head? = some '#'

instance (iswspace : Char → Bool) (line : Text) : Decidable (IsComment iswspace line) :=
  inferInstanceAs (Decidable (_ = _))

/-- Where every request is served, successive calls return the lines that are not
comments and then NULL at the end of the file. -/
def FiltersComments (iswspace : Char → Bool) (content : Text) : Prop :=
  ∀ junk h, Served h → ∀ calls > (fileLines content).length,
    (nextLines junk calls prepareWlineParser content h).1 =
      ((fileLines content).filter fun line => ¬ IsComment iswspace line, some .eof)

section Lines

theorem fileLines_last {line : Text} (some_ : line ≠ []) (plain : '\n' ∉ line) :
    fileLines line = [line] := by
  rw [fileLines, List.splitOn_eq_singleton plain]
  exact if_neg some_

theorem fileLines_line {line : Text} (plain : '\n' ∉ line) (rest : Text) :
    fileLines (line ++ '\n' :: rest) = line :: fileLines rest := by
  rw [fileLines, fileLines, List.splitOn_append_cons_self, List.splitOn_eq_singleton plain,
    List.singleton_append]
  obtain ⟨first, others, shape⟩ := List.exists_cons_of_ne_nil (List.splitOn_ne_nil '\n' rest)
  rw [shape, List.getLastD_cons, List.getLastD_cons, List.getLastD_cons]
  split_ifs <;> rfl

end Lines

section Growth

/-- The most cells the buffer comes to: one growth more and `bufroom` is 0. -/
def mostCells : ℕ := 2 ^ 32 - bufsiz

structure Ready (eof : Bool) (ctx : WlineParserCtx) (done : Text) : Prop where
  atEof : ctx.eof = eof
  full : ctx.cells.length = ctx.bufroom
  used : ctx.bufused = done.length
  fits : done.length ≤ ctx.bufroom
  written : ctx.cells.take done.length = done
  whole : bufsiz ∣ ctx.bufroom
  small : ctx.bufroom < 2 ^ 32

variable {eof : Bool} {ctx : WlineParserCtx} {done : Text}

theorem ready_prepare : Ready false prepareWlineParser [] :=
  ⟨rfl, rfl, rfl, le_rfl, rfl, dvd_zero _, by decide⟩

theorem Ready.reset (ready : Ready eof ctx done) : Ready eof { ctx with bufused := 0 } [] :=
  { ready with used := rfl, fits := Nat.zero_le _, written := rfl }

theorem Ready.ended (ready : Ready eof ctx done) : Ready true { ctx with eof := true } done :=
  { ready with atEof := rfl }

theorem ready_put (ready : Ready eof ctx done) (room : done.length < ctx.bufroom) (wc : Char) :
    Ready eof (put ctx wc) (done ++ [wc]) := by
  obtain ⟨atEof, full, used, -, written, whole, small⟩ := ready
  have after : (put ctx wc).cells = overwrite ctx.cells done.length [wc] := by
    cases buf : ctx.buf with
    | none => simp [WlineParserCtx.cells, buf] at full; omega
    | some cells => simp [put, WlineParserCtx.cells, buf, used]
  refine ⟨atEof, ?_, by simp [put, used], by simpa [put] using room, ?_, whole, small⟩
  · rw [after, length_overwrite _ _ _ (by simp; omega), full]
    rfl
  · rw [after, overwrite, written]
    exact List.take_left

variable (junk : ℕ → Char)

theorem makeRoom_grants (ready : Ready eof ctx done) (more : done.length < mostCells) :
    Ensures Served (makeRoom junk ctx) (fun q h => Served h ∧ q.1 = true ∧
      Ready eof q.2 done ∧ done.length < q.2.bufroom) := by
  obtain ⟨atEof, full, used, fits, written, whole, small⟩ := ready
  rw [makeRoom]
  refine ensures_ite (fun filled => ?_) fun open_ => ensures_pure fun h served =>
    ⟨served, rfl, ⟨atEof, full, used, fits, written, whole, small⟩,
      lt_of_le_of_ne fits fun same => open_ (used.trans same)⟩
  have below : ctx.bufroom + bufsiz < 2 ^ 32 := by
    simp only [mostCells, bufsiz] at *
    omega
  rw [Nat.mod_eq_of_lt below]
  refine ensures_bind (allocate_served (by simp [bufsiz, wcharSize])) fun ok => ?_
  rintro h ⟨rfl, served⟩
  have longer : done.length < ctx.bufroom + bufsiz := Nat.lt_add_right_iff_pos.mpr (by decide) |>.trans_le' fits
  have kept : (regrow junk ctx.cells (ctx.bufroom + bufsiz)).take done.length = done := by
    rw [regrow, List.take_append_of_le_length (fits.trans_eq full.symm), written]
  have size := length_regrow junk ctx.cells (full.trans_le (Nat.le_add_right ctx.bufroom bufsiz))
  exact ⟨served, rfl, ⟨atEof, size, used, longer.le, kept, Nat.dvd_add whole dvd_rfl, below⟩, longer⟩

theorem makeRoom_refuses (ready : Ready eof ctx done) (most : done.length = mostCells) (h : Heap) :
    makeRoom junk ctx h = ((false, ctx), h) := by
  obtain ⟨-, -, used, fits, -, ⟨k, whole⟩, small⟩ := ready
  have filled : ctx.bufused = ctx.bufroom := by
    simp only [mostCells, bufsiz] at *
    omega
  have none_ : (ctx.bufroom + bufsiz) % 2 ^ 32 = 0 := by
    simp only [mostCells, bufsiz] at *
    omega
  rw [makeRoom, if_pos filled, none_]
  rfl

theorem growWlineParser_spec (ready : Ready eof ctx done) (le : done.length ≤ mostCells) (wc : Char) :
    Ensures Served (growWlineParser junk ctx wc) (fun q h => Served h ∧
      (done.length < mostCells → q.1 = true ∧ Ready eof q.2 (done ++ [wc])) ∧
      (done.length = mostCells → q.1 = false)) := by
  rcases lt_or_eq_of_le le with more | most
  · refine ensures_bind (makeRoom_grants junk ready more) fun q => ensures_pure ?_
    rintro h ⟨served, ok, room, inside⟩
    rw [ok]
    exact ⟨served, fun _ => ⟨rfl, ready_put room inside wc⟩, fun most => absurd most more.ne⟩
  · intro h served
    rw [growWlineParser, bind_apply, makeRoom_refuses junk ready most]
    exact ⟨served, fun more => absurd most more.ne, fun _ => rfl⟩

end Growth

section Calls

variable (junk : ℕ → Char) {eof : Bool} {ctx : WlineParserCtx} {done : Text}

theorem Ready.string (ready : Ready eof ctx (done ++ [nul])) (nulFree : nul ∉ done) :
    ctx.string = done := by
  have solid : ∀ c ∈ done, decide (c ≠ nul) = true := fun c hc =>
    decide_eq_true fun same => nulFree (same ▸ hc)
  have shape : ctx.cells = done ++ nul :: ctx.cells.drop (done ++ [nul]).length := by
    conv_lhs => rw [← List.take_append_drop (done ++ [nul]).length ctx.cells, ready.written]
    simp
  rw [WlineParserCtx.string, shape, List.takeWhile_append_of_pos solid]
  simp

theorem finish_spec (ready : Ready eof ctx done) (nulFree : nul ∉ done)
    (le : done.length ≤ mostCells) (fp : Text) :
    Ensures Served (finish junk ctx fp) (fun q h => Served h ∧
      (done.length < mostCells → q.1 = .line done ∧ q.2.2 = fp ∧ ∃ d, Ready eof q.2.1 d) ∧
      (mostCells ≤ done.length → q.1 = .failed)) := by
  refine ensures_bind (growWlineParser_spec junk ready le nul) fun q => ensures_pure ?_
  rintro h ⟨served, grown, refused⟩
  refine ⟨served, fun more => ?_, fun most => ?_⟩
  · obtain ⟨ok, ready⟩ := grown more
    rw [ok, if_pos rfl, ready.string nulFree]
    exact ⟨rfl, rfl, _, ready⟩
  · rw [refused (le.antisymm most)]
    rfl

def fileTail : Option Text → Text
  | none => []
  | some rest => '\n' :: rest

/-- A call from any place in a line on. -/
theorem nextLoop_spec (ending : Option Text) {l : Text} (plain : '\n' ∉ l)
    (nulFree : nul ∉ done ++ l) (begun : ending = none → done ++ l ≠ [])
    (ready : Ready false ctx done) (le : done.length ≤ mostCells) :
    Ensures Served (nextLoop junk (l ++ fileTail ending) ctx) (fun q h => Served h ∧
      ((done ++ l).length < mostCells → q.1 = .line (done ++ l) ∧ q.2.2 = ending.getD [] ∧
        ∃ d, Ready ending.isNone q.2.1 d) ∧
      (mostCells ≤ (done ++ l).length → q.1 = .failed)) := by
  induction l generalizing done ctx with
  | nil =>
    rw [List.append_nil] at nulFree begun ⊢
    cases ending with
    | none =>
      have used : ctx.bufused ≠ 0 := by
        rw [ready.used]
        exact fun empty => begun rfl (List.length_eq_zero_iff.mp empty)
      change Ensures Served (if ctx.bufused = 0 then _ else _) _
      rw [if_neg used]
      exact finish_spec junk ready.ended nulFree le []
    | some rest => exact finish_spec junk ready nulFree le rest
  | cons c l ih =>
    have other : c ≠ '\n' := fun same => plain (by simp [same])
    have whole : done ++ [c] ++ l = done ++ c :: l := by simp
    rw [List.cons_append, nextLoop, if_neg other]
    refine ensures_bind (growWlineParser_spec junk ready le c) fun q => ?_
    rcases lt_or_eq_of_le le with more | most
    · refine fun h before => ?_
      obtain ⟨served, grown, -⟩ := before
      obtain ⟨ok, ready⟩ := grown more
      have rest := ih (fun mem => plain (by simp [mem])) (by rwa [whole]) (fun _ => by simp) ready
        (by simpa using more)
      rw [whole] at rest
      simp only [ok, if_true]
      exact rest h served
    · refine ensures_ite (fun ok h before => absurd ok ?_) fun _ h before => ?_
      · rw [before.2.2 most]
        exact Bool.false_ne_true
      · refine ⟨before.1, fun more => ?_, fun _ => rfl⟩
        rw [List.length_append] at more
        omega

end Calls

section Runs

variable (junk : ℕ → Char) {ctx : WlineParserCtx} {done : Text}

/-- Every line is shorter than the buffer can be. -/
def LinesFit (content : Text) : Prop := ∀ line ∈ fileLines content, line.length < mostCells

def ReadsAll (content : Text) (q : List Text × Option NextLine) : Prop :=
  (LinesFit content → q = (fileLines content, some .eof)) ∧
    (¬ LinesFit content → q.2 = some .failed)

theorem nextLines_ended (ready : Ready true ctx done) (calls : ℕ) (h : Heap) :
    (nextLines junk (calls + 1) ctx [] h).1 = ([], some .eof) := by
  have call : wlineParserNext junk ctx [] h = ((.eof, ctx, []), h) := by
    rw [wlineParserNext, if_pos ready.atEof]
    rfl
  rw [nextLines, bind_apply, call]
  rfl

theorem nextLines_line (ending : Option Text) {line : Text} (plain : '\n' ∉ line)
    (nulFree : nul ∉ line) (begun : ending = none → line ≠ []) (ready : Ready false ctx done)
    {calls : ℕ} (others : ∀ {ctx d}, Ready ending.isNone ctx d →
      Ensures Served (nextLines junk calls ctx (ending.getD [])) (fun q _ => ReadsAll (ending.getD []) q))
    (lines : fileLines (line ++ fileTail ending) = line :: fileLines (ending.getD [])) :
    Ensures Served (nextLines junk (calls + 1) ctx (line ++ fileTail ending))
      (fun q _ => ReadsAll (line ++ fileTail ending) q) := by
  have first := nextLoop_spec junk ending plain (by simpa using nulFree) (by simpa using begun)
    ready.reset (Nat.zero_le _)
  rw [nextLines, wlineParserNext, if_neg (by rw [ready.atEof]; exact Bool.false_ne_true)]
  refine ensures_bind first fun q h before => ?_
  obtain ⟨next, ctx', fp⟩ := q
  obtain ⟨served, taken, refused⟩ := before
  rw [ReadsAll, LinesFit, lines, List.forall_mem_cons]
  by_cases more : line.length < mostCells
  · obtain ⟨rfl, rfl, d, ready'⟩ := taken more
    obtain ⟨all, some_⟩ := others ready' h served
    refine ⟨fun fits => ?_, fun unfit => some_ fun fits => unfit ⟨more, fits⟩⟩
    exact congrArg (fun q : List Text × Option NextLine => (line :: q.1, q.2)) (all fits.2)
  · obtain rfl := refused (not_lt.mp more)
    exact ⟨fun fits => absurd fits.1 more, fun _ => rfl⟩

/-- Enough calls read the whole file, or stop at the first line that is too long. -/
theorem nextLines_reads (calls : ℕ) {content : Text} (nulFree : nul ∉ content)
    (enough : (fileLines content).length < calls) (ready : Ready false ctx done) :
    Ensures Served (nextLines junk calls ctx content) (fun q _ => ReadsAll content q) := by
  induction calls generalizing content ctx done with
  | zero => omega
  | succ calls ih =>
    by_cases newline : '\n' ∈ content
    · obtain ⟨line, rest, rfl, plain⟩ := List.eq_append_cons_of_mem newline
      have lines := fileLines_line plain rest
      rw [lines, List.length_cons] at enough
      refine nextLines_line junk (some rest) plain (fun mem => nulFree (by simp [mem]))
        (fun h => by cases h) ready (fun {ctx d} ready' => ?_) lines
      exact @ih ctx d rest (fun mem => nulFree (by simp [mem])) (by omega) ready'
    · by_cases empty : content = []
      · subst empty
        have ended : wlineParserNext junk ctx [] = pure (.eof, { ctx with bufused := 0, eof := true }, []) := by
          rw [wlineParserNext, if_neg (by rw [ready.atEof]; exact Bool.false_ne_true)]
          rfl
        rw [nextLines, ended]
        exact fun h served => ⟨fun _ => rfl, fun unfit => absurd (List.forall_mem_nil _) unfit⟩
      · have lines := fileLines_last empty newline
        rw [lines] at enough
        obtain ⟨calls, rfl⟩ : ∃ n, calls = n + 1 := ⟨calls - 1, by simp at enough; omega⟩
        have ended {ctx : WlineParserCtx} {d : Text} (ready' : Ready true ctx d) :
            Ensures Served (nextLines junk (calls + 1) ctx []) (fun q _ => ReadsAll [] q) := by
          intro h _
          rw [nextLines_ended junk ready']
          exact ⟨fun _ => rfl, fun unfit => absurd (List.forall_mem_nil _) unfit⟩
        have last := nextLines_line junk none newline nulFree (fun _ => empty) ready ended
          (by rwa [fileTail, List.append_nil])
        rwa [fileTail, List.append_nil] at last

end Runs

/-- A file is read as documented when none of its lines is a comment, or too long
for the buffer. -/
theorem wlineParser_filters_iff (iswspace : Char → Bool) {content : Text} (nulFree : nul ∉ content) :
    FiltersComments iswspace content ↔
      ∀ line ∈ fileLines content, ¬ IsComment iswspace line ∧ line.length < 2 ^ 32 - bufsiz := by
  have run (junk : ℕ → Char) (calls : ℕ) (enough : (fileLines content).length < calls) :=
    nextLines_reads junk calls nulFree enough ready_prepare
  constructor
  · intro filters
    have served : Served ⟨[], false⟩ := rfl
    have all := filters (fun _ => nul) ⟨[], false⟩ served _ (Nat.lt_succ_self _)
    obtain ⟨fits, unfit⟩ := run (fun _ => nul) _ (Nat.lt_succ_self _) ⟨[], false⟩ served
    have short : LinesFit content := by
      by_contra long
      rw [all] at unfit
      cases unfit long
    rw [fits short, Prod.mk.injEq, eq_comm, List.filter_eq_self] at all
    exact fun line mem => ⟨by simpa using all.1 line mem, short line mem⟩
  · intro plain junk h served calls enough
    rw [(run junk calls enough h served).1 fun line mem => (plain line mem).2, Prod.mk.injEq, eq_comm,
      List.filter_eq_self]
    exact ⟨fun line mem => by simpa using (plain line mem).1, rfl⟩

theorem wlineParser_filters_word : FiltersComments Parse.isspace ['a'] ↔
    ∀ line ∈ fileLines ['a'], ¬ IsComment Parse.isspace line ∧ line.length < 2 ^ 32 - bufsiz :=
  wlineParser_filters_iff Parse.isspace (by decide)

/-- A comment is returned. -/
theorem wlineParser_returns_comment : ¬ FiltersComments Parse.isspace ['#', '\n'] := by
  intro filters
  have lines : fileLines ['#', '\n'] = [['#']] := @fileLines_line ['#'] (by decide) []
  have enough : (fileLines ['#', '\n']).length < 2 := by simp [lines]
  have served : Served ⟨[], false⟩ := rfl
  have short : LinesFit ['#', '\n'] := by
    rw [LinesFit, lines]
    exact List.forall_mem_singleton.mpr (by decide)
  have all := filters (fun _ => nul) ⟨[], false⟩ served 2 enough
  have run := nextLines_reads (fun _ => nul) 2 (by decide) enough ready_prepare ⟨[], false⟩ served
  rw [run.1 short, lines] at all
  exact absurd all (by decide)

end Libdank.WideLineParser
