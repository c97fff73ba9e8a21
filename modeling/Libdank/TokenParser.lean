import Mathlib.Data.List.TakeWhile
import Libdank.LineParser.Segments

/-! The token parser of `utils/tokenparser.c`, on the lines of the line parser. A
line is what it has in front of its NUL, so the pointer into it is what is left of
the line, until it is moved past the NUL. -/
namespace Libdank.TokenParser
open Requests LineParser

def quote : UInt8 := 0x22

def isalnum (c : UInt8) : Bool :=
  (0x30 ≤ c && c ≤ 0x39) || (0x41 ≤ c && c ≤ 0x5a) || (0x61 ≤ c && c ≤ 0x7a)

def tokenContinuator (c : UInt8) : Bool :=
  isalnum c || c = 0x5f || c = 0x2d || c = 0x2f || c = 0x3a || c = 0x2e || c = 0x40

inductive Lastline where
  | null | left (text : Bytes) | past
deriving DecidableEq, Repr

structure TokenParserCtx where
  lpc : LineParserCtx
  lastret : Pointer Bytes
  lastline : Lastline
deriving DecidableEq, Repr

/-- What a call comes to: a token, NULL from the line parser, NULL for want of
memory, or a look at what lies behind the NUL of the line. -/
inductive NextToken where
  | token (text : Bytes) | ended (line : NextLine) | refused | overrun
deriving DecidableEq, Repr

def handOut (ctx : TokenParserCtx) (text : Bytes) (before after : Lastline) :
    Request (NextToken × TokenParserCtx) := do
  if ← Requests.allocate (text.length + 1) then
    pure (.token text, { ctx with lastret := some text, lastline := after })
  else pure (.refused, { ctx with lastline := before })

/-- The token at the start of `text`. There is none in an empty text, and the
pointer then moves past the NUL. -/
def takeToken (ctx : TokenParserCtx) (text : Bytes) : Request (NextToken × TokenParserCtx) :=
  match text with
  | [] => handOut ctx [] (.left []) .past
  | c :: rest =>
    if c = quote then
      if quote ∈ rest then
        let quoted := rest.takeWhile (· ≠ quote)
        handOut ctx quoted (.left rest) (.left (rest.drop (quoted.length + 1)))
      else pure (.overrun, { ctx with lastline := .left rest })
    else
      let more := if tokenContinuator c then rest.takeWhile tokenContinuator else []
      handOut ctx (c :: more) (.left text) (.left (rest.drop more.length))

def skipSpace : Lastline → Lastline
  | .left text => if trim text = [] then .null else .left (trim text)
  | lastline => lastline

section Calls

variable (junk : ℕ → UInt8) (bufsiz : ℕ)

def tokenParserNext (ctx : TokenParserCtx) (fd : File) :
    Request (NextToken × TokenParserCtx × File) :=
  let ctx := { ctx with lastret := none, lastline := skipSpace ctx.lastline }
  match ctx.lastline with
  | .past => pure (.overrun, ctx, fd)
  | .left text => do
    let (token, ctx) ← takeToken ctx text
    pure (token, ctx, fd)
  | .null => do
    let (line, lpc, fd) ← lineParserNext junk bufsiz ctx.lpc fd
    let ctx := { ctx with lpc := lpc }
    match line with
    | .line text => do
      let (token, ctx) ← takeToken ctx (trim text)
      pure (token, ctx, fd)
    | line => pure (.ended line, ctx, fd)

inductive Stop where
  | usedUp | at_ (next : NextToken) | unfinished
deriving DecidableEq, Repr

def lineTokens : ℕ → TokenParserCtx → File → Request (List Bytes × Stop)
  | 0, _, _ => pure ([], .unfinished)
  | calls + 1, ctx, fd => do
    let (next, ctx, fd) ← tokenParserNext junk bufsiz ctx fd
    match next with
    | .token text =>
      if skipSpace ctx.lastline = .null then pure ([text], .usedUp)
      else do
        let (tokens, stop) ← lineTokens calls ctx fd
        pure (text :: tokens, stop)
    | next => pure ([], .at_ next)

end Calls

/-- The tokens of a line: the text between two quotes, a run of continuators that
cannot be longer, or one other character, with whitespace anywhere between. -/
inductive Munches : Bytes → List Bytes → Prop
  | nothing : Munches [] []
  | space {c : UInt8} {line : Bytes} {tokens : List Bytes} : isspace c = true →
      Munches line tokens → Munches (c :: line) tokens
  | quoted {text line : Bytes} {tokens : List Bytes} : quote ∉ text → Munches line tokens →
      Munches (quote :: (text ++ quote :: line)) (text :: tokens)
  | run {token line : Bytes} {tokens : List Bytes} : token ≠ [] →
      (∀ c ∈ token, tokenContinuator c = true) → (∀ c ∈ line.head?, tokenContinuator c = false) →
      Munches line tokens → Munches (token ++ line) (token :: tokens)
  | single {c : UInt8} {line : Bytes} {tokens : List Bytes} : isspace c = false → c ≠ quote →
      tokenContinuator c = false → Munches line tokens → Munches (c :: line) ([c] :: tokens)

section Delivered

variable (junk : ℕ → UInt8) (bufsiz : ℕ) (lpc : LineParserCtx) (fd : File) (line : Bytes)

def Delivers : Prop :=
  ∃ h, Served h ∧ (lineParserNext junk bufsiz lpc fd h).1.1 = .line line

/-- Whatever requests are served, the calls on that line return its tokens, or the
first of them up to a refused request, and look at nothing behind its NUL. -/
def Tokenizes : Prop :=
  ∀ h, (lineParserNext junk bufsiz lpc fd h).1.1 = .line line →
    ∀ lastret, ∀ calls > line.length + 1,
      ∃ tokens, Munches line tokens ∧
        let q := (lineTokens junk bufsiz calls ⟨lpc, lastret, .null⟩ fd h).1
        q = (tokens, .usedUp) ∨ (q.2 = .at_ .refused ∧ q.1 <+: tokens)

end Delivered

section Steps

def Yields (token : Bytes) (rest : Bytes) (q : NextToken × TokenParserCtx) : Prop :=
  q.1 = .token token ∧ q.2.lastline = .left rest ∨ q.1 = .refused

theorem handOut_yields (ctx : TokenParserCtx) (token : Bytes) (before : Lastline) (rest : Bytes)
    (h : Heap) : Yields token rest (handOut ctx token before (.left rest) h).1 := by
  rw [handOut, bind_apply]
  split_ifs
  · exact .inl ⟨rfl, rfl⟩
  · exact .inr rfl

theorem handOut_served (ctx : TokenParserCtx) (token : Bytes) (before after : Lastline) {h : Heap}
    (served : Served h) :
    (handOut ctx token before after h).1 =
      (.token token, { ctx with lastret := some token, lastline := after }) ∧
      Served (handOut ctx token before after h).2 := by
  obtain ⟨granted, served'⟩ := allocate_served (Nat.succ_ne_zero token.length) h served
  rw [handOut, bind_apply, granted]
  exact ⟨rfl, served'⟩

structure Token (c : UInt8) (line token rest : Bytes) : Prop where
  shorter : rest.length ≤ line.length
  quotes : Even (rest.count quote) ↔ Even ((c :: line).count quote)
  munches : ∀ {tokens}, Munches rest tokens → Munches (c :: line) (token :: tokens)
  taken : ∃ before, ∀ ctx, takeToken ctx (c :: line) = handOut ctx token before (.left rest)

theorem token_quoted {text rest : Bytes} (plain : quote ∉ text) :
    Token quote (text ++ quote :: rest) text rest := by
  have closed : quote ∈ text ++ quote :: rest := by simp
  have quoted : (text ++ quote :: rest).takeWhile (· ≠ quote) = text := by
    have other : ∀ c ∈ text, decide (c ≠ quote) = true := fun c hc =>
      decide_eq_true fun same => plain (same ▸ hc)
    rw [List.takeWhile_append_of_pos other]
    simp
  have behind : (text ++ quote :: rest).drop (text.length + 1) = rest := by
    rw [← List.drop_drop, List.drop_left]
    rfl
  refine ⟨by simp; omega, ?_, fun rest => .quoted plain rest, .left (text ++ quote :: rest), fun ctx => ?_⟩
  · rw [List.count_cons_self, List.count_append, List.count_eq_zero.mpr plain, List.count_cons_self]
    simp [Nat.even_add_one]
  · rw [takeToken, if_pos rfl, if_pos closed, quoted]
    simp only [behind]

theorem token_plain {c : UInt8} {line : Bytes} (solid : isspace c = false) (other : c ≠ quote) :
    ∃ token rest, Token c line token rest := by
  have uncounted : (c :: line).count quote = line.count quote := List.count_cons_of_ne other
  by_cases continues : tokenContinuator c = true
  · let more := line.takeWhile tokenContinuator
    let rest := line.dropWhile tokenContinuator
    have whole : more ++ rest = line := List.takeWhile_append_dropWhile
    have all : ∀ d ∈ c :: more, tokenContinuator d = true := by
      intro d hd
      rcases List.mem_cons.mp hd with rfl | hd
      · exact continues
      · exact List.mem_takeWhile_imp hd
    have plain : (c :: more).count quote = 0 :=
      List.count_eq_zero.mpr fun mem => absurd (all quote mem) (by decide)
    have stops : ∀ d ∈ rest.head?, tokenContinuator d = false := by
      intro d hd
      have head := List.head?_dropWhile_not tokenContinuator line
      rw [show (line.dropWhile tokenContinuator).head? = some d from hd] at head
      simpa using head
    have split : c :: line = c :: more ++ rest := by rw [List.cons_append, whole]
    refine ⟨c :: more, rest, ?_, ?_, fun munches => ?_, .left (c :: line), fun ctx => ?_⟩
    · have := congrArg List.length whole
      rw [List.length_append] at this
      omega
    · rw [split, List.count_append, plain, Nat.zero_add]
    · rw [split]
      exact .run (by simp) all stops munches
    · have behind : line.drop more.length = rest := by
        conv_lhs => rw [← whole, List.drop_left]
      rw [takeToken, if_neg other, if_pos continues]
      simp only [more] at behind
      simp only [behind, more]
  · refine ⟨[c], line, le_rfl, by rw [uncounted], .single solid other (by simpa using continues), ?_⟩
    refine ⟨.left (c :: line), fun ctx => ?_⟩
    rw [takeToken, if_neg other, if_neg continues]
    rfl

theorem token_of_paired {c : UInt8} {line : Bytes} (solid : isspace c = false)
    (paired : Even ((c :: line).count quote)) : ∃ token rest, Token c line token rest := by
  by_cases open_ : c = quote
  · subst open_
    have closed : quote ∈ line := by
      by_contra absent
      rw [List.count_cons_self, List.count_eq_zero.mpr absent] at paired
      exact absurd paired (by decide)
    obtain ⟨text, rest, rfl, plain⟩ := List.eq_append_cons_of_mem closed
    exact ⟨text, rest, token_quoted plain⟩
  · exact token_plain solid open_

end Steps

section Trimming

theorem trim_count_quote (text : Bytes) : (trim text).count quote = text.count quote := by
  induction text with
  | nil => rfl
  | cons c text ih =>
    by_cases blank : isspace c = true
    · have other : c ≠ quote := by
        rintro rfl
        exact absurd blank (by decide)
      rw [trim_cons_space blank, ih, List.count_cons_of_ne other]
    · rw [trim_of_head text (by simpa using blank)]

theorem munches_trim {text : Bytes} {tokens : List Bytes} (munches : Munches (trim text) tokens) :
    Munches text tokens := by
  induction text with
  | nil => exact munches
  | cons c text ih =>
    by_cases blank : isspace c = true
    · rw [trim_cons_space blank] at munches
      exact .space blank (ih munches)
    · rwa [trim_of_head text (by simpa using blank)] at munches

theorem trim_length_le (text : Bytes) : (trim text).length ≤ text.length :=
  (List.dropWhile_sublist _).length_le

theorem isspace_of_trim {text : Bytes} {c : UInt8} {line : Bytes} (first : trim text = c :: line) :
    isspace c = false := by
  have head := List.head?_dropWhile_not isspace text
  rw [show text.dropWhile isspace = c :: line from first] at head
  simpa using head

end Trimming

section Runs

variable (junk : ℕ → UInt8) (bufsiz : ℕ)

def resume (calls : ℕ) (next : NextToken) (ctx : TokenParserCtx) (fd : File) :
    Request (List Bytes × Stop) :=
  match next with
  | .token text =>
    if skipSpace ctx.lastline = .null then pure ([text], .usedUp)
    else do
      let (tokens, stop) ← lineTokens junk bufsiz calls ctx fd
      pure (text :: tokens, stop)
  | next => pure ([], .at_ next)

def tokensFrom (calls : ℕ) (ctx : TokenParserCtx) (fd : File) (text : Bytes) :
    Request (List Bytes × Stop) := do
  let (next, ctx) ← takeToken ctx (trim text)
  resume junk bufsiz calls next ctx fd

theorem lineTokens_succ (calls : ℕ) (ctx : TokenParserCtx) (fd : File) :
    lineTokens junk bufsiz (calls + 1) ctx fd = (do
      let (next, ctx, fd) ← tokenParserNext junk bufsiz ctx fd
      resume junk bufsiz calls next ctx fd) := rfl

theorem lineTokens_left {ctx : TokenParserCtx} {text : Bytes} (left : ctx.lastline = .left text)
    (some_ : trim text ≠ []) (calls : ℕ) (fd : File) :
    lineTokens junk bufsiz (calls + 1) ctx fd =
      tokensFrom junk bufsiz calls { ctx with lastret := none, lastline := .left (trim text) } fd text := by
  rw [lineTokens_succ, tokenParserNext, left, skipSpace, if_neg some_]
  rfl

theorem tokenParserNext_delivered {ctx : TokenParserCtx} (null : ctx.lastline = .null) {fd : File}
    {h : Heap} {line : Bytes}
    (delivered : (lineParserNext junk bufsiz ctx.lpc fd h).1.1 = .line line) :
    ∃ ctx' fd', tokenParserNext junk bufsiz ctx fd h = (do
      let (token, ctx) ← takeToken ctx' (trim line)
      pure (token, ctx, fd')) (lineParserNext junk bufsiz ctx.lpc fd h).2 := by
  rw [tokenParserNext, null, show skipSpace .null = .null from rfl]
  simp only [bind_apply]
  generalize lineParserNext junk bufsiz ctx.lpc fd h = q at delivered
  obtain ⟨⟨next, lpc, fd'⟩, h'⟩ := q
  obtain rfl : next = .line line := delivered
  exact ⟨_, _, rfl⟩

theorem lineTokens_delivered {ctx : TokenParserCtx} (null : ctx.lastline = .null) {fd : File} {h : Heap}
    {line : Bytes} (delivered : (lineParserNext junk bufsiz ctx.lpc fd h).1.1 = .line line) (calls : ℕ) :
    ∃ ctx' fd', lineTokens junk bufsiz (calls + 1) ctx fd h =
      tokensFrom junk bufsiz calls ctx' fd' line (lineParserNext junk bufsiz ctx.lpc fd h).2 := by
  obtain ⟨ctx', fd', call⟩ := tokenParserNext_delivered junk bufsiz null delivered
  refine ⟨ctx', fd', ?_⟩
  rw [lineTokens_succ, bind_apply, call]
  rfl

theorem resume_token {ctx : TokenParserCtx} {rest : Bytes} (left : ctx.lastline = .left rest)
    (calls : ℕ) (token : Bytes) (fd : File) :
    resume junk bufsiz (calls + 1) (.token token) ctx fd =
      if trim rest = [] then pure ([token], .usedUp)
      else (do
        let (tokens, stop) ← tokensFrom junk bufsiz calls
          { ctx with lastret := none, lastline := .left (trim rest) } fd rest
        pure (token :: tokens, stop)) := by
  by_cases blank : trim rest = []
  · rw [if_pos blank, resume, left, skipSpace, if_pos blank, if_pos rfl]
  · rw [if_neg blank, resume, lineTokens_left junk bufsiz left blank, left, skipSpace, if_neg blank,
      if_neg (by simp)]

theorem tokensFrom_paired (calls : ℕ) {text : Bytes} (enough : text.length ≤ calls)
    (some_ : trim text ≠ []) (paired : Even (text.count quote)) (ctx : TokenParserCtx) (fd : File)
    (h : Heap) : ∃ tokens, Munches text tokens ∧
      let q := (tokensFrom junk bufsiz calls ctx fd text h).1
      q = (tokens, .usedUp) ∨ (q.2 = .at_ .refused ∧ q.1 <+: tokens) := by
  induction calls generalizing text ctx fd h with
  | zero =>
    exact absurd (List.length_eq_zero_iff.mp (Nat.le_zero.mp enough)) fun empty => some_ (by rw [empty]; rfl)
  | succ calls ih =>
    obtain ⟨c, line, first⟩ := List.exists_cons_of_ne_nil some_
    rw [← trim_count_quote, first] at paired
    obtain ⟨token, rest, shorter, quotes, munches, before, taken⟩ :=
      token_of_paired (isspace_of_trim first) paired
    have short : rest.length ≤ calls := by
      have := trim_length_le text
      rw [first, List.length_cons] at this
      omega
    have whole {tokens : List Bytes} (m : Munches rest tokens) : Munches text (token :: tokens) :=
      munches_trim (first ▸ munches m)
    rw [tokensFrom, first, taken, bind_apply]
    have yields := handOut_yields ctx token before rest h
    generalize handOut ctx token before (.left rest) h = q at yields
    obtain ⟨⟨next, ctx'⟩, h'⟩ := q
    by_cases blank : trim rest = []
    · have none_ : Munches rest [] := munches_trim (blank ▸ .nothing)
      refine ⟨[token], whole none_, ?_⟩
      rcases yields with ⟨rfl, left⟩ | rfl
      · refine .inl ?_
        change (resume junk bufsiz (calls + 1) (.token token) ctx' fd h').1 = _
        rw [resume_token junk bufsiz left, if_pos blank]
        rfl
      · exact .inr ⟨rfl, List.nil_prefix⟩
    · obtain ⟨tokens, m, run⟩ := ih short blank (quotes.mpr paired)
        { ctx' with lastret := none, lastline := .left (trim rest) } fd h'
      refine ⟨token :: tokens, whole m, ?_⟩
      rcases yields with ⟨rfl, left⟩ | rfl
      · generalize again : (tokensFrom junk bufsiz calls
          { ctx' with lastret := none, lastline := .left (trim rest) } fd rest h').1 = r at run
        have step : (resume junk bufsiz (calls + 1) (.token token) ctx' fd h').1 =
            (token :: r.1, r.2) := by
          rw [resume_token junk bufsiz left, if_neg blank, ← again]
          rfl
        rcases run with rfl | ⟨stopped, begins⟩
        · exact .inl step
        · refine .inr ⟨(congrArg Prod.snd step).trans stopped, ?_⟩
          exact (congrArg Prod.fst step).symm ▸ List.cons_prefix_cons.mpr ⟨rfl, begins⟩
      · exact .inr ⟨rfl, List.nil_prefix⟩

theorem even_count_of_blank {text : Bytes} (blank : trim text = []) : Even (text.count quote) := by
  rw [← trim_count_quote, blank]
  exact Even.zero

theorem tokensFrom_unpaired (calls : ℕ) {text : Bytes} (enough : text.length ≤ calls)
    (unpaired : ¬ Even (text.count quote)) (ctx : TokenParserCtx) (fd : File) {h : Heap}
    (served : Served h) : (tokensFrom junk bufsiz calls ctx fd text h).1.2 = .at_ .overrun := by
  induction calls generalizing text ctx fd h with
  | zero =>
    rw [List.length_eq_zero_iff.mp (Nat.le_zero.mp enough)] at unpaired
    exact absurd Even.zero unpaired
  | succ calls ih =>
    obtain ⟨c, line, first⟩ := List.exists_cons_of_ne_nil (mt even_count_of_blank unpaired)
    rw [← trim_count_quote, first] at unpaired
    by_cases open_ : c = quote ∧ quote ∉ line
    · rw [tokensFrom, first, takeToken, if_pos open_.1, if_neg open_.2]
      rfl
    · obtain ⟨token, rest, shorter, quotes, -, before, taken⟩ :
          ∃ token rest, Token c line token rest := by
        by_cases same : c = quote
        · subst same
          obtain ⟨inside, rest, rfl, plain⟩ :=
            List.eq_append_cons_of_mem (not_not.mp fun absent => open_ ⟨rfl, absent⟩)
          exact ⟨inside, rest, token_quoted plain⟩
        · exact token_plain (isspace_of_trim first) same
      have short : rest.length ≤ calls := by
        have := trim_length_le text
        rw [first, List.length_cons] at this
        omega
      have odd : ¬ Even (rest.count quote) := mt quotes.mp unpaired
      obtain ⟨granted, served'⟩ := handOut_served ctx token before (.left rest) served
      rw [tokensFrom, first, taken, bind_apply, granted]
      change (resume junk bufsiz (calls + 1) (.token token) _ fd _).1.2 = _
      rw [resume_token junk bufsiz rfl, if_neg (mt even_count_of_blank odd)]
      exact ih short odd _ fd served'

theorem tokensFrom_blank (calls : ℕ) {text : Bytes} (blank : trim text = []) (ctx : TokenParserCtx)
    (fd : File) {h : Heap} (served : Served h) :
    (tokensFrom junk bufsiz (calls + 1) ctx fd text h).1.2 = .at_ .overrun := by
  obtain ⟨granted, -⟩ := handOut_served ctx [] (.left []) .past served
  rw [tokensFrom, blank, takeToken, bind_apply, granted]
  rfl

end Runs

section Lines

variable (junk : ℕ → UInt8) (bufsiz : ℕ)

theorem allocate_keeps (bytes : ℕ) : Ensures Served (allocate bytes) (fun _ h => Served h) :=
  ensures_ite (fun _ => ensures_pure fun _ served => served)
    fun _ => request_served.mono (fun _ served => served) fun _ _ post => post.2

theorem makeRoom_keeps (ctx : LineParserCtx) :
    Ensures Served (makeRoom junk bufsiz ctx) (fun _ h => Served h) := by
  have same (q : Bool × LineParserCtx) :
      Ensures Served (pure q : Request (Bool × LineParserCtx)) (fun _ h => Served h) :=
    ensures_pure fun _ served => served
  exact ensures_ite (fun _ => ensures_bind (allocate_keeps _) fun _ => ensures_ite (fun _ => same _)
    fun _ => same _) fun _ => ensures_ite (fun _ => same _) fun _ => ensures_ite (fun _ => same _)
    fun _ => same _

theorem nextLoop_keeps (passes : ℕ) (ctx : LineParserCtx) (fd : File) (examined : ℕ) :
    Ensures Served (nextLoop junk bufsiz passes ctx fd examined) (fun _ h => Served h) := by
  induction passes generalizing ctx fd examined with
  | zero => exact ensures_pure fun _ served => served
  | succ passes ih =>
    have refills : Ensures Served (refillAt junk bufsiz examined ctx fd) (fun _ h => Served h) :=
      ensures_ite (fun _ => ensures_bind (makeRoom_keeps junk bufsiz ctx)
        fun _ => ensures_pure fun _ served => served) fun _ => ensures_pure fun _ served => served
    refine ensures_ite (fun _ => ensures_bind refills fun q => ?_)
      fun _ => ensures_pure fun _ served => served
    obtain ⟨refilled, ctx, fd⟩ := q
    cases refilled with
    | failed => exact ensures_pure fun _ served => served
    | ended => exact ensures_pure fun _ served => served
    | more =>
      dsimp only
      generalize scan ctx examined = looked
      obtain ⟨line, ctx, examined⟩ := looked
      cases line with
      | some line => exact ensures_pure fun _ served => served
      | none => exact ih ctx fd examined

theorem lineParserNext_served (lpc : LineParserCtx) (fd : File) :
    Ensures Served (lineParserNext junk bufsiz lpc fd) (fun _ h => Served h) :=
  nextLoop_keeps junk bufsiz _ lpc fd 0

variable {junk bufsiz} {lpc : LineParserCtx} {fd : File} {line : Bytes}

theorem tokenizes_of_paired (some_ : trim line ≠ []) (paired : Even (line.count quote)) :
    Tokenizes junk bufsiz lpc fd line := by
  intro h next lastret calls enough
  obtain ⟨calls, rfl⟩ : ∃ n, calls = n + 1 := ⟨calls - 1, by omega⟩
  obtain ⟨ctx', fd', run⟩ := @lineTokens_delivered junk bufsiz ⟨lpc, lastret, .null⟩ rfl fd h line
    next calls
  rw [run]
  exact tokensFrom_paired junk bufsiz calls (by omega) some_ paired ctx' fd' _

theorem not_tokenizes (delivered : Delivers junk bufsiz lpc fd line)
    (bad : trim line = [] ∨ ¬ Even (line.count quote)) : ¬ Tokenizes junk bufsiz lpc fd line := by
  intro tokenizes
  obtain ⟨h, served, next⟩ := delivered
  have served' := lineParserNext_served junk bufsiz lpc fd h served
  obtain ⟨tokens, -, run⟩ := tokenizes h next none (line.length + 2) (by omega)
  obtain ⟨ctx', fd', calls⟩ := @lineTokens_delivered junk bufsiz ⟨lpc, none, .null⟩ rfl fd h line
    next (line.length + 1)
  have overrun : (tokensFrom junk bufsiz (line.length + 1) ctx' fd' line
      (lineParserNext junk bufsiz lpc fd h).2).1.2 = .at_ .overrun := by
    rcases bad with blank | unpaired
    · exact tokensFrom_blank junk bufsiz line.length blank ctx' fd' served'
    · exact tokensFrom_unpaired junk bufsiz _ (Nat.le_succ _) unpaired ctx' fd' served'
  rw [calls] at run
  rcases run with run | ⟨stopped, -⟩
  · rw [run] at overrun
    cases overrun
  · rw [stopped] at overrun
    cases overrun

/-- The tokens of a delivered line are read off as they should be where the line
has a token at all and its quotes are paired. -/
theorem tokenizes_iff (delivered : Delivers junk bufsiz lpc fd line) :
    Tokenizes junk bufsiz lpc fd line ↔
      (∃ c ∈ line, isspace c = false) ∧ Even (line.count quote) := by
  have some_ : (∃ c ∈ line, isspace c = false) ↔ trim line ≠ [] := by
    rw [Ne, trim_eq_nil_iff]
    simp
  rw [some_]
  refine ⟨fun tokenizes => by_contra fun bad => ?_, fun good => tokenizes_of_paired good.1 good.2⟩
  rw [not_and_or, not_not] at bad
  exact not_tokenizes delivered bad tokenizes

def startOf (bufsiz : ℕ) : LineParserCtx :=
  ⟨Buffers.regrow (fun _ => 0) [] bufsiz, 0, bufsiz, 0, false⟩

theorem delivers_word : Delivers (fun _ => 0) 4 (startOf 4) ⟨[0x61, newline], []⟩ [0x61] :=
  ⟨⟨[], false⟩, rfl, by decide⟩

theorem tokenizes_word : Tokenizes (fun _ => 0) 4 (startOf 4) ⟨[0x61, newline], []⟩ [0x61] ↔
    (∃ c ∈ [(0x61 : UInt8)], isspace c = false) ∧ Even ([(0x61 : UInt8)].count quote) :=
  tokenizes_iff delivers_word

/-- A line that is one quote. -/
theorem open_quote_overruns :
    Delivers (fun _ => 0) 4 (startOf 4) ⟨[quote, newline], []⟩ [quote] ∧
      ¬ Tokenizes (fun _ => 0) 4 (startOf 4) ⟨[quote, newline], []⟩ [quote] := by
  have delivered : Delivers (fun _ => 0) 4 (startOf 4) ⟨[quote, newline], []⟩ [quote] :=
    ⟨⟨[], false⟩, rfl, by decide⟩
  exact ⟨delivered, not_tokenizes delivered (.inr (by decide))⟩

end Lines

end Libdank.TokenParser
