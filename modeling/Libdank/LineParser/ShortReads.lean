import Libdank.LineParser.Outcomes

/-! Descriptors that return less than they are asked for. The parser takes a short
read for the end of the file, so that how a text is split into reads decides how
much of it is looked at; the lines agree only for texts of which nothing is
delivered after the first byte. -/
namespace Libdank.LineParser
open Buffers Requests

/-- A descriptor whose first reads return one more byte than the numbers given, as
far as they are asked for and there are as many. -/
def splitFile (text : Bytes) (reads : List ℕ) : File := ⟨text, reads.map .data⟩

/-- Nothing is delivered of the text but its first byte, at most. -/
def Uniform (text : Bytes) : Prop :=
  text.length ≤ 1 ∨ Barren text ∨ ∃ c rest, text = c :: newline :: rest ∧ isspace c = false ∧
    c ≠ hash ∧ c ≠ backslash ∧ Barren rest

def opened (junk : ℕ → UInt8) (bufsiz : ℕ) : LineParserCtx :=
  ⟨regrow junk [] bufsiz, 0, bufsiz, 0, false⟩

def firstRead (bufsiz : ℕ) : List ℕ → ℕ
  | [] => bufsiz - 1
  | more :: _ => min (more + 1) (bufsiz - 1)

theorem splitFile_quiet {text : Bytes} (nul : 0 ∉ text) (reads : List ℕ) :
    Quiet (splitFile text reads) := by
  refine ⟨fun a mem => ?_, nul⟩
  obtain ⟨more, -, rfl⟩ := List.mem_map.mp mem
  exact fun same => nomatch same

theorem opened_holds (junk : ℕ → UInt8) {bufsiz : ℕ} (large : 2 ≤ bufsiz) :
    Holds (opened junk bufsiz) [] :=
  ⟨length_regrow junk [] (Nat.zero_le _), large, by simp only [opened]; omega, slice_zero _ _, by simp,
    fun some_ => absurd rfl some_⟩

theorem parseLines_opened (junk : ℕ → UInt8) {bufsiz : ℕ} (large : 2 ≤ bufsiz) (calls : ℕ) (fd : File)
    {post : List Bytes → Prop}
    (lines : Ensures Served (nextLines junk bufsiz calls (opened junk bufsiz) fd) fun l _ => post l) :
    Ensures Served (parseLines junk bufsiz calls fd) (fun l _ => post l) := by
  refine ensures_bind (prepareLineParser_served junk (by omega)) fun r s hs => ?_
  obtain ⟨hs, rfl⟩ := hs
  exact lines s hs

theorem ne_newline {c : UInt8} (solid : isspace c = false) : newline ≠ c := by
  rintro rfl
  cases solid

theorem clean_byte {c : UInt8} (solid : isspace c = false) : newline ∉ [c] :=
  fun mem => ne_newline solid (List.mem_singleton.mp mem)

theorem barren_byte_iff {c : UInt8} : Barren [c] ↔ isspace c = true ∨ c = hash := by
  rw [Barren, modeAfter_cons, Mode.next]
  split_ifs with blank starts
  · exact iff_of_true (by decide) (.inl blank)
  · exact iff_of_true (by decide) (.inr starts)
  · exact iff_of_false (by decide) (not_or.mpr ⟨blank, starts⟩)

section scans
variable {ctx : LineParserCtx} {data : Bytes}

theorem skipWhitespace_solid {c : UInt8} {rest : Bytes} (h : Holds ctx (c :: rest))
    (solid : isspace c = false) : skipWhitespace (ctx.count + 2) none ctx = ctx := by
  obtain ⟨n, le, trimmed, result⟩ := skipWhitespace_holds (ctx.count + 2) h (by omega)
  rw [trim_of_head rest solid] at trimmed
  have len := congrArg List.length trimmed
  rw [List.length_drop, List.length_cons] at len
  obtain rfl : n = 0 := by omega
  rw [result]
  rfl

theorem Holds.nonempty {c : UInt8} {rest : Bytes} (h : Holds ctx (c :: rest)) : ctx.count ≠ 0 := by
  rw [← h.length]
  simp

section ends
variable {c : UInt8} {rest : Bytes} {ctx' : LineParserCtx} {e : ℕ}

theorem scan_found (h : Holds ctx (c :: rest)) (solid : isspace c = false) {end_ : ℕ}
    (found : findEnd (ctx.count + 1) ctx 0 = (some end_, ctx', e)) :
    scan ctx 0 = ((takeLine ctx' end_).1, (takeLine ctx' end_).2, 0) := by
  simp only [scan, if_true, true_and, skipWhitespace_solid h solid, if_neg h.nonempty, found]

theorem scan_unfound (h : Holds ctx (c :: rest)) (solid : isspace c = false)
    (found : findEnd (ctx.count + 1) ctx 0 = (none, ctx', e)) :
    scan ctx 0 = (none, ctx', ctx'.count) := by
  simp only [scan, if_true, true_and, skipWhitespace_solid h solid, if_neg h.nonempty, found]

theorem scan_open (h : Holds ctx (c :: rest)) (solid : isspace c = false)
    (clean : newline ∉ c :: rest) : scan ctx 0 = (none, ctx, ctx.count) :=
  scan_unfound h solid (findEnd_none h h.nonempty (Nat.zero_le _) clean _)

end ends

theorem scan_byte {c : UInt8} {rest : Bytes} (h : Holds ctx (c :: newline :: rest))
    (solid : isspace c = false) (other : c ≠ hash) (straight : c ≠ backslash) :
    ∃ ctx', scan ctx 0 = (some [c], ctx', 0) ∧ Holds ctx' rest ∧ ctx'.eof = ctx.eof := by
  have len := h.length
  have size := h.size
  have fits := h.fits
  simp only [List.length_cons] at len
  have some_ : ctx.count ≠ 0 := by omega
  have here : ctx.buf.getD ctx.base 0 = c := (Option.some.inj (h.head some_)).symm
  have ends : continuation ctx.buf ctx.base 1 = none := by
    simp only [continuation, Nat.add_zero, here, if_neg straight, solid]
    rfl
  have found := (@findEnd_newline ctx [c] rest h 0 (Nat.zero_le _) (clean_byte solid) ctx.count).1 ends
  have comment : ¬ isComment ctx.buf ctx.base = true := fun starts =>
    other (Option.some.inj ((h.isComment some_).mp starts))
  have front : slice ctx.buf ctx.base 1 = [c] := @Holds.front ctx [c] _ h
  have string : cstring (ctx.buf.set (ctx.base + 1) 0) ctx.base = [c] := by
    have same : slice (ctx.buf.set (ctx.base + 1) 0) ctx.base 1 = [c] := by
      rw [slice_set_after _ _ _ _ le_rfl, front]
    rw [cstring_eq, same]
    · rw [same]
      exact fun mem => h.live (List.mem_singleton.mp mem ▸ .head _)
    · exact List.getElem?_set_self (by omega)
  refine ⟨{ ctx with buf := ctx.buf.set (ctx.base + 1) 0, count := ctx.count - 2, base := ctx.base + 2 },
    ?_, ?_, rfl⟩
  · rw [scan_found h solid found]
    simp only [takeLine, List.length_singleton, Nat.add_sub_cancel_left, if_neg comment, string]
  · have gone := @Holds.advance _ _ h 2 (by omega)
    have before (n : ℕ) : slice (ctx.buf.set (ctx.base + 1) 0) (ctx.base + 2) n =
        slice ctx.buf (ctx.base + 2) n := by
      rw [slice, List.drop_set, if_pos (by omega), slice]
    refine ⟨by rw [List.length_set, size], gone.room, gone.fits, ?_, gone.live, fun some_ => ?_⟩
    · exact (before _).trans gone.held
    · rw [List.getElem?_set_ne (by simp only; omega)]
      exact gone.nul some_

theorem scan_joined (h : Holds ctx [backslash, newline]) :
    ∃ ctx', scan ctx 0 = (none, ctx', ctx'.count) ∧ Holds ctx' [space, space] ∧ ctx'.eof = ctx.eof := by
  have len : 2 = ctx.count := h.length
  have some_ : ctx.count ≠ 0 := by omega
  have here : ctx.buf.getD ctx.base 0 = backslash := (Option.some.inj (h.head some_)).symm
  have joins : continuation ctx.buf ctx.base 1 = some ctx.base := by
    simp only [continuation, Nat.add_zero, here, if_true]
  have found := (@findEnd_newline ctx [backslash] [] h 0 (Nat.zero_le _) (by decide) ctx.count).2 _ joins
  have spaced := (@Holds.set ctx _ h 0 (by omega) space (by decide)).set
    (show 1 < ctx.count by omega) (show space ≠ 0 by decide)
  have rest := @findEnd_none _ _ spaced some_ 1 (show 1 ≤ ctx.count by omega) (by decide) (ctx.count - 1)
  rw [Nat.sub_add_cancel (by omega)] at rest
  exact ⟨_, scan_unfound h rfl (found.trans rest), spaced, rfl⟩

theorem nextLoop_last (junk : ℕ → UInt8) (bufsiz passes : ℕ) (fd : File) (h : Holds ctx data)
    (ended : ctx.eof = true) (some_ : data ≠ []) (other : data.head? ≠ some hash) :
    nextLoop junk bufsiz (passes + 1) ctx fd ctx.count = pure (.line data, { ctx with count := 0 }, fd) := by
  have count : ctx.count ≠ 0 := fun zero => some_ (List.length_eq_zero_iff.mp (h.length.trans zero))
  have string : cstring ctx.buf ctx.base = data := h.cstring count (Nat.zero_le _)
  rw [nextLoop, if_neg (by simp [ended]), lastLine,
    if_pos ⟨count, fun starts => other ((h.isComment count).mp starts)⟩, string]

end scans

section lines
variable (junk : ℕ → UInt8) {bufsiz : ℕ} {text : Bytes}

def afterFirst (bufsiz : ℕ) (text : Bytes) (reads : List ℕ) : File :=
  ⟨text.drop (firstRead bufsiz reads), (reads.map Arrival.data).tail⟩

theorem afterFirst_quiet (nul : 0 ∉ text) (reads : List ℕ) : Quiet (afterFirst bufsiz text reads) :=
  ⟨fun a mem => (splitFile_quiet nul reads).sound a (List.mem_of_mem_tail mem),
    fun mem => nul (List.mem_of_mem_drop mem)⟩

theorem lineParserNext_opened (large : 2 ≤ bufsiz) (nul : 0 ∉ text) (some_ : text ≠ []) (reads : List ℕ)
    {post : NextLine × LineParserCtx × File → Heap → Prop}
    (later : ∀ ctx passes, Holds ctx (text.take (firstRead bufsiz reads)) →
      ctx.eof = decide ((text.take (firstRead bufsiz reads)).length < bufsiz - 1) →
      4 * (afterFirst bufsiz text reads).rest.length + 2 * ctx.count < passes →
      Ensures Served (match scan ctx 0 with
        | (some line, ctx, _) => pure (.line line, ctx, afterFirst bufsiz text reads)
        | (none, ctx, examined) =>
          nextLoop junk bufsiz passes ctx (afterFirst bufsiz text reads) examined) post) :
    Ensures Served (lineParserNext junk bufsiz (opened junk bufsiz) (splitFile text reads)) post := by
  have room : makeRoom junk bufsiz (opened junk bufsiz) = pure (true, opened junk bufsiz) := by
    have other : (opened junk bufsiz).count ≠ (opened junk bufsiz).total - 1 := by
      simp only [opened]
      omega
    rw [makeRoom, if_neg other]
    rfl
  have first : Ensures Served (refill junk bufsiz (opened junk bufsiz) (splitFile text reads))
      (fun q s => q = receive (opened junk bufsiz) (splitFile text reads) ∧ Served s) := by
    rw [refill, room]
    exact fun s hs => ⟨rfl, hs⟩
  have longer := List.length_pos_of_ne_nil some_
  have pos : 0 < firstRead bufsiz reads ∧ firstRead bufsiz reads ≤ bufsiz - 1 := by
    cases reads <;> simp only [firstRead] <;> omega
  have result : read (splitFile text reads) (bufsiz - 0 - 1) =
      (some (text.take (firstRead bufsiz reads)), afterFirst bufsiz text reads) := by
    cases reads <;> rfl
  have got : (text.take (firstRead bufsiz reads)).length = min (firstRead bufsiz reads) text.length :=
    List.length_take
  have taken : text.take (firstRead bufsiz reads) ≠ [] := fun nil => by
    rw [nil, List.length_nil] at got
    omega
  obtain ⟨ctx, received, holds, eof⟩ := @receive_more (opened junk bufsiz) [] (splitFile text reads)
    (afterFirst bufsiz text reads) (length_regrow junk [] (Nat.zero_le _)) rfl
    (show 0 + 1 < bufsiz by omega) (slice_zero _ _) (by simp) rfl _ taken
    (fun mem => nul (List.mem_of_mem_take mem)) (show _ ≤ bufsiz - 0 - 1 by omega) result
  have len := holds.length
  rw [List.nil_append] at holds len
  rw [lineParserNext, nextLoop, if_pos (.inr rfl), refillAt,
    if_pos (show (opened junk bufsiz).count = 0 from rfl)]
  refine ensures_bind first fun q s hs => ?_
  obtain ⟨rfl, hs⟩ := hs
  rw [received]
  refine later ctx _ holds eof ?_ s hs
  simp only [afterFirst, splitFile, opened, List.length_drop]
  omega

theorem nextLines_succ {ctx : LineParserCtx} {fd : File} (calls : ℕ) {post : List Bytes → Prop}
    (first : Ensures Served (lineParserNext junk bufsiz ctx fd) (fun q s => Served s ∧
      ((q.1 = .eof ∧ post []) ∨ ∃ line, q.1 = .line line ∧
        Ensures Served (nextLines junk bufsiz calls q.2.1 q.2.2) fun tail _ => post (line :: tail)))) :
    Ensures Served (nextLines junk bufsiz (calls + 1) ctx fd) (fun lines _ => post lines) := by
  refine ensures_bind first fun ⟨line, ctx', fd'⟩ s hs => ?_
  obtain ⟨hs, ⟨rfl, nil⟩ | ⟨line, rfl, tail⟩⟩ := hs
  · exact nil
  · exact tail s hs

theorem parseLines_barren (large : 2 ≤ bufsiz) (nul : 0 ∉ text) (barren : Barren text) (reads : List ℕ)
    (calls : ℕ) : Ensures Served (parseLines junk bufsiz calls (splitFile text reads))
      (fun lines _ => lines = []) :=
  parseLines_opened junk large calls _
    (nextLines_barren junk bufsiz (by omega) (opened_holds junk large) (splitFile_quiet nul reads) barren calls)

theorem parseLines_begun (large : 2 ≤ bufsiz) (nul : 0 ∉ text) (begun : ¬ Barren text) (calls : ℕ) :
    Ensures Served (parseLines junk bufsiz (calls + 1) (splitFile text [])) (fun lines _ => lines ≠ []) :=
  parseLines_opened junk large (calls + 1) _
    (nextLines_due junk bufsiz (by omega) (opened_holds junk large) (splitFile_quiet nul []) rfl begun calls)

theorem parseLines_short_barren (large : 2 ≤ bufsiz) (nul : 0 ∉ text) (some_ : text ≠ []) {more : ℕ}
    (short : (text.take (firstRead bufsiz [more])).length < bufsiz - 1)
    (barren : Barren (text.take (firstRead bufsiz [more]))) (calls : ℕ) :
    Ensures Served (parseLines junk bufsiz calls (splitFile text [more])) (fun lines _ => lines = []) := by
  refine parseLines_opened junk large calls _ ?_
  cases calls with
  | zero => exact ensures_pure fun s hs => rfl
  | succ calls =>
    refine nextLines_succ junk calls (lineParserNext_opened junk large nul some_ [more] ?_)
    intro ctx passes holds eof enough
    have fresh : 0 < ctx.count := by
      have len := holds.length
      have longer := List.length_pos_of_ne_nil some_
      rw [List.length_take] at len
      simp only [firstRead] at len
      omega
    have none_ : ¬ Due 0 (text.take (firstRead bufsiz [more])) (left ctx (afterFirst bufsiz text [more])) := by
      rw [left, if_pos (eof.trans (decide_eq_true short))]
      simpa [Due, Barren] using barren
    refine (scan_concludes (nextLoop_concludes junk bufsiz (by omega) passes) ⟨holds, Nat.zero_le _, by simp⟩
      fresh (afterFirst_quiet nul [more]) enough).mono (fun _ h => h) fun q s hs => ?_
    exact ⟨hs.1, .inl ⟨hs.2.1 none_, rfl⟩⟩

theorem parseLines_last (large : 2 ≤ bufsiz) (nul : 0 ∉ text) (some_ : text ≠ []) {reads : List ℕ}
    {line : Bytes} (short : (text.take (firstRead bufsiz reads)).length < bufsiz - 1) (begun : line ≠ [])
    (other : line.head? ≠ some hash)
    (scans : ∀ ctx, Holds ctx (text.take (firstRead bufsiz reads)) →
      ∃ ctx', scan ctx 0 = (none, ctx', ctx'.count) ∧ Holds ctx' line ∧ ctx'.eof = ctx.eof) (calls : ℕ) :
    Ensures Served (parseLines junk bufsiz (calls + 1) (splitFile text reads))
      (fun lines _ => lines = [line]) := by
  refine parseLines_opened junk large (calls + 1) _ (nextLines_succ junk calls
    (lineParserNext_opened junk large nul some_ reads ?_))
  intro ctx passes holds eof enough
  obtain ⟨ctx', scanned, holds', eof'⟩ := scans ctx holds
  have ended : ctx'.eof = true := (eof'.trans eof).trans (decide_eq_true short)
  obtain ⟨passes, rfl⟩ : ∃ k, passes = k + 1 := ⟨passes - 1, by omega⟩
  rw [scanned]
  simp only
  rw [nextLoop_last junk bufsiz passes _ holds' ended begun other]
  refine ensures_pure fun s hs => ⟨hs, .inr ⟨line, rfl, ?_⟩⟩
  refine (@nextLines_finished { ctx' with count := 0 } _ junk bufsiz calls ⟨rfl, ended⟩).mono
    (fun _ h => h) fun tail s nil => ?_
  rw [nil]

theorem parseLines_unended (large : 2 ≤ bufsiz) (nul : 0 ∉ text) {reads : List ℕ} {c : UInt8} {line : Bytes}
    (got : text.take (firstRead bufsiz reads) = c :: line) (short : (c :: line).length < bufsiz - 1)
    (solid : isspace c = false) (other : c ≠ hash) (clean : newline ∉ c :: line) (calls : ℕ) :
    Ensures Served (parseLines junk bufsiz (calls + 1) (splitFile text reads))
      (fun lines _ => lines = [c :: line]) := by
  have some_ : text ≠ [] := by
    rintro rfl
    simp at got
  refine @parseLines_last junk _ _ large nul some_ _ (c :: line) (got ▸ short) (by simp)
    (fun same => other (Option.some.inj same)) (fun ctx holds => ?_) calls
  rw [got] at holds
  exact ⟨ctx, scan_open holds solid clean, holds, rfl⟩

theorem parseLines_byte (large : 2 ≤ bufsiz) {c : UInt8} {rest : Bytes} (nul : 0 ∉ c :: newline :: rest)
    (solid : isspace c = false) (other : c ≠ hash) (straight : c ≠ backslash) {reads : List ℕ} {n : ℕ}
    (more : firstRead bufsiz reads = n + 2) (calls : ℕ) {post : List Bytes → Prop}
    (later : ∀ ctx, Holds ctx (rest.take n) →
      ctx.eof = decide (((c :: newline :: rest).take (n + 2)).length < bufsiz - 1) →
      Ensures Served (nextLines junk bufsiz calls ctx (afterFirst bufsiz (c :: newline :: rest) reads))
        (fun tail _ => post ([c] :: tail))) :
    Ensures Served (parseLines junk bufsiz (calls + 1) (splitFile (c :: newline :: rest) reads))
      (fun lines _ => post lines) := by
  refine parseLines_opened junk large (calls + 1) _ (nextLines_succ junk calls
    (lineParserNext_opened junk large nul (by simp) reads ?_))
  intro ctx passes holds eof enough
  rw [more] at holds eof
  obtain ⟨ctx', scanned, holds', eof'⟩ := scan_byte holds solid other straight
  rw [scanned]
  exact ensures_pure fun s hs => ⟨hs, .inr ⟨[c], rfl, later ctx' holds' (eof'.trans eof)⟩⟩

theorem parseLines_byte_barren (large : 4 ≤ bufsiz) {c : UInt8} {rest : Bytes}
    (nul : 0 ∉ c :: newline :: rest) (solid : isspace c = false) (other : c ≠ hash)
    (straight : c ≠ backslash) (barren : Barren rest) (reads : List ℕ) (calls : ℕ) :
    Ensures Served (parseLines junk bufsiz (calls + 1) (splitFile (c :: newline :: rest) reads))
      (fun lines _ => lines = [[c]]) := by
  have pos : 0 < firstRead bufsiz reads := by
    cases reads <;> simp only [firstRead] <;> omega
  by_cases single : firstRead bufsiz reads = 1
  · refine parseLines_unended junk (by omega) nul (by rw [single]; rfl) ?_ solid other
      (clean_byte solid) calls
    rw [List.length_singleton]
    omega
  · obtain ⟨n, more⟩ : ∃ n, firstRead bufsiz reads = n + 2 := ⟨firstRead bufsiz reads - 2, by omega⟩
    refine parseLines_byte junk (by omega) nul solid other straight more calls fun ctx holds eof => ?_
    have quiet := @afterFirst_quiet bufsiz (c :: newline :: rest) nul reads
    have shut : Barren (rest.take n ++ left ctx (afterFirst bufsiz (c :: newline :: rest) reads)) := by
      refine mt (fun begun => ?_) barren
      have due := @due_left ctx (rest.take n) 0 _ (.inr begun)
      simpa [Due, afterFirst, more] using due
    refine (nextLines_barren junk bufsiz (by omega) holds quiet shut calls).mono (fun _ h => h)
      fun tail s nil => ?_
    rw [nil]

theorem parseLines_byte_begun (large : 3 ≤ bufsiz) {c : UInt8} {rest : Bytes}
    (nul : 0 ∉ c :: newline :: rest) (solid : isspace c = false) (other : c ≠ hash)
    (straight : c ≠ backslash) (begun : ¬ Barren rest) (calls : ℕ) :
    Ensures Served (parseLines junk bufsiz (calls + 2) (splitFile (c :: newline :: rest) []))
      (fun lines _ => lines ≠ [[c]]) := by
  have more : firstRead bufsiz [] = bufsiz - 3 + 2 := by
    simp only [firstRead]
    omega
  refine parseLines_byte junk (by omega) nul solid other straight more (calls + 1) fun ctx holds eof => ?_
  have quiet := @afterFirst_quiet bufsiz (c :: newline :: rest) nul []
  have all : rest.take (bufsiz - 3) ++ left ctx (afterFirst bufsiz (c :: newline :: rest) []) = rest := by
    rw [left, eof]
    split
    · rename_i short
      have short := of_decide_eq_true short
      rw [List.length_take, List.length_cons, List.length_cons] at short
      rw [List.append_nil, List.take_of_length_le (by omega)]
    · simp only [afterFirst, more, List.drop_succ_cons]
      exact List.take_append_drop _ _
  refine (nextLines_due junk bufsiz (by omega) holds quiet rfl (all.symm ▸ begun) calls).mono
    (fun _ h => h) fun tail s some_ => ?_
  intro same
  exact some_ (List.cons.inj same).2

theorem parseLines_two (large : 4 ≤ bufsiz) {c d : UInt8} {rest : Bytes} (nul : 0 ∉ c :: d :: rest)
    (solid : isspace c = false) (other : c ≠ hash) (longer : d ≠ newline ∨ c = backslash) (calls : ℕ) :
    Ensures Served (parseLines junk bufsiz (calls + 1) (splitFile (c :: d :: rest) [1]))
      (fun lines _ => lines ≠ [[c]]) := by
  have two : firstRead bufsiz [1] = 2 := by
    simp only [firstRead]
    omega
  by_cases ends : d = newline
  · obtain rfl : c = backslash := longer.resolve_left (not_not.mpr ends)
    subst ends
    refine (@parseLines_last junk _ _ (by omega) nul (by simp) _ [space, space] ?_ (by simp) (by decide)
      (fun ctx holds => ?_) calls).mono (fun _ h => h) fun lines s same => ?_
    · rw [two]
      simp only [List.take_succ_cons, List.take_zero, List.length_cons, List.length_nil]
      omega
    · rw [two] at holds
      exact scan_joined holds
    · rw [same]
      simp
  · have clean : newline ∉ [c, d] := by simp [ne_newline solid, Ne.symm ends]
    refine (@parseLines_unended junk _ _ (by omega) nul [1] c [d] (by rw [two]; rfl) ?_ solid other clean
      calls).mono (fun _ h => h) fun lines s same => ?_
    · simp only [List.length_cons, List.length_nil]
      omega
    · rw [same]
      simp

theorem parseLines_none (large : 2 ≤ bufsiz) (reads : List ℕ) :
    Ensures Served (parseLines junk bufsiz 0 (splitFile text reads)) (fun lines _ => lines = []) :=
  parseLines_opened junk large 0 _ (ensures_pure fun _ _ => rfl)

theorem parseLines_uniform (large : 4 ≤ bufsiz) (nul : 0 ∉ text) (uniform : Uniform text) :
    ∃ all, ∀ reads calls, Ensures Served (parseLines junk bufsiz (calls + 1) (splitFile text reads))
      (fun lines _ => lines = all) := by
  by_cases barren : Barren text
  · exact ⟨[], fun reads calls => parseLines_barren junk (by omega) nul barren reads (calls + 1)⟩
  · obtain single | barren' | ⟨c, rest, rfl, solid, other, straight, tail⟩ := uniform
    · obtain ⟨c, rfl⟩ : ∃ c, text = [c] := by
        refine List.length_eq_one_iff.mp (Nat.le_antisymm single (List.length_pos_of_ne_nil ?_))
        rintro rfl
        exact barren (by decide)
      obtain ⟨solid, other⟩ : isspace c = false ∧ c ≠ hash := by
        simpa only [barren_byte_iff, not_or, Bool.not_eq_true] using barren
      refine ⟨[[c]], fun reads calls => parseLines_unended junk (by omega) nul ?_ ?_ solid other
        (clean_byte solid) calls⟩
      · refine List.take_of_length_le ?_
        cases reads <;> simp only [firstRead, List.length_singleton] <;> omega
      · rw [List.length_singleton]
        omega
    · exact absurd barren' barren
    · exact ⟨[[c]], parseLines_byte_barren junk (by omega) nul solid other straight tail⟩

theorem take_one (large : 2 ≤ bufsiz) {c : UInt8} {rest : Bytes} :
    (c :: rest).take (firstRead bufsiz [0]) = [c] := by
  rw [firstRead, Nat.min_eq_left (by omega)]
  rfl

theorem parseLines_one (large : 4 ≤ bufsiz) {c : UInt8} {rest : Bytes} (nul : 0 ∉ c :: rest)
    (solid : isspace c = false) (other : c ≠ hash) (calls : ℕ) :
    Ensures Served (parseLines junk bufsiz (calls + 1) (splitFile (c :: rest) [0]))
      (fun lines _ => lines = [[c]]) := by
  refine parseLines_unended junk (by omega) nul (take_one (by omega)) ?_ solid other
    (clean_byte solid) calls
  rw [List.length_singleton]
  omega

theorem splits_differ (large : 4 ≤ bufsiz) (nul : 0 ∉ text) (mixed : ¬ Uniform text) :
    ∃ first second calls, ∀ h, Served h → (parseLines junk bufsiz calls (splitFile text first) h).1 ≠
      (parseLines junk bufsiz calls (splitFile text second) h).1 := by
  obtain ⟨longer, begun, odd⟩ : 1 < text.length ∧ ¬ Barren text ∧ _ := by
    simpa only [Uniform, not_or, not_le] using mixed
  match text, longer with
  | c :: d :: rest, _ =>
  by_cases plain : isspace c = false ∧ c ≠ hash
  · obtain ⟨solid, other⟩ := plain
    by_cases byte : d = newline ∧ c ≠ backslash
    · -- The line of one byte ends the text, or the second one is lost.
      obtain ⟨rfl, straight⟩ := byte
      have tail : ¬ Barren rest := fun barren => odd ⟨c, rest, rfl, solid, other, straight, barren⟩
      refine ⟨[0], [], 2, fun h served same => ?_⟩
      have lone := parseLines_one junk large nul solid other 1 h served
      exact parseLines_byte_begun junk (by omega) nul solid other straight tail 0 h served (same ▸ lone)
    · refine ⟨[0], [1], 1, fun h served same => ?_⟩
      have lone := parseLines_one junk large nul solid other 0 h served
      have longer : d ≠ newline ∨ c = backslash := by
        by_contra neither
        exact byte (by simpa using neither)
      exact parseLines_two junk large nul solid other longer 0 h served (same ▸ lone)
  · -- The first byte alone is barren, the text is not.
    refine ⟨[0], [], 1, fun h served same => ?_⟩
    have one : (c :: d :: rest).take (firstRead bufsiz [0]) = [c] := take_one (by omega)
    have barren : Barren [c] := by
      by_contra solid
      exact plain (by simpa only [barren_byte_iff, not_or, Bool.not_eq_true] using solid)
    have lost := @parseLines_short_barren junk bufsiz _ (by omega) nul (by simp) 0
      (by rw [one, List.length_singleton]; omega) (one ▸ barren) 1 h served
    exact parseLines_begun junk (by omega) nul begun 0 h served (same ▸ lost)

/-- The lines are the same for any two ways of splitting a text into reads only if
nothing of it is delivered after its first byte. -/
theorem splits_agree_iff (large : 4 ≤ bufsiz) (nul : 0 ∉ text) {h : Heap} (served : Served h) :
    (∀ first second calls, (parseLines junk bufsiz calls (splitFile text first) h).1 =
      (parseLines junk bufsiz calls (splitFile text second) h).1) ↔ Uniform text := by
  refine ⟨fun agree => ?_, fun uniform first second calls => ?_⟩
  · by_contra mixed
    obtain ⟨first, second, calls, differ⟩ := splits_differ junk large nul mixed
    exact differ h served (agree first second calls)
  · obtain ⟨all, lines⟩ := parseLines_uniform junk large nul uniform
    cases calls with
    | zero =>
      have none_ := fun reads => @parseLines_none junk bufsiz text (by omega) reads h served
      exact (none_ first).trans (none_ second).symm
    | succ calls => exact (lines first calls h served).trans (lines second calls h served).symm

end lines

/-- A comment and a blank line. -/
theorem splits_agree_comment :
    (parseLines (fun _ => 0) 8192 2 (splitFile [hash, newline, space] [0]) ⟨[], false⟩).1 =
      (parseLines (fun _ => 0) 8192 2 (splitFile [hash, newline, space] []) ⟨[], false⟩).1 :=
  (@splits_agree_iff (fun _ => 0) 8192 [hash, newline, space] (by decide) (by decide) ⟨[], false⟩ rfl).mpr
    (.inr (.inl (by decide))) [0] [] 2

/-- Of two lines the second is lost if the first read returns one byte. -/
theorem second_line_lost :
    (parseLines (fun _ => 0) 8192 3 (splitFile [0x61, newline, 0x62] []) ⟨[], false⟩).1 = [[0x61], [0x62]] ∧
      (parseLines (fun _ => 0) 8192 3 (splitFile [0x61, newline, 0x62] [0]) ⟨[], false⟩).1 = [[0x61]] := by
  decide +kernel

end Libdank.LineParser
