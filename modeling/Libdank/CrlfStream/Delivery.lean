import Libdank.CrlfStream.Lines

/-! The lines a caller is given are those of the stream, however the stream
arrives: between calls the buffer holds the bytes received and not yet
delivered, and the part of them already examined has no CR LF. -/
namespace Libdank.CrlfStream
open Buffers Requests

/-- The reader holds `data`, received and not yet delivered. -/
structure Holds (r : CrlfReader) (data : Bytes) : Prop where
  buf : ∃ b, r.buf = some b ∧ b.length = r.total ∧ slice b r.base r.count = data
  fits : r.base + r.count ≤ r.total
  room : 0 < r.total
  seen : r.examined ≤ r.count
  clean : Clean data r.examined
  going : r.eof = false

theorem Holds.length {r : CrlfReader} {data : Bytes} (h : Holds r data) :
    data.length = r.count := by
  obtain ⟨b, -, len, rfl⟩ := h.buf
  exact length_slice b _ _ (len ▸ h.fits)

theorem moveDown_spec (buf : Bytes) (base count : ℕ) (fits : base + count ≤ buf.length) :
    slice (moveDown buf base count) 0 count = slice buf base count ∧
      (moveDown buf base count).length = buf.length := by
  have len := length_slice buf base count fits
  have moved : slice (overwrite buf 0 (slice buf base count)) 0 count = slice buf base count ∧
      (overwrite buf 0 (slice buf base count)).length = buf.length := by
    refine ⟨?_, length_overwrite _ _ _ (by omega)⟩
    have := slice_overwrite_start buf (slice buf base count)
    rwa [len] at this
  rw [moveDown]
  split_ifs with overlap apart
  · exact moved
  · exact moved
  · rcases Nat.eq_zero_or_pos count with rfl | pos
    · simp
    · obtain rfl : base = 0 := by
        by_contra nonzero
        exact apart ⟨nonzero, by omega⟩
      exact ⟨rfl, rfl⟩

def Faultless (sd : Socket) : Prop := .fault ∉ sd.arrivals

structure Advances (sd : Socket) (got : Bytes) (sd' : Socket) : Prop where
  wire : got ++ sd'.wire = sd.wire
  arrivals : sd'.arrivals.length ≤ sd.arrivals.length
  faultless : Faultless sd'

theorem Advances.refl {sd : Socket} (h : Faultless sd) : Advances sd [] sd := ⟨rfl, le_rfl, h⟩

theorem take_advances (wire : Bytes) (arrivals : List Arrival) (ret : ℕ) (pos : 0 < ret)
    (h : .fault ∉ arrivals) :
    ∃ got, (Socket.take wire arrivals ret).1 = .bytes got ∧
      Advances ⟨wire, arrivals⟩ got (Socket.take wire arrivals ret).2 ∧ got.length ≤ ret ∧
      (got = [] → wire = []) := by
  refine ⟨wire.take ret, rfl, ⟨List.take_append_drop _ _, le_rfl, h⟩, List.length_take_le _ _, ?_⟩
  intro none
  rcases List.take_eq_nil_iff.mp none with zero | empty
  · omega
  · exact empty

theorem readLoop_spec (tlen : ℕ) (room : 0 < tlen) (wire : Bytes) (arrivals : List Arrival)
    (h : .fault ∉ arrivals) :
    ((readLoop tlen wire arrivals).1 = .again ∧
        (readLoop tlen wire arrivals).2.wire = wire ∧
        (readLoop tlen wire arrivals).2.arrivals.length < arrivals.length ∧
        Faultless (readLoop tlen wire arrivals).2) ∨
      ∃ got, (readLoop tlen wire arrivals).1 = .bytes got ∧
        Advances ⟨wire, arrivals⟩ got (readLoop tlen wire arrivals).2 ∧ got.length ≤ tlen ∧
        (got = [] → wire = []) := by
  induction arrivals with
  | nil => exact .inr (take_advances wire [] tlen room h)
  | cons a arrivals ih =>
    have rest : .fault ∉ arrivals := fun mem => h (List.mem_cons_of_mem _ mem)
    cases a with
    | again => exact .inl ⟨rfl, rfl, by simp [readLoop], rest⟩
    | intr =>
      rcases ih rest with ⟨res, same, fewer, ok⟩ | ⟨got, res, ⟨wires, fewer, ok⟩, len, done⟩
      · exact .inl ⟨res, same, by simp only [readLoop, List.length_cons]; omega, ok⟩
      · exact .inr ⟨got, res, ⟨wires, by simp only [readLoop, List.length_cons] at fewer ⊢; omega, ok⟩,
          len, done⟩
    | fault => simp at h
    | data more =>
      obtain ⟨got, res, ⟨wires, fewer, ok⟩, len, done⟩ :=
        take_advances wire arrivals (min (more + 1) tlen) (by omega) rest
      exact .inr ⟨got, res, ⟨wires, Nat.le_succ_of_le fewer, ok⟩, by omega, done⟩

/-- How an attempt to read more ends for a reader that holds `data`. -/
inductive Filled (r : CrlfReader) (data : Bytes) (sd : Socket) :
    CrlfReadRes × CrlfReader × Socket → Prop
  | blocked {r' sd'} (holds : Holds r' data) (wire : sd'.wire = sd.wire)
      (fewer : sd'.arrivals.length < sd.arrivals.length) (faultless : Faultless sd') :
      Filled r data sd (.nblock, r', sd')
  | ended {r' sd'} (wire : sd.wire = []) (count : r'.count = r.count) (all : r.examined = r.count) :
      Filled r data sd (.eof, r', sd')
  | more {r' sd' got} (holds : Holds r' (data ++ got)) (advances : Advances sd got sd')
      (examined : r'.examined = r.examined) (some_ : r'.examined < r'.count) :
      Filled r data sd (.success, r', sd')

theorem Filled.congr {r r₁ : CrlfReader} {data : Bytes} {sd : Socket}
    {q : CrlfReadRes × CrlfReader × Socket} (h : Filled r₁ data sd q) (count : r₁.count = r.count)
    (examined : r₁.examined = r.examined) : Filled r data sd q := by
  cases h with
  | blocked holds wire fewer faultless => exact .blocked holds wire fewer faultless
  | ended wire same all => exact .ended wire (same.trans count) (by omega)
  | more holds advances same some_ => exact .more holds advances (same.trans examined) some_

theorem fillBuf_filled {r : CrlfReader} {data : Bytes} (h : Holds r data) (sd : Socket)
    (faultless : Faultless sd) (all : r.examined = r.count) (room : r.count < r.total) :
    Filled r data sd (fillBuf r sd) := by
  obtain ⟨b, buf, len, held⟩ := h.buf
  have moved := moveDown_spec b r.base r.count (len ▸ h.fits)
  have size := h.length
  have clean := h.clean
  rw [held] at moved
  have tlen : 0 < r.total - r.count := by omega
  unfold fillBuf
  simp only [buf, Option.getD_some]
  generalize moveDown b r.base r.count = b' at moved ⊢
  have reads := readLoop_spec (r.total - r.count) tlen sd.wire sd.arrivals faultless
  generalize readLoop (r.total - r.count) sd.wire sd.arrivals = q at reads ⊢
  obtain ⟨res, sd'⟩ := q
  rcases reads with ⟨rfl, wire, fewer, ok⟩ | ⟨got, rfl, advances, short, done⟩
  · refine .blocked ⟨⟨b', rfl, moved.2.trans len, moved.1⟩, ?_, h.room, h.seen, clean, h.going⟩
      wire fewer ok
    have := h.fits
    simp only
    omega
  · by_cases none : got.length = 0
    · simp only [none, if_true]
      exact .ended (done (List.length_eq_zero_iff.mp none)) rfl all
    · simp only [none, if_false]
      refine .more ⟨⟨_, rfl, ?_, ?_⟩, ?_, h.room, ?_, ?_, h.going⟩ advances rfl ?_
      · rw [length_overwrite _ _ _ (by omega), moved.2, len]
      · rw [slice_overwrite_after _ _ _ (by omega), moved.1]
      · simp only
        omega
      · simp only
        omega
      · exact (clean_append got (h.seen.trans size.ge)).mpr clean
      · simp only
        omega

variable (junk : ℕ → UInt8)

theorem growBuf_served {r : CrlfReader} {data : Bytes} (h : Holds r data)
    (small : r.total < maxLineSize) :
    Ensures Served (growBuf junk r) (fun q s => q.1 = .grown ∧ Served s ∧ Holds q.2 data ∧
      q.2.count = r.count ∧ q.2.examined = r.examined ∧ r.total < q.2.total) := by
  obtain ⟨b, buf, len, held⟩ := h.buf
  unfold growBuf
  rw [if_neg (by omega)]
  dsimp only
  have larger : r.total <
      if r.total + 8192 > maxLineSize then maxLineSize else r.total + 8192 := by
    split_ifs <;> omega
  generalize (if r.total + 8192 > maxLineSize then maxLineSize else r.total + 8192) = heap at larger
  refine ensures_granted (allocate_served (by omega)) (ensures_pure fun s hs => ?_)
  have fits := h.fits
  refine ⟨rfl, hs, ⟨⟨_, rfl, ?_, ?_⟩, ?_, ?_, h.seen, h.clean, h.going⟩, rfl, rfl, larger⟩
  · rw [buf, Option.getD_some, length_regrow _ _ (by omega)]
  · rw [buf, Option.getD_some, slice_regrow _ b _ r.base r.count (by omega), held]
  · exact fits.trans larger.le
  · exact lt_trans h.room larger

theorem refill_served {r : CrlfReader} {data : Bytes} (h : Holds r data) (sd : Socket)
    (faultless : Faultless sd) (short : Short (data ++ sd.wire)) :
    Ensures Served (refill junk r sd) (fun q s => Filled r data sd q ∧ Served s) := by
  refine ensures_ite (fun all => ?_) (fun some_ => ensures_pure fun s hs => ?_)
  · unfold readCrData
    rw [if_neg (by simp [h.going])]
    refine ensures_ite (fun full => ?_) (fun room => ensures_pure fun s hs => ?_)
    · have size := h.length
      have clean : Clean (data ++ sd.wire) r.count := by
        rw [clean_append _ (by omega), ← all]
        exact h.clean
      have small := short.clean_lt clean (by rw [List.length_append]; omega)
      refine ensures_bind (growBuf_served junk h (by omega)) fun ⟨growth, r'⟩ => ?_
      refine ensures_pure fun s hs => ?_
      obtain ⟨rfl, hs, holds, count, examined, larger⟩ := hs
      have filled := fillBuf_filled holds sd faultless (by omega) (by omega)
      exact ⟨filled.congr count examined, hs⟩
    · exact ⟨fillBuf_filled h sd faultless all (lt_of_le_of_ne (by have := h.fits; omega) room), hs⟩
  · have seen := h.seen
    have holds : Holds r (data ++ []) := by rwa [List.append_nil]
    exact ⟨.more holds (Advances.refl faultless) rfl (by omega), hs⟩

/-- What an examination learns: more bytes without a CR LF, or the length of the
first line. -/
def Learnt (r : CrlfReader) (data : Bytes) : ℕ ⊕ ℕ → Prop
  | .inr e => Holds { r with examined := e } data ∧ r.examined < e
  | .inl n => ∃ i, n = i + 2 ∧ CrlfAt data i ∧ Clean data (i + 1) ∧ i + 2 ≤ r.count

theorem examine_learnt {r : CrlfReader} {data : Bytes} (h : Holds r data)
    (some_ : r.examined < r.count) : Learnt r data (examine r) := by
  obtain ⟨b, buf, len, held⟩ := h.buf
  have size := h.length
  have clean := h.clean
  have extend : ∀ e, e ≤ r.count → Clean data e → Holds { r with examined := e } data :=
    fun e le clean => ⟨h.buf, h.fits, h.room, le, clean, h.going⟩
  unfold examine
  simp only [buf, Option.getD_some, held, strnchr]
  cases look : (data.drop r.examined).findIdx? (· == lf) with
  | none =>
    refine ⟨extend _ le_rfl fun i lt at_ => ?_, some_⟩
    rcases lt_or_ge (i + 1) r.examined with old | new
    · exact clean i old at_
    · have mem : lf ∈ data.drop r.examined := by
        refine List.mem_iff_getElem?.mpr ⟨i + 1 - r.examined, ?_⟩
        rw [List.getElem?_drop, show r.examined + (i + 1 - r.examined) = i + 1 by omega]
        exact at_.2
      exact absurd (List.findIdx?_eq_none_iff.mp look lf mem) (by simp)
  | some off =>
    obtain ⟨inside, hit, earlier⟩ := List.findIdx?_eq_some_iff_getElem.mp look
    have feed : data[r.examined + off]? = some lf := by
      rw [← List.getElem?_drop, List.getElem?_eq_getElem inside, beq_iff_eq.mp hit]
    rw [List.length_drop] at inside
    have before : Clean data (r.examined + off) := by
      intro i lt at_
      rcases lt_or_ge (i + 1) r.examined with old | new
      · exact clean i old at_
      · have miss := earlier (i + 1 - r.examined) (by omega)
        have hit := at_.2
        rw [show i + 1 = r.examined + (i + 1 - r.examined) by omega, ← List.getElem?_drop] at hit
        obtain ⟨bound, same⟩ := List.getElem?_eq_some_iff.mp hit
        simp [same] at miss
    dsimp only
    split_ifs with start bare
    · exact ⟨extend 1 (by omega) (clean_one _), by omega⟩
    · refine ⟨extend _ (by omega) fun i lt at_ => ?_, by omega⟩
      rcases lt_or_ge (i + 1) (r.examined + off) with old | new
      · exact before i old at_
      · refine bare ?_
        rw [show r.examined + off - 1 = i by omega]
        exact at_.1
    · obtain ⟨i, next⟩ : ∃ i, r.examined + off = i + 1 := ⟨r.examined + off - 1, by omega⟩
      rw [next] at feed bare before ⊢
      exact ⟨i, rfl, ⟨not_not.mp bare, feed⟩, before, by omega⟩

theorem deliver_served {r : CrlfReader} {data : Bytes} (h : Holds r data) {len : ℕ}
    (inside : len ≤ r.count) :
    Ensures Served (deliver r len) (fun q s => (q.1 = .success ∨ q.1 = .moredata) ∧ Served s ∧
      q.2.iv = some (data.take len) ∧ Holds q.2 (data.drop len)) := by
  obtain ⟨b, buf, size, held⟩ := h.buf
  have fits := h.fits
  refine ensures_granted (allocate_served (by omega)) (ensures_pure fun s hs => ?_)
  refine ⟨?_, hs, ?_, ⟨b, buf, size, ?_⟩, ?_, h.room, Nat.zero_le _, fun i lt => ?_, h.going⟩
  · dsimp only
    split_ifs
    · exact .inr rfl
    · exact .inl rfl
  · simp only [buf, Option.getD_some]
    rw [← held, slice_take _ _ _ _ inside]
  · rw [← held, slice_drop]
  · simp only
    omega
  · simp only at lt
    omega

/-- How one call ends for a reader that holds `data`, with `s` all of the stream
not yet delivered. -/
inductive Ends (s : Bytes) (n : ℕ) : CrlfReadRes × CrlfReader × Socket → Prop
  | blocked {r sd data} (holds : Holds r data) (rest : data ++ sd.wire = s)
      (fewer : sd.arrivals.length < n) (faultless : Faultless sd) : Ends s n (.nblock, r, sd)
  | line {res r sd data i} (delivers : res = .success ∨ res = .moredata) (holds : Holds r data)
      (here : CrlfAt s i) (clean : Clean s (i + 1)) (iv : r.iv = some (s.take (i + 2)))
      (rest : data ++ sd.wire = s.drop (i + 2)) (fewer : sd.arrivals.length ≤ n)
      (faultless : Faultless sd) : Ends s n (res, r, sd)
  | done {res r sd} (clean : Clean s s.length)
      (last : res = if s = [] then .eof else .shortline) : Ends s n (res, r, sd)

theorem Ends.mono {s : Bytes} {m n : ℕ} {q : CrlfReadRes × CrlfReader × Socket} (h : Ends s m q)
    (le : m ≤ n) : Ends s n q := by
  cases h with
  | blocked holds rest fewer faultless => exact .blocked holds rest (by omega) faultless
  | line delivers holds here clean iv rest fewer faultless =>
    exact .line delivers holds here clean iv rest (by omega) faultless
  | done clean last => exact .done clean last

def afterRefill (passes : ℕ) (r : CrlfReader) (sd : Socket) :
    Request (CrlfReadRes × CrlfReader × Socket) :=
  match examine r with
  | .inr examined => crlfLoop junk passes { r with examined := examined } sd
  | .inl len => do
    let (res, r) ← deliver r len
    pure (res, r, sd)

/-- Every pass ends the call or leaves fewer bytes to be examined or received. -/
theorem crlfLoop_ends (passes : ℕ) (r : CrlfReader) (data : Bytes) (sd : Socket)
    (h : Holds r data) (faultless : Faultless sd) (short : Short (data ++ sd.wire))
    (enough : r.count - r.examined + sd.wire.length < passes) :
    Ensures Served (crlfLoop junk passes r sd)
      (fun q t => Ends (data ++ sd.wire) sd.arrivals.length q ∧ Served t) := by
  induction passes generalizing r data sd with
  | zero => omega
  | succ passes ih =>
    refine ensures_bind (refill_served junk h sd faultless short) ?_
    rintro ⟨res, r', sd'⟩ t ⟨filled, ht⟩
    cases filled with
    | blocked holds wire fewer ok => exact ⟨.blocked holds (by rw [wire]) fewer ok, ht⟩
    | ended wire count all =>
      have size := h.length
      have clean := h.clean
      rw [wire, List.append_nil]
      refine ⟨.done (by rwa [size, ← all]) ?_, ht⟩
      simp only [count, ← size, List.length_eq_zero_iff, ne_eq, reduceCtorEq, not_false_eq_true,
        true_and, and_true]
      split_ifs <;> rfl
    | @more r' sd' got holds advances same some_ =>
      have stream : data ++ sd.wire = data ++ got ++ sd'.wire := by
        rw [List.append_assoc, advances.wire]
      have size := h.length
      have size' := holds.length
      rw [List.length_append] at size'
      have wires : got.length + sd'.wire.length = sd.wire.length := by
        rw [← List.length_append, advances.wire]
      have learnt := examine_learnt holds some_
      suffices rest : Ensures Served (afterRefill junk passes r' sd')
        (fun q t => Ends (data ++ sd.wire) sd.arrivals.length q ∧ Served t) from rest t ht
      rw [stream] at short ⊢
      unfold afterRefill
      cases look : examine r' with
      | inr e =>
        rw [look] at learnt
        obtain ⟨further, moved⟩ := learnt
        have seen := further.seen
        simp only at seen
        exact (ih _ _ _ further advances.faultless short (by simp only; omega)).mono
          (fun _ h => h) fun _ _ h => ⟨h.1.mono advances.arrivals, h.2⟩
      | inl n =>
        rw [look] at learnt
        obtain ⟨i, rfl, here, clean, inside⟩ := learnt
        have within : i + 2 ≤ (data ++ got).length := by
          rw [List.length_append]
          omega
        refine ensures_bind (deliver_served holds inside) ?_
        rintro ⟨res, r''⟩ u ⟨delivers, hu, iv, holds'⟩
        refine ⟨.line delivers holds' ((crlfAt_append _ (by omega)).mpr here)
          ((clean_append _ (by omega)).mpr clean) ?_ ?_ advances.arrivals advances.faultless, hu⟩
        · rw [List.take_append_of_le_length within]
          exact iv
        · rw [List.drop_append_of_le_length within]

def lastReport (s : Bytes) : CrlfReadRes := if (splitLines s).2 = [] then .eof else .shortline

theorem readLines_served (calls : ℕ) (r : CrlfReader) (data : Bytes) (sd : Socket)
    (h : Holds r data) (faultless : Faultless sd) (short : Short (data ++ sd.wire))
    (enough : (data ++ sd.wire).length + sd.arrivals.length < calls) :
    Ensures Served (readLines junk calls r sd) (fun q _ =>
      q = ((splitLines (data ++ sd.wire)).1, some (lastReport (data ++ sd.wire)))) := by
  induction calls generalizing r data sd with
  | zero => omega
  | succ calls ih =>
    refine ensures_bind (crlfLoop_ends junk _ r data sd h faultless short (Nat.lt_succ_self _))
      fun ⟨res, r', sd'⟩ t ⟨ends, ht⟩ => ?_
    generalize data ++ sd.wire = s at short enough ends ⊢
    cases ends with
    | blocked holds rest fewer ok =>
      subst rest
      exact ih r' _ sd' holds ok short (by omega) t ht
    | @line _ _ _ data' i delivers holds here clean iv rest fewer ok =>
      have split := splitLines_first s i here clean
      obtain ⟨inside, -⟩ := List.getElem?_eq_some_iff.mp here.2
      have left : (s.drop (i + 2)).length < s.length := by
        rw [List.length_drop]
        omega
      have next := ih r' data' sd' holds ok (rest ▸ short.drop here clean) (by rw [rest]; omega)
      rw [rest] at next
      suffices later : Ensures Served (readLines junk calls r' sd' >>= fun q =>
          pure (r'.iv.getD [] :: q.1, q.2)) (fun q _ =>
            q = ((splitLines s).1, some (lastReport s))) by
        rcases delivers with rfl | rfl
        · exact later t ht
        · exact later t ht
      refine ensures_bind next fun q => ensures_pure fun u hq => ?_
      rw [hq, iv, Option.getD_some, lastReport, lastReport, split]
    | done clean last =>
      have split := splitLines_clean s clean
      subst last
      rw [lastReport, split]
      dsimp only
      by_cases none : s = []
      · simp only [if_pos none]
        rfl
      · simp only [if_neg none]
        rfl

theorem initCrlfReader_served :
    Ensures Served (initCrlfReader junk) (fun q s => q.1 = true ∧ Holds q.2 [] ∧ Served s) := by
  unfold initCrlfReader growBuf
  rw [if_neg (by decide)]
  dsimp only
  have size : (if zeroCrlfReader.total + 8192 > maxLineSize then maxLineSize
    else zeroCrlfReader.total + 8192) = 8192 := by decide
  rw [size]
  refine ensures_bind (?_ : Ensures Served _ (fun (q : Growth × CrlfReader) s =>
    q.1 = .grown ∧ Holds q.2 [] ∧ Served s)) fun q => ensures_pure fun s hs => ?_
  · refine ensures_granted (allocate_served (by decide)) (ensures_pure fun s hs => ?_)
    refine ⟨rfl, ⟨⟨_, rfl, length_regrow _ _ (Nat.zero_le _), rfl⟩, ?_, ?_, le_rfl, ?_, rfl⟩, hs⟩
    · exact Nat.zero_le _
    · exact Nat.succ_pos _
    · exact fun i lt => absurd lt (Nat.not_lt_zero _)
  · exact ⟨by simp [hs.1], hs.2⟩

/-- However a stream of short lines arrives, the caller is given its lines, one
after the other, and then the right end. The lines put together are the longest
beginning of the stream that ends in CR LF. -/
theorem readStream_exact (stream : Bytes) (arrivals : List Arrival) (faultless : .fault ∉ arrivals)
    (short : Short stream) (calls : ℕ) (enough : stream.length + arrivals.length < calls)
    (h : Heap) (served : Served h) :
    (readStream junk calls ⟨stream, arrivals⟩ h).1 =
        ((splitLines stream).1, some (lastReport stream)) ∧
      (splitLines stream).1.flatten ++ (splitLines stream).2 = stream ∧
      (∀ line ∈ (splitLines stream).1, IsLine line) ∧
      ∀ p, p ++ [cr, lf] <+: stream → p.length + 2 ≤ (splitLines stream).1.flatten.length := by
  refine ⟨?_, splitLines_flatten stream, splitLines_isLine stream, fun p front => ?_⟩
  · have run : Ensures Served (readStream junk calls ⟨stream, arrivals⟩)
        (fun q _ => q = ((splitLines stream).1, some (lastReport stream))) := by
      refine ensures_bind (initCrlfReader_served junk) fun ⟨ok, r⟩ => ensures_ite (fun _ s hs => ?_)
        (fun no s hs => absurd hs.1 no)
      exact readLines_served junk calls r [] ⟨stream, arrivals⟩ hs.2.1 faultless short enough s hs.2.2
    exact run h served
  · refine crlfAt_inside stream p.length ?_
    obtain ⟨t, rfl⟩ := front
    simp [CrlfAt]

/-- A CR and its LF that come in different reads, then a rest. -/
theorem readStream_exact_split :
    (readStream (fun _ => 0) 9 ⟨[0x30, cr, lf, 0x31], [.data 1, .again, .intr, .data 0]⟩
      ⟨[], false⟩).1 = ([[0x30, cr, lf]], some .shortline) := by
  have short : Short [0x30, cr, lf, 0x31] := ⟨by decide, by decide⟩
  exact (readStream_exact (fun _ => 0) [0x30, cr, lf, 0x31] [.data 1, .again, .intr, .data 0]
    (by decide) short 9 (by decide) ⟨[], false⟩ rfl).1

end Libdank.CrlfStream
