import Libdank.CrlfStream.Passes

/-! Which blocks a caller is given. A call hands out a block of its own when it
delivers a line, and none at all when it finds the line too long. -/
namespace Libdank.CrlfStream.Ownership
open Buffers Requests

variable (junk : ℕ → UInt8)

def SameLine (o o' : Holder) : Prop := o'.iv = o.iv ∧ o.blocks.next ≤ o'.blocks.next

theorem SameLine.trans {o o' o'' : Holder} (first : SameLine o o') (second : SameLine o' o'') :
    SameLine o o'' := ⟨second.1.trans first.1, first.2.trans second.2⟩

theorem Refill.sameLine {o o' : Holder} {h : Heap} {res : CrlfReadRes} (refilled : Refill o h res o') :
    SameLine o o' := by
  cases refilled with
  | none => exact ⟨rfl, le_rfl⟩
  | stuffed => exact ⟨rfl, le_rfl⟩
  | filled => exact ⟨rfl, le_rfl⟩
  | taken => exact ⟨rfl, Nat.le_succ _⟩
  | grown => exact ⟨rfl, le_rfl⟩
  | freed => exact ⟨rfl, le_rfl⟩

theorem Refill.ne_moredata {o o' : Holder} {h : Heap} {res : CrlfReadRes}
    (refilled : Refill o h res o') : res ≠ .moredata := by
  cases refilled with
  | none _ _ res_ => exact res_.1
  | stuffed => decide
  | filled _ _ res_ => exact res_.1
  | taken _ _ res_ => exact res_.1
  | grown _ _ res_ => exact res_.1
  | freed => decide

theorem Refill.longline_iff {o o' : Holder} {h : Heap} {res : CrlfReadRes}
    (refilled : Refill o h res o') : res = .longline ↔ Stuffed o.reader := by
  cases refilled with
  | none calm _ res_ => exact iff_of_false res_.2 calm
  | stuffed full => exact iff_of_true rfl full
  | filled calm _ res_ => exact iff_of_false res_.2 calm
  | taken calm _ res_ => exact iff_of_false res_.2 calm
  | grown calm _ res_ => exact iff_of_false res_.2 calm
  | freed calm => exact iff_of_false (by decide) calm

theorem examine_line {r : CrlfReader} {n : ℕ} (found : examine r = .inl n) :
    ∃ line, slice (r.buf.getD []) r.base n = line ++ [cr, lf] := by
  rw [examine] at found
  generalize data_eq : slice (r.buf.getD []) r.base r.count = data at found
  cases look : strnchr (data.drop r.examined) lf with
  | none => simp [look] at found
  | some off =>
    simp only [look] at found
    split_ifs at found with start bare
    obtain rfl := Sum.inl.inj found
    obtain ⟨inside, hit, -⟩ := List.findIdx?_eq_some_iff_getElem.mp look
    have feed : data[r.examined + off]? = some lf := by
      rw [← List.getElem?_drop, List.getElem?_eq_getElem inside, beq_iff_eq.mp hit]
    obtain ⟨i, next⟩ : ∃ i, r.examined + off = i + 1 := ⟨r.examined + off - 1, by omega⟩
    rw [next] at feed bare ⊢
    have before : data[i]? = some cr := not_not.mp bare
    have fits : i + 1 + 1 ≤ r.count := by
      have short : data.length ≤ r.count := by
        rw [← data_eq]
        exact List.length_take_le _ _
      obtain ⟨in_, -⟩ := List.getElem?_eq_some_iff.mp feed
      omega
    refine ⟨data.take i, ?_⟩
    rw [← slice_take _ _ _ _ fits, data_eq, List.take_add_one, List.take_add_one, before, feed]
    simp

/-- `o'` has a line that `o` had not, in a block of its own. -/
structure NewLine (o o' : Holder) : Prop where
  iv : ∃ b, o'.iv = some b ∧ o.blocks.next ≤ b ∧ b < o'.blocks.next
  text : ∃ line, o'.reader.iv = some (line ++ [cr, lf])

/-- A call ends with a new line or with the one there was. -/
def Ended (o : Holder) (res : CrlfReadRes) (o' : Holder) : Prop :=
  Line res ∧ NewLine o o' ∨ ¬ Line res ∧ SameLine o o'

theorem Ended.since {o o' o'' : Holder} {res : CrlfReadRes} (ended : Ended o' res o'')
    (same : SameLine o o') : Ended o res o'' := by
  rcases ended with ⟨line, ⟨⟨b, iv, low, high⟩, text⟩⟩ | ⟨other, later⟩
  · exact .inl ⟨line, ⟨b, iv, same.2.trans low, high⟩, text⟩
  · exact .inr ⟨other, same.trans later⟩

theorem deliver_ended {o : Holder} {len : ℕ}
    (line : ∃ line, slice (o.reader.buf.getD []) o.reader.base len = line ++ [cr, lf]) (h : Heap) :
    Ended o (deliver o len h).1.1 (deliver o len h).1.2 := by
  obtain ⟨text, copy⟩ := line
  rcases deliver_cases o len h with ⟨res, r, same, delivers, iv, -⟩ | same
  · rw [same]
    exact .inl ⟨delivers, ⟨_, rfl, le_rfl, Nat.lt_succ_self _⟩, text, iv.trans (congrArg some copy)⟩
  · rw [same]
    exact .inr ⟨not_line_syserr, rfl, le_rfl⟩

theorem deliver_ne_longline (o : Holder) (len : ℕ) (h : Heap) :
    (deliver o len h).1.1 ≠ .longline := by
  rcases deliver_cases o len h with ⟨res, r, same, rfl | rfl, -⟩ | same
  · simp [same]
  · simp [same]
  · simp [same]

theorem not_line_report {res : CrlfReadRes} (failed : res ≠ .success) (other : res ≠ .moredata)
    (count : ℕ) : ¬ Line (report res count) := by
  rw [report]
  split_ifs
  · decide
  · rintro (rfl | rfl)
    · exact failed rfl
    · exact other rfl

theorem crlfLoop_ended (passes : ℕ) (o : Holder) (sd : Socket) (h : Heap) :
    Ended o (crlfLoop junk passes o sd h).1.1 (crlfLoop junk passes o sd h).1.2.1 := by
  induction passes, o, sd, h using crlfLoop_induction junk with
  | spent o sd h => exact .inr ⟨not_line_syserr, rfl, le_rfl⟩
  | stop passes o sd h res o' sd' h' refilled way failed =>
    exact .inr ⟨not_line_report failed way.ne_moredata _, way.sameLine⟩
  | again passes o sd h o' sd' h' examined res o'' refilled way look ended =>
    exact (ended.since (⟨rfl, le_rfl⟩ : SameLine o' (o'.again examined))).since way.sameLine
  | line passes o sd h o' sd' h' len refilled way look =>
    have ended := @deliver_ended o'.useBuf len (examine_line look) h'
    exact (ended.since (⟨rfl, le_rfl⟩ : SameLine o' o'.useBuf)).since way.sameLine

theorem report_longline_iff (res : CrlfReadRes) (count : ℕ) :
    report res count = .longline ↔ res = .longline := by
  rw [report]
  split_ifs with short
  · obtain rfl := short.2.2
    decide
  · rfl

theorem crlfLoop_longline_iff (passes : ℕ) (o : Holder) (sd : Socket) (h : Heap) :
    (crlfLoop junk passes o sd h).1.1 = .longline ↔
      ¬ LoopAlong junk (fun r _ => ¬ Stuffed r) passes o.reader sd h := by
  induction passes, o, sd, h using crlfLoop_induction junk with
  | spent o sd h => exact iff_of_false (by decide) (not_not.mpr trivial)
  | stop passes o sd h res o' sd' h' refilled way failed =>
    rw [loopAlong_succ junk refilled, report_longline_iff, way.longline_iff]
    simp [failed]
  | again passes o sd h o' sd' h' examined res o'' refilled way look ended =>
    have calm : ¬ Stuffed o.reader := mt way.longline_iff.mpr (by decide)
    rw [ended, loopAlong_succ junk refilled]
    simp [calm, look]
  | line passes o sd h o' sd' h' len refilled way look =>
    have calm : ¬ Stuffed o.reader := mt way.longline_iff.mpr (by decide)
    rw [loopAlong_succ junk refilled]
    refine iff_of_false (deliver_ne_longline _ _ _) (not_not.mpr ⟨calm, fun _ examined other => ?_⟩)
    simp [look] at other

section Runs

/-- The block the last line is in was handed out before. -/
def Older (o : Holder) : Prop := ∀ b, o.iv = some b → b < o.blocks.next

theorem Ended.next_le {o o' : Holder} {res : CrlfReadRes} (ended : Ended o res o') :
    o.blocks.next ≤ o'.blocks.next := by
  rcases ended with ⟨-, ⟨b, -, low, high⟩, -⟩ | ⟨-, -, later⟩
  · omega
  · exact later

theorem Ended.older {o o' : Holder} {res : CrlfReadRes} (ended : Ended o res o') (older : Older o) :
    Older (o'.settle res) := by
  intro b at_
  rw [settle_iv] at at_
  rw [settle_next]
  rcases ended with ⟨-, ⟨b', iv, -, high⟩, -⟩ | ⟨-, same, later⟩
  · obtain rfl : b' = b := Option.some.inj (iv.symm.trans at_)
    exact high
  · exact (older b (same ▸ at_)).trans_le later

theorem Ended.delivered_iff {o o' : Holder} {res : CrlfReadRes} (ended : Ended o res o')
    (older : Older o) : Delivered (callOf o o' res) ↔ res ≠ .longline := by
  rcases ended with ⟨line, new⟩ | ⟨other, same, later⟩
  · have short : res ≠ .longline := by
      rcases line with rfl | rfl <;> decide
    refine iff_of_true (fun _ => ⟨new.iv, ?_⟩) short
    rw [callOf, if_neg short]
    exact new.text
  · by_cases long : res = .longline
    · refine iff_of_false (fun delivered => ?_) (not_not.mpr long)
      obtain ⟨⟨b, iv, low, -⟩, -⟩ := delivered (.inr (.inr long))
      exact absurd (older b (same ▸ iv)) (not_lt.mpr low)
    · refine iff_of_true (fun delivers => ?_) long
      rcases delivers with success | more | longline
      · exact absurd (.inl success) other
      · exact absurd (.inr more) other
      · exact absurd longline long

theorem readCalls_delivered_iff (calls : ℕ) (o : Holder) (sd : Socket) (h : Heap)
    (older : Older o) :
    (∀ call ∈ (readCalls junk calls o sd h).1.1, Delivered call) ↔
      RunAlong junk (fun r _ => ¬ Stuffed r) calls o.reader sd h := by
  induction calls generalizing o sd h with
  | zero => exact iff_of_true (fun call mem => absurd mem List.not_mem_nil) trivial
  | succ calls ih =>
    have ended := crlfLoop_ended junk (o.reader.count - o.reader.examined + sd.wire.length + 1) o sd h
    have rest := ih _ (readCrlfLine junk o sd h).1.2.2 (readCrlfLine junk o sd h).2 (ended.older older)
    have first := (ended.delivered_iff older).trans
      (not_congr (crlfLoop_longline_iff junk _ o sd h) |>.trans not_not)
    rw [readCalls_succ, RunAlong, ← readCrlfLine_mirrors]
    refine List.forall_mem_cons.trans (and_congr first (rest.trans ?_))
    rw [settle_reader]
    rfl

theorem freedLines_some {call : Call} {b : ℕ} {calls : List Call} (delivers : Delivers call.res)
    (iv : call.iv = some b) : freedLines (call :: calls) = b :: freedLines calls := by
  rw [freedLines, List.filterMap_cons, if_pos delivers, iv]
  rfl

theorem freedLines_none {call : Call} {calls : List Call} (other : ¬ Delivers call.res) :
    freedLines (call :: calls) = freedLines calls := by
  rw [freedLines, List.filterMap_cons, if_neg other]
  rfl

theorem readCalls_freed (calls : ℕ) (o : Holder) (sd : Socket) (h : Heap)
    (all : ∀ call ∈ (readCalls junk calls o sd h).1.1, Delivered call) :
    (freedLines (readCalls junk calls o sd h).1.1).Nodup ∧
      ∀ b ∈ freedLines (readCalls junk calls o sd h).1.1, o.blocks.next ≤ b := by
  induction calls generalizing o sd h with
  | zero => exact ⟨List.nodup_nil, fun b mem => absurd mem List.not_mem_nil⟩
  | succ calls ih =>
    have ended := crlfLoop_ended junk (o.reader.count - o.reader.examined + sd.wire.length + 1) o sd h
    rw [readCalls_succ] at all ⊢
    obtain ⟨now, later⟩ := List.forall_mem_cons.mp all
    obtain ⟨nodup, above⟩ := ih _ _ _ later
    rw [settle_next] at above
    by_cases delivers : Delivers (readCrlfLine junk o sd h).1.1
    · obtain ⟨⟨b, iv, low, high⟩, -⟩ := now delivers
      rw [freedLines_some delivers iv]
      refine ⟨List.nodup_cons.mpr ⟨fun twice => ?_, nodup⟩, ?_⟩
      · exact absurd (above b twice) (not_le.mpr high)
      · exact List.forall_mem_cons.mpr ⟨low, fun b mem => ended.next_le.trans (above b mem)⟩
    · rw [freedLines_none delivers]
      exact ⟨nodup, fun b mem => ended.next_le.trans (above b mem)⟩

theorem initCrlfReader_iv (h : Heap) : (initCrlfReader junk h).1.2.iv = none := by
  rw [initCrlfReader, bind_apply, growBuf, bind_apply]
  generalize CrlfStream.growBuf junk zeroHolder.reader h = q
  obtain ⟨⟨growth, r⟩, h'⟩ := q
  cases growth with
  | grown => rfl
  | refused => rfl
  | enomem => rfl

theorem readSession_delivered_iff (calls : ℕ) (sd : Socket) (h : Heap) :
    (∀ call ∈ (readSession junk calls sd h).1.1, Delivered call) ↔
      RunAlong junk (fun r _ => ¬ Stuffed r) calls (CrlfStream.initCrlfReader junk h).1.2 sd
        (CrlfStream.initCrlfReader junk h).2 := by
  have older : Older (initCrlfReader junk h).1.2 := fun b at_ => by
    rw [initCrlfReader_iv] at at_
    cases at_
  rw [← initCrlfReader_mirrors]
  exact readCalls_delivered_iff junk calls _ sd _ older

end Runs

section Endless

variable {r : CrlfReader} {data : Bytes} {sd : Socket}

theorem refill_grown (holds : Holds r data) (ready : sd.arrivals = [])
    (bound : r.total ≤ maxLineSize) (long : maxLineSize ≤ (data ++ sd.wire).length) :
    Ensures Served (CrlfStream.refill junk r sd) (fun q h =>
      q.1 = .longline ∨ Grown r data sd q ∧ q.2.1.total ≤ maxLineSize ∧ Served h) := by
  refine ensures_ite (fun all => ?_) (fun some_ => ensures_pure fun h served => ?_)
  · rw [CrlfStream.readCrData, if_neg (by simp [holds.going])]
    refine ensures_ite (fun full => ?_) (fun room => ensures_pure fun h served => ?_)
    · intro h served
      rw [bind_apply]
      have grows := growBuf_cases junk r h
      have serves := fun small => growBuf_served junk holds small h served
      generalize CrlfStream.growBuf junk r h = q at grows serves
      obtain ⟨⟨growth, r'⟩, h'⟩ := q
      rcases grows with ⟨-, run⟩ | ⟨small, -, r'', run, -, bound'⟩ | ⟨small, -, r'', run, -⟩
      · obtain ⟨rfl, rfl⟩ := Prod.mk.inj run
        exact .inl rfl
      · obtain ⟨rfl, rfl⟩ := Prod.mk.inj run
        obtain ⟨-, served', holds', count, examined, larger⟩ := serves small
        obtain ⟨grown, total⟩ :=
          fillBuf_grown holds' ready (bound'.trans long) (by omega) (by omega)
        exact .inr ⟨grown.congr count examined, total.trans_le bound', served'⟩
      · obtain ⟨rfl, rfl⟩ := Prod.mk.inj run
        cases (serves small).1
    · have fits := holds.fits
      obtain ⟨grown, total⟩ := fillBuf_grown holds ready (bound.trans long) all (by omega)
      exact .inr ⟨grown, total.trans_le bound, served⟩
  · exact .inr ⟨grown_refl holds ready some_, bound, served⟩

/-- A stream with no CR LF, read as fast as it is wanted, ends in a line too long. -/
theorem crlfLoop_endless (passes : ℕ) (r : CrlfReader) (data : Bytes) (sd : Socket)
    (holds : Holds r data) (ready : sd.arrivals = []) (bound : r.total ≤ maxLineSize)
    (long : maxLineSize ≤ (data ++ sd.wire).length)
    (clean : Clean (data ++ sd.wire) (data ++ sd.wire).length)
    (enough : r.count - r.examined + sd.wire.length < passes) :
    Ensures Served (CrlfStream.crlfLoop junk passes r sd) (fun q _ => q.1 = .longline) := by
  induction passes generalizing r data sd with
  | zero => omega
  | succ passes ih =>
    refine ensures_bind (refill_grown junk holds ready bound long) ?_
    rintro ⟨res, r', sd'⟩ h (long_ | ⟨grown, bound', served⟩)
    · obtain rfl : res = .longline := long_
      exact (report_longline_iff _ r'.count).mpr rfl
    · obtain rfl : res = .success := grown.res
      obtain ⟨e, look, data', holds', stream, ready', fewer⟩ := grown.goes_on clean
      dsimp only at look holds' stream ready' fewer
      suffices rest : Ensures Served (afterRefill junk passes r' sd') (fun q _ => q.1 = .longline) from
        rest h served
      rw [afterRefill, look]
      rw [← stream] at long clean
      exact ih _ _ _ holds' ready' bound' long clean (by dsimp only; omega)

theorem initCrlfReader_total (h : Heap) :
    (CrlfStream.initCrlfReader junk h).1.2.total ≤ maxLineSize := by
  rw [CrlfStream.initCrlfReader, bind_apply]
  rcases growBuf_cases junk zeroCrlfReader h with ⟨large, -⟩ | ⟨-, -, r, run, -, bound⟩ |
    ⟨-, -, r, run, total⟩
  · exact absurd large (by decide)
  · rw [run]
    exact bound
  · rw [run]
    exact total.trans_le (by decide)

theorem readSession_endless (stream : Bytes) (clean : Clean stream stream.length)
    (long : maxLineSize ≤ stream.length) (calls : ℕ) (h : Heap) (served : Served h) :
    ¬ Sound (readSession junk (calls + 1) ⟨stream, []⟩ h).1.1 := by
  rw [Sound, readSession_delivered_iff]
  obtain ⟨-, holds, served'⟩ := initCrlfReader_served junk h served
  have endless := crlfLoop_endless junk _ _ [] ⟨stream, []⟩ holds rfl (initCrlfReader_total junk h)
    long clean (Nat.lt_succ_self _) _ served'
  rw [← initCrlfReader_mirrors] at endless ⊢
  refine fun along => (crlfLoop_longline_iff junk _ (initCrlfReader junk h).1.2 ⟨stream, []⟩
    (initCrlfReader junk h).2).mp ?_ along.1.1
  rw [← crlfLoop_mirrors] at endless
  exact endless

end Endless

/-- Over any number of calls, each that delivers hands out a block of its own, and the
caller frees each once, just when no pass of a call wants more of a reader whose
buffer, of the largest size, is full of bytes already examined. -/
theorem readSession_sound_iff (calls : ℕ) (sd : Socket) (h : Heap) :
    Sound (readSession junk calls sd h).1.1 ↔
      RunAlong junk (fun r _ => ¬ Stuffed r) calls (CrlfStream.initCrlfReader junk h).1.2 sd
        (CrlfStream.initCrlfReader junk h).2 := by
  rw [← readSession_delivered_iff]
  exact ⟨And.left, fun all => ⟨all, (readCalls_freed junk calls _ sd _ all).1⟩⟩

/-- A megabyte without a CR LF is reported as a line, and `iov_base` is NULL. -/
theorem readSession_unsound :
    ¬ Sound (readSession (fun _ => 0) 1 ⟨List.replicate maxLineSize 0x61, []⟩ ⟨[], false⟩).1.1 := by
  generalize size : maxLineSize = n
  have clean : cr ∉ List.replicate n (0x61 : UInt8) := fun mem => by
    cases List.eq_of_mem_replicate mem
  refine readSession_endless _ (List.replicate n 0x61) (clean_of_no_cr clean _) ?_ 0 _ rfl
  rw [size, List.length_replicate]

end Libdank.CrlfStream.Ownership
