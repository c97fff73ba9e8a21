import Libdank.CrlfStream.Delivery
import Libdank.CrlfStream.Ownership

/-! What one attempt to read more does to blocks, and induction along the passes of
a call. -/
namespace Libdank.CrlfStream.Ownership
open Buffers Requests

variable (junk : ℕ → UInt8)

def Plain (res : CrlfReadRes) : Prop := res ≠ .moredata ∧ res ≠ .longline

instance (res : CrlfReadRes) : Decidable (Plain res) := inferInstanceAs (Decidable (_ ∧ _))

theorem plain_success : Plain .success := by decide

theorem plain_eof : Plain .eof := by decide

theorem fillBuf_plain (r : CrlfReader) (sd : Socket) :
    Plain (CrlfStream.fillBuf r sd).1 ∧ (CrlfStream.fillBuf r sd).2.1.total = r.total := by
  have plain_nblock : Plain .nblock := by decide
  have plain_syserr : Plain .syserr := by decide
  rw [CrlfStream.fillBuf]
  generalize readLoop (r.total - r.count) sd.wire sd.arrivals = q
  obtain ⟨received, sd'⟩ := q
  cases received with
  | again => exact ⟨plain_nblock, rfl⟩
  | fault => exact ⟨plain_syserr, rfl⟩
  | bytes got =>
    dsimp only
    split_ifs
    · exact ⟨plain_eof, rfl⟩
    · exact ⟨plain_success, rfl⟩

theorem growBuf_cases (r : CrlfReader) (h : Heap) :
    (maxLineSize ≤ r.total ∧ (CrlfStream.growBuf junk r h).1 = (.refused, r)) ∨
    (r.total < maxLineSize ∧ h.answer 0 = true ∧
      ∃ r', (CrlfStream.growBuf junk r h).1 = (.grown, r') ∧ 0 < r'.total ∧
        r'.total ≤ maxLineSize) ∨
    (r.total < maxLineSize ∧ h.answer 0 = false ∧
      ∃ r', (CrlfStream.growBuf junk r h).1 = (.enomem, r') ∧ r'.total = r.total) := by
  rw [CrlfStream.growBuf]
  by_cases large : r.total ≥ maxLineSize
  · rw [if_pos large]
    exact .inl ⟨large, rfl⟩
  · rw [if_neg large]
    generalize size : (if r.total + 8192 > maxLineSize then maxLineSize else r.total + 8192) = heap
    have some_ : 0 < heap := by
      rw [← size]
      split_ifs
      · decide
      · omega
    have bound : heap ≤ maxLineSize := by
      rw [← size]
      split_ifs <;> omega
    rw [bind_apply, allocate_eq some_.ne']
    cases answer : h.answer 0 with
    | true => exact .inr (.inl ⟨not_le.mp large, rfl, _, rfl, some_, bound⟩)
    | false => exact .inr (.inr ⟨not_le.mp large, rfl, _, rfl, rfl⟩)

/-- What an attempt to read more comes to, and what it does to blocks. -/
inductive Refill (o : Holder) (h : Heap) : CrlfReadRes → Holder → Prop
  | none {res} (calm : ¬ Stuffed o.reader) (spared : ¬ Refused o.reader h) (res_ : Plain res) :
      Refill o h res o
  | stuffed (full : Stuffed o.reader) (spared : ¬ Refused o.reader h) : Refill o h .longline o
  | filled {res r} (calm : ¬ Stuffed o.reader) (spared : ¬ Refused o.reader h) (res_ : Plain res)
      (total : r.total = o.reader.total) : Refill o h res { o with reader := r }.useBuf
  | taken {res r} (calm : ¬ Stuffed o.reader) (spared : ¬ Refused o.reader h) (res_ : Plain res)
      (first : o.buf = none) (total : 0 < r.total) :
      Refill o h res { o with reader := r }.takeBuf.useBuf
  | grown {res r} (calm : ¬ Stuffed o.reader) (spared : ¬ Refused o.reader h) (res_ : Plain res)
      (there : o.buf ≠ none) (total : 0 < r.total) :
      Refill o h res { o with reader := r }.useBuf.useBuf
  | freed {r} (calm : ¬ Stuffed o.reader) (refused : Refused o.reader h ↔ 0 < o.reader.total)
      (total : r.total = o.reader.total) : Refill o h .syserr { o with reader := r }.freeBuf

theorem refill_cases (o : Holder) (sd : Socket) (h : Heap) :
    Refill o h (refill junk o sd h).1.1 (refill junk o sd h).1.2.1 := by
  rw [refill]
  by_cases all : o.reader.examined = o.reader.count
  swap
  · rw [if_neg all]
    exact .none (fun full => all full.1) (fun no => all no.1) plain_success
  rw [if_pos all, readCrData]
  by_cases eof : o.reader.eof = true
  · rw [if_pos eof]
    exact .none (fun full => absurd (eof.symm.trans full.2.1) (by decide))
      (fun no => absurd (eof.symm.trans no.2.1) (by decide)) plain_eof
  rw [if_neg eof]
  by_cases full : o.reader.count = o.reader.total
  swap
  · rw [if_neg full]
    obtain ⟨res_, total⟩ := fillBuf_plain o.reader sd
    exact .filled (fun no => full no.2.2.1) (fun no => full no.2.2.1) res_ total
  have going : o.reader.eof = false := by simpa using eof
  rw [if_pos full, bind_apply, growBuf, bind_apply]
  have grows := growBuf_cases junk o.reader h
  generalize CrlfStream.growBuf junk o.reader h = q at grows
  obtain ⟨⟨growth, r⟩, h'⟩ := q
  rcases grows with ⟨large, run⟩ | ⟨small, yes, r', run, total, -⟩ |
    ⟨small, no, r', run, total⟩
  · obtain ⟨rfl, rfl⟩ := Prod.mk.inj run
    exact .stuffed ⟨all, going, full, large⟩ fun no => absurd large (not_le.mpr no.2.2.2.1)
  · obtain ⟨rfl, rfl⟩ := Prod.mk.inj run
    have calm : ¬ Stuffed o.reader := fun full => absurd full.2.2.2 (not_le.mpr small)
    have spared : ¬ Refused o.reader h := fun no => absurd (yes.symm.trans no.2.2.2.2.2) (by decide)
    obtain ⟨res_, same⟩ := fillBuf_plain r sd
    have room : 0 < (CrlfStream.fillBuf r sd).2.1.total := by omega
    simp only [pure_apply]
    by_cases first : o.buf = none
    · rw [if_pos (Option.isNone_iff_eq_none.mpr first)]
      exact .taken calm spared res_ first room
    · rw [if_neg (mt Option.isNone_iff_eq_none.mp first)]
      exact .grown calm spared res_ first room
  · obtain ⟨rfl, rfl⟩ := Prod.mk.inj run
    exact .freed (fun full => absurd full.2.2.2 (not_le.mpr small))
      ⟨fun no => no.2.2.2.2.1, fun some_ => ⟨all, going, full, small, some_, no⟩⟩ total

def report (res : CrlfReadRes) (count : ℕ) : CrlfReadRes :=
  if res ≠ .nblock ∧ count ≠ 0 ∧ res = .eof then .shortline else res

/-- Induction along the passes of a call: each ends it or leads to another. -/
theorem crlfLoop_induction {motive : ℕ → Holder → Socket → Heap → CrlfReadRes → Holder → Prop}
    (spent : ∀ o sd h, motive 0 o sd h .syserr o)
    (stop : ∀ passes o sd h res o' sd' h', refill junk o sd h = ((res, o', sd'), h') →
      Refill o h res o' → res ≠ .success → motive (passes + 1) o sd h (report res o'.reader.count) o')
    (again : ∀ passes o sd h o' sd' h' examined res o'',
      refill junk o sd h = ((.success, o', sd'), h') → Refill o h .success o' →
      examine o'.reader = .inr examined →
      motive passes (o'.again examined) sd' h' res o'' → motive (passes + 1) o sd h res o'')
    (line : ∀ passes o sd h o' sd' h' len, refill junk o sd h = ((.success, o', sd'), h') →
      Refill o h .success o' → examine o'.reader = .inl len →
      motive (passes + 1) o sd h (deliver o'.useBuf len h').1.1 (deliver o'.useBuf len h').1.2)
    (passes : ℕ) (o : Holder) (sd : Socket) (h : Heap) :
    motive passes o sd h (crlfLoop junk passes o sd h).1.1 (crlfLoop junk passes o sd h).1.2.1 := by
  induction passes generalizing o sd h with
  | zero => exact spent o sd h
  | succ passes ih =>
    have way := refill_cases junk o sd h
    rw [crlfLoop, bind_apply]
    generalize refilled : refill junk o sd h = q at way
    obtain ⟨⟨res, o', sd'⟩, h'⟩ := q
    dsimp only at way ⊢
    by_cases more : res = .success
    · subst more
      rw [if_neg (not_not.mpr rfl)]
      cases look : examine o'.reader with
      | inr examined =>
        exact again passes o sd h o' sd' h' examined _ _ refilled way look
          (ih (o'.again examined) sd' h')
      | inl len => exact line passes o sd h o' sd' h' len refilled way look
    · rw [if_pos more]
      exact stop passes o sd h res o' sd' h' refilled way more

def Line (res : CrlfReadRes) : Prop := res = .success ∨ res = .moredata

instance (res : CrlfReadRes) : Decidable (Line res) := inferInstanceAs (Decidable (_ ∨ _))

theorem not_line_syserr : ¬ Line .syserr := by decide

theorem deliver_cases (o : Holder) (len : ℕ) (h : Heap) :
    (∃ res r, (deliver o len h).1 = (res, { o with reader := r }.takeIv.useBuf) ∧ Line res ∧
      r.iv = some (slice (o.reader.buf.getD []) o.reader.base len) ∧ r.total = o.reader.total) ∨
    (deliver o len h).1 = (.syserr, o) := by
  rw [deliver, bind_apply, CrlfStream.deliver, bind_apply, allocate_eq (Nat.succ_ne_zero len)]
  cases h.answer 0 with
  | true =>
    generalize report : (if o.reader.count - len ≠ 0 ∨ o.reader.eof = true then CrlfReadRes.moredata
      else .success) = res
    have line : Line res := by
      rw [← report]
      split_ifs
      · exact .inr rfl
      · exact .inl rfl
    have served : res ≠ .syserr := fun failed => not_line_syserr (failed ▸ line)
    let r := { o.reader with
      iv := some (slice (o.reader.buf.getD []) o.reader.base len)
      count := o.reader.count - len, base := o.reader.base + len, examined := 0 }
    refine .inl ⟨res, r, ?_, line, rfl, rfl⟩
    simp only [if_true, pure_apply, report, if_neg served, r]
  | false => exact .inr rfl

theorem loopAlong_succ {cond : CrlfReader → Heap → Prop} {passes : ℕ} {o o' : Holder}
    {sd sd' : Socket} {h h' : Heap} {res : CrlfReadRes}
    (refilled : refill junk o sd h = ((res, o', sd'), h')) :
    LoopAlong junk cond (passes + 1) o.reader sd h ↔
      cond o.reader h ∧ (res = .success → ∀ examined, examine o'.reader = .inr examined →
        LoopAlong junk cond passes (o'.again examined).reader sd' h') := by
  rw [LoopAlong, ← refill_mirrors, refilled]
  rfl

@[simp] theorem settle_reader (o : Holder) (res : CrlfReadRes) :
    (o.settle res).reader = o.reader := by
  rw [Holder.settle]
  split_ifs <;> rfl

@[simp] theorem settle_iv (o : Holder) (res : CrlfReadRes) : (o.settle res).iv = o.iv := by
  rw [Holder.settle]
  split_ifs <;> rfl

@[simp] theorem settle_next (o : Holder) (res : CrlfReadRes) :
    (o.settle res).blocks.next = o.blocks.next := by
  rw [Holder.settle]
  split_ifs <;> rfl

theorem readCalls_succ (calls : ℕ) (o : Holder) (sd : Socket) (h : Heap) :
    (readCalls junk (calls + 1) o sd h).1.1 =
      callOf o (readCrlfLine junk o sd h).1.2.1 (readCrlfLine junk o sd h).1.1 ::
        (readCalls junk calls
          ((readCrlfLine junk o sd h).1.2.1.settle (readCrlfLine junk o sd h).1.1)
          (readCrlfLine junk o sd h).1.2.2 (readCrlfLine junk o sd h).2).1.1 := rfl

theorem readCalls_last (calls : ℕ) (o : Holder) (sd : Socket) (h : Heap) :
    (readCalls junk (calls + 1) o sd h).1.2 =
      (readCalls junk calls
        ((readCrlfLine junk o sd h).1.2.1.settle (readCrlfLine junk o sd h).1.1)
        (readCrlfLine junk o sd h).1.2.2 (readCrlfLine junk o sd h).2).1.2 := rfl

section Endless

/-- Bytes are there to be examined, newly come in or not. -/
structure Grown (r : CrlfReader) (data : Bytes) (sd : Socket) (q : CrlfReadRes × CrlfReader × Socket) :
    Prop where
  res : q.1 = .success
  more : ∃ got, Holds q.2.1 (data ++ got) ∧ Advances sd got q.2.2
  examined : q.2.1.examined = r.examined
  some_ : q.2.1.examined < q.2.1.count
  size : data.length = r.count
  ready : sd.arrivals = []

variable {r : CrlfReader} {data : Bytes} {sd : Socket}

theorem Grown.congr {r₁ : CrlfReader} {q : CrlfReadRes × CrlfReader × Socket}
    (grown : Grown r₁ data sd q) (count : r₁.count = r.count) (examined : r₁.examined = r.examined) :
    Grown r data sd q :=
  ⟨grown.res, grown.more, grown.examined.trans examined, grown.some_, grown.size.trans count,
    grown.ready⟩

theorem grown_refl (holds : Holds r data) (ready : sd.arrivals = []) (some_ : r.examined ≠ r.count) :
    Grown r data sd (.success, r, sd) :=
  ⟨rfl, ⟨[], by rwa [List.append_nil], Advances.refl (by simp [Faultless, ready])⟩, rfl,
    lt_of_le_of_ne holds.seen some_, holds.length, ready⟩

theorem fillBuf_grown (holds : Holds r data) (ready : sd.arrivals = [])
    (long : r.total ≤ (data ++ sd.wire).length) (all : r.examined = r.count)
    (room : r.count < r.total) :
    Grown r data sd (CrlfStream.fillBuf r sd) ∧ (CrlfStream.fillBuf r sd).2.1.total = r.total := by
  have filled := fillBuf_filled holds sd (by simp [Faultless, ready]) all room
  obtain ⟨-, total⟩ := fillBuf_plain r sd
  generalize CrlfStream.fillBuf r sd = q at filled total
  cases filled with
  | blocked _ _ fewer _ => simp [ready] at fewer
  | ended wire count _ =>
    rw [wire, List.append_nil, holds.length] at long
    omega
  | more holds' advances examined some_ =>
    exact ⟨⟨rfl, ⟨_, holds', advances⟩, examined, some_, holds.length, ready⟩, total⟩

theorem Grown.goes_on {q : CrlfReadRes × CrlfReader × Socket} (grown : Grown r data sd q)
    (clean : Clean (data ++ sd.wire) (data ++ sd.wire).length) :
    ∃ e, examine q.2.1 = .inr e ∧ ∃ data', Holds { q.2.1 with examined := e } data' ∧
      data' ++ q.2.2.wire = data ++ sd.wire ∧ q.2.2.arrivals = [] ∧
      q.2.1.count - e + q.2.2.wire.length < r.count - r.examined + sd.wire.length := by
  obtain ⟨got, holds, advances⟩ := grown.more
  have stream : data ++ got ++ q.2.2.wire = data ++ sd.wire := by
    rw [List.append_assoc, advances.wire]
  have wires : got.length + q.2.2.wire.length = sd.wire.length := by
    rw [← List.length_append, advances.wire]
  have count := holds.length
  rw [List.length_append, grown.size] at count
  have examined := grown.examined
  have learnt := examine_learnt holds grown.some_
  cases look : examine q.2.1 with
  | inr e =>
    rw [look] at learnt
    obtain ⟨further, moved⟩ := learnt
    have seen := further.seen
    dsimp only at seen
    have still : q.2.2.arrivals = [] := List.length_eq_zero_iff.mp
      (Nat.le_zero.mp (advances.arrivals.trans (by rw [grown.ready]; rfl)))
    exact ⟨e, rfl, _, further, stream, still, by omega⟩
  | inl n =>
    rw [look] at learnt
    obtain ⟨i, -, here, -, inside⟩ := learnt
    have within : i + 1 < (data ++ got).length := by
      rw [List.length_append, grown.size]
      omega
    rw [← stream] at clean
    exact absurd ((crlfAt_append q.2.2.wire within).mpr here)
      (clean i (by rw [List.length_append]; omega))

end Endless

end Libdank.CrlfStream.Ownership
