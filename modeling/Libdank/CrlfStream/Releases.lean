import Libdank.CrlfStream.Passes

/-! Which blocks a reader gives back. When the buffer cannot grow it is freed, and
the reader keeps the pointer to it: whatever is called after that, it is freed again. -/
namespace Libdank.CrlfStream.Ownership
open Buffers Requests

variable (junk : ℕ → UInt8)

section Steps

/-- The buffer is the only one there has been, if there is one, and has not been freed. -/
structure Intact (o : Holder) : Prop where
  only : o.buffers = o.buf.toList
  there : 0 < o.reader.total ↔ o.buf ≠ none
  known : ∀ b, o.buf = some b → b < o.blocks.next
  apart : ∀ b, o.iv = some b → b < o.blocks.next ∧ o.buf ≠ some b
  held : ∀ b, o.buf = some b → b ∉ o.blocks.freed ∧ b ∉ o.blocks.stale
  past : ∀ b, b ∈ o.blocks.freed ∨ b ∈ o.blocks.stale → b < o.blocks.next

def Dangling (o : Holder) : Prop := ∃ b, o.buf = some b ∧ b ∈ o.buffers ∧ b ∈ o.blocks.freed

theorem touch_eq {m : Blocks} {p : Pointer ℕ} (held : ∀ b, p = some b → b ∉ m.freed) :
    m.touch p = m := by
  cases p with
  | none => rfl
  | some b => simp [Blocks.touch, held b rfl]

namespace Intact
variable {o : Holder}

theorem useBuf_eq (i : Intact o) : o.useBuf = o := by
  rw [Holder.useBuf, touch_eq fun b at_ => (i.held b at_).1]

theorem withReader (i : Intact o) {r : CrlfReader} (there : 0 < r.total ↔ o.buf ≠ none) :
    Intact { o with reader := r } := ⟨i.only, there, i.known, i.apart, i.held, i.past⟩

theorem useBuf (i : Intact o) : Intact o.useBuf := by rwa [i.useBuf_eq]

theorem takeBuf (i : Intact o) (first : o.buf = none) {r : CrlfReader} (total : 0 < r.total) :
    Intact { o with reader := r }.takeBuf where
  only := by
    rw [Holder.takeBuf, i.only, first]
    rfl
  there := iff_of_true total (Option.some_ne_none _)
  known b at_ := by
    obtain rfl := Option.some.inj at_
    exact Nat.lt_succ_self _
  apart b iv := by
    obtain ⟨before, -⟩ := i.apart b iv
    refine ⟨Nat.lt_succ_of_lt before, fun at_ => ?_⟩
    obtain rfl := Option.some.inj at_
    exact lt_irrefl _ before
  held b at_ := by
    obtain rfl := Option.some.inj at_
    exact ⟨fun mem => lt_irrefl _ (i.past _ (.inl mem)), fun mem => lt_irrefl _ (i.past _ (.inr mem))⟩
  past b mem := Nat.lt_succ_of_lt (i.past b mem)

theorem takeIv (i : Intact o) : Intact o.takeIv where
  only := i.only
  there := i.there
  known b at_ := Nat.lt_succ_of_lt (i.known b at_)
  apart b iv := by
    obtain rfl := Option.some.inj iv
    exact ⟨Nat.lt_succ_self _, fun at_ => lt_irrefl _ (i.known _ at_)⟩
  held := i.held
  past b mem := Nat.lt_succ_of_lt (i.past b mem)

theorem free_other (i : Intact o) {p : Pointer ℕ}
    (apart : ∀ b, p = some b → b < o.blocks.next ∧ o.buf ≠ some b) :
    Intact { o with blocks := o.blocks.free p } := by
  cases p with
  | none => exact i
  | some line =>
    obtain ⟨before, other⟩ := apart line rfl
    have stale : ∀ b, b ∈ (o.blocks.touch (some line)).stale → b = line ∨ b ∈ o.blocks.stale := by
      intro b mem
      rcases List.mem_append.mp mem with now | then_
      · exact .inl (List.mem_singleton.mp (List.mem_filter.mp now).1)
      · exact .inr then_
    refine ⟨i.only, i.there, i.known, i.apart, fun b at_ => ?_, fun b mem => ?_⟩
    · have differs : b ≠ line := fun same => other (same ▸ at_)
      obtain ⟨kept, unused⟩ := i.held b at_
      refine ⟨fun mem => ?_, fun mem => (stale b mem).elim differs unused⟩
      exact (List.mem_cons.mp mem).elim differs kept
    · rcases mem with freed | late
      · exact (List.mem_cons.mp freed).elim (fun same => same ▸ before) fun mem => i.past b (.inl mem)
      · exact (stale b late).elim (fun same => same ▸ before) fun mem => i.past b (.inr mem)

theorem settle (i : Intact o) (res : CrlfReadRes) : Intact (o.settle res) := by
  rw [Holder.settle]
  split_ifs
  · exact i.free_other i.apart
  · exact i

end Intact

namespace Dangling
variable {o : Holder}

theorem settle (d : Dangling o) (res : CrlfReadRes) : Dangling (o.settle res) := by
  rw [Holder.settle]
  split_ifs
  swap
  · exact d
  obtain ⟨b, at_, had, freed⟩ := d
  exact ⟨b, at_, had, List.mem_append_right _ freed⟩

end Dangling

/-- The buffer is intact if `spared`, and otherwise has been freed. -/
def Told (spared : Prop) (o : Holder) : Prop := spared ∧ Intact o ∨ ¬ spared ∧ Dangling o

theorem Refill.dangling {o o' : Holder} {h : Heap} {res : CrlfReadRes}
    (way : Refill o h res o') (d : Dangling o) : Dangling o' := by
  obtain ⟨b, at_, had, freed⟩ := d
  cases way with
  | none => exact ⟨b, at_, had, freed⟩
  | stuffed => exact ⟨b, at_, had, freed⟩
  | filled => exact ⟨b, at_, had, freed⟩
  | taken _ _ _ first => exact absurd (first.symm.trans at_) (by simp)
  | grown => exact ⟨b, at_, had, freed⟩
  | freed => exact ⟨b, at_, had, List.mem_append_right _ freed⟩

theorem Refill.told {o o' : Holder} {h : Heap} {res : CrlfReadRes}
    (way : Refill o h res o') (i : Intact o) :
    ¬ Refused o.reader h ∧ Intact o' ∨ Refused o.reader h ∧ Dangling o' ∧ res ≠ .success := by
  cases way with
  | none _ spared => exact .inl ⟨spared, i⟩
  | stuffed _ spared => exact .inl ⟨spared, i⟩
  | filled _ spared _ total => exact .inl ⟨spared, (i.withReader (total ▸ i.there)).useBuf⟩
  | taken _ spared _ first total => exact .inl ⟨spared, (i.takeBuf first total).useBuf⟩
  | grown _ spared _ there total =>
    exact .inl ⟨spared, (i.withReader (iff_of_true total there)).useBuf.useBuf⟩
  | @freed r _ refused total =>
    by_cases none_ : o.buf = Option.none
    · have same : ({ o with reader := r } : Holder).freeBuf = { o with reader := r } := by
        rw [Holder.freeBuf, none_]
        rfl
      rw [same]
      have zero : ¬ 0 < o.reader.total := mt i.there.mp (not_not.mpr none_)
      exact .inl ⟨mt refused.mp zero, i.withReader (total ▸ i.there)⟩
    · obtain ⟨b, at_⟩ := Option.ne_none_iff_exists'.mp none_
      have mine : b ∈ o.buf.toList := Option.mem_toList.mpr at_
      exact .inr ⟨refused.mpr (i.there.mpr none_),
        ⟨b, at_, i.only ▸ mine, List.mem_append_left _ mine⟩, by decide⟩

end Steps

section Runs

theorem deliver_intact {o : Holder} (i : Intact o) (len : ℕ) (h : Heap) :
    Intact (deliver o len h).1.2 := by
  rcases deliver_cases o len h with ⟨res, r, same, -, -, total⟩ | same
  · rw [same]
    exact (i.withReader (total ▸ i.there)).takeIv.useBuf
  · rw [same]
    exact i

theorem deliver_dangling {o : Holder} (d : Dangling o) (len : ℕ) (h : Heap) :
    Dangling (deliver o len h).1.2 := by
  rcases deliver_cases o len h with ⟨res, r, same, -⟩ | same
  · rw [same]
    exact d
  · rw [same]
    exact d

theorem crlfLoop_dangling (passes : ℕ) (o : Holder) (sd : Socket) (h : Heap) :
    Dangling o → Dangling (crlfLoop junk passes o sd h).1.2.1 := by
  induction passes, o, sd, h using crlfLoop_induction junk with
  | spent o sd h => exact id
  | stop passes o sd h res o' sd' h' refilled way failed => exact way.dangling
  | again passes o sd h o' sd' h' examined res o'' refilled way look ended =>
    exact fun d => ended (way.dangling d)
  | line passes o sd h o' sd' h' len refilled way look =>
    exact fun d => @deliver_dangling o'.useBuf (way.dangling d) len h'

/-- A call that starts with an intact buffer leaves it so, unless one of its passes is
refused a larger one. -/
theorem crlfLoop_told (passes : ℕ) (o : Holder) (sd : Socket) (h : Heap) :
    Intact o → Told (LoopAlong junk (fun r h => ¬ Refused r h) passes o.reader sd h)
      (crlfLoop junk passes o sd h).1.2.1 := by
  induction passes, o, sd, h using crlfLoop_induction junk with
  | spent o sd h => exact fun i => .inl ⟨trivial, i⟩
  | stop passes o sd h res o' sd' h' refilled way failed =>
    intro i
    rw [loopAlong_succ junk refilled]
    rcases way.told i with ⟨spared, intact⟩ | ⟨refused, dangling, -⟩
    · exact .inl ⟨⟨spared, fun success => absurd success failed⟩, intact⟩
    · exact .inr ⟨fun along => along.1 refused, dangling⟩
  | again passes o sd h o' sd' h' examined res o'' refilled way look ended =>
    intro i
    rcases way.told i with ⟨spared, intact⟩ | ⟨-, -, failed⟩
    · have iff_ : LoopAlong junk (fun r h => ¬ Refused r h) (passes + 1) o.reader sd h ↔
          LoopAlong junk (fun r h => ¬ Refused r h) passes (o'.again examined).reader sd' h' := by
        rw [loopAlong_succ junk refilled]
        simp [spared, look]
      rw [iff_]
      exact ended (intact.useBuf.withReader intact.there)
    · exact absurd rfl failed
  | line passes o sd h o' sd' h' len refilled way look =>
    intro i
    rw [loopAlong_succ junk refilled]
    rcases way.told i with ⟨spared, intact⟩ | ⟨-, -, failed⟩
    · refine .inl ⟨⟨spared, fun _ examined other => ?_⟩, deliver_intact intact.useBuf len h'⟩
      simp [look] at other
    · exact absurd rfl failed

theorem readCalls_dangling (calls : ℕ) (o : Holder) (sd : Socket) (h : Heap) (d : Dangling o) :
    Dangling (readCalls junk calls o sd h).1.2 := by
  induction calls generalizing o sd h with
  | zero => exact d
  | succ calls ih =>
    have called : Dangling (readCrlfLine junk o sd h).1.2.1 := crlfLoop_dangling junk _ o sd h d
    rw [readCalls_last]
    exact ih _ _ _ (called.settle _)

theorem readCalls_told (calls : ℕ) (o : Holder) (sd : Socket) (h : Heap) (i : Intact o) :
    Told (RunAlong junk (fun r h => ¬ Refused r h) calls o.reader sd h)
      (readCalls junk calls o sd h).1.2 := by
  induction calls generalizing o sd h with
  | zero => exact .inl ⟨trivial, i⟩
  | succ calls ih =>
    have told := crlfLoop_told junk (o.reader.count - o.reader.examined + sd.wire.length + 1) o sd h i
    rw [readCalls_last, RunAlong, ← readCrlfLine_mirrors]
    rcases told with ⟨along, intact⟩ | ⟨refused, dangling⟩
    · have called : Intact (readCrlfLine junk o sd h).1.2.1 := intact
      rcases ih _ _ (readCrlfLine junk o sd h).2 (called.settle _) with ⟨later, last⟩ | ⟨later, last⟩
      · rw [settle_reader] at later
        exact .inl ⟨⟨along, later⟩, last⟩
      · rw [settle_reader] at later
        exact .inr ⟨fun both => later both.2, last⟩
    · have called : Dangling (readCrlfLine junk o sd h).1.2.1 := dangling
      exact .inr ⟨fun both => refused both.1, readCalls_dangling junk _ _ _ _ (called.settle _)⟩

theorem zeroHolder_intact : Intact zeroHolder where
  only := rfl
  there := by decide
  known b at_ := absurd at_ (by simp [zeroHolder])
  apart b iv := absurd iv (by simp [zeroHolder])
  held b at_ := absurd at_ (by simp [zeroHolder])
  past b mem := absurd mem (by simp [zeroHolder])

theorem initCrlfReader_intact (h : Heap) : Intact (initCrlfReader junk h).1.2 := by
  rw [initCrlfReader, bind_apply, growBuf, bind_apply]
  have grows := growBuf_cases junk zeroHolder.reader h
  generalize CrlfStream.growBuf junk zeroHolder.reader h = q at grows
  obtain ⟨⟨growth, r⟩, h'⟩ := q
  rcases grows with ⟨large, -⟩ | ⟨-, -, r', run, total, -⟩ | ⟨-, -, r', run, total⟩
  · exact absurd large (by decide)
  · obtain ⟨rfl, rfl⟩ := Prod.mk.inj run
    exact zeroHolder_intact.takeBuf rfl total
  · obtain ⟨rfl, rfl⟩ := Prod.mk.inj run
    exact zeroHolder_intact.withReader (total ▸ zeroHolder_intact.there)

theorem Told.releasedOnce_iff {spared : Prop} {o : Holder} (told : Told spared o) :
    ReleasedOnce (resetCrlfReader o) ↔ spared := by
  have again (b : ℕ) (at_ : o.buf = some b) :
      (resetCrlfReader o).blocks.freed = b :: o.blocks.freed := by
    change o.buf.toList ++ o.blocks.freed = _
    rw [at_]
    rfl
  rcases told with ⟨kept, i⟩ | ⟨lost, b, at_, had, freed⟩
  · refine iff_of_true (fun b mem => ?_) kept
    have at_ : o.buf = some b := Option.mem_toList.mp (i.only ▸ mem)
    obtain ⟨held, unused⟩ := i.held b at_
    rw [again b at_, List.count_cons_self, List.count_eq_zero.mpr held]
    refine ⟨rfl, ?_⟩
    change b ∉ (o.blocks.touch o.buf).stale
    rwa [touch_eq fun b at_ => (i.held b at_).1]
  · refine iff_of_false (fun once => ?_) lost
    have twice := (once b had).1
    rw [again b at_, List.count_cons_self] at twice
    have := List.count_pos_iff.mpr freed
    omega

end Runs

section Refusals

theorem crlfLoop_refused (passes : ℕ) (r : CrlfReader) (data : Bytes) (sd : Socket) (h : Heap)
    (holds : Holds r data) (ready : sd.arrivals = []) (small : r.total < maxLineSize)
    (no : h.answer 0 = false) (long : r.total ≤ (data ++ sd.wire).length)
    (clean : Clean (data ++ sd.wire) (data ++ sd.wire).length)
    (enough : r.count - r.examined + sd.wire.length < passes) :
    ¬ LoopAlong junk (fun r h => ¬ Refused r h) passes r sd h := by
  induction passes generalizing r data sd with
  | zero => omega
  | succ passes ih =>
    rintro ⟨spared, next⟩
    have step : Grown r data sd (CrlfStream.refill junk r sd h).1 ∧
        (CrlfStream.refill junk r sd h).1.2.1.total = r.total ∧
        (CrlfStream.refill junk r sd h).2 = h := by
      rw [CrlfStream.refill]
      by_cases all : r.examined = r.count
      swap
      · rw [if_neg all]
        exact ⟨grown_refl holds ready all, rfl, rfl⟩
      have fits := holds.fits
      have room : r.count ≠ r.total := fun full =>
        spared ⟨all, holds.going, full, small, holds.room, no⟩
      rw [if_pos all, CrlfStream.readCrData, if_neg (by simp [holds.going]), if_neg room]
      obtain ⟨grown, total⟩ := fillBuf_grown holds ready long all (by omega)
      exact ⟨grown, total, rfl⟩
    obtain ⟨grown, total, same⟩ := step
    obtain ⟨e, look, data', holds', stream, ready', fewer⟩ := grown.goes_on clean
    rw [← stream] at long clean
    rw [← total] at small long
    refine ih _ _ _ holds' ready' small long clean (by dsimp only; omega) ?_
    have along := next grown.res e look
    rwa [same] at along

def freshReader : CrlfReader :=
  { zeroCrlfReader with total := 8192, buf := some (regrow junk [] 8192) }

theorem freshReader_holds : Holds (freshReader junk) [] where
  buf := ⟨_, rfl, length_regrow junk [] (Nat.zero_le 8192), slice_zero _ _⟩
  fits := Nat.zero_le _
  room := Nat.succ_pos 8191
  seen := le_rfl
  clean _ lt := absurd lt (Nat.not_lt_zero _)
  going := rfl

theorem initCrlfReader_granted (h : Heap) (yes : h.answer 0 = true) :
    CrlfStream.initCrlfReader junk h = ((true, freshReader junk), h.later 1) := by
  have size : (if zeroCrlfReader.total + 8192 > maxLineSize then maxLineSize
    else zeroCrlfReader.total + 8192) = 8192 := by decide
  rw [CrlfStream.initCrlfReader, bind_apply, CrlfStream.growBuf, if_neg (by decide), size, bind_apply,
    allocate_eq (by decide), yes, freshReader]
  rfl

theorem readSession_refused (stream : Bytes) (clean : Clean stream stream.length)
    (long : 8192 ≤ stream.length) (calls : ℕ) (h : Heap) (yes : h.answer 0 = true)
    (no : h.answer 1 = false) :
    ¬ ReleasedOnce (readSession junk (calls + 1) ⟨stream, []⟩ h).1.2 := by
  have told := readCalls_told junk (calls + 1) _ ⟨stream, []⟩ (initCrlfReader junk h).2
    (initCrlfReader_intact junk h)
  refine fun once => ?_
  have along := (told.releasedOnce_iff.mp once).1
  have started := (initCrlfReader_mirrors junk h).trans (initCrlfReader_granted junk h yes)
  obtain ⟨state, heap⟩ := Prod.mk.inj started
  obtain ⟨-, reader⟩ := Prod.mk.inj state
  rw [reader, heap] at along
  exact crlfLoop_refused junk _ (freshReader junk) [] ⟨stream, []⟩ (h.later 1)
    (freshReader_holds junk) rfl (show 8192 < maxLineSize by decide) (by rwa [answer_later]) long
    clean (Nat.lt_succ_self _) along

end Refusals

/-- Over any number of calls and any pattern of refusals, the reader's buffer is freed
once and not used after, just when no pass of a call is refused a larger one in the
place of one there is. -/
theorem readSession_releasedOnce_iff (calls : ℕ) (sd : Socket) (h : Heap) :
    ReleasedOnce (readSession junk calls sd h).1.2 ↔
      RunAlong junk (fun r h => ¬ Refused r h) calls (CrlfStream.initCrlfReader junk h).1.2 sd
        (CrlfStream.initCrlfReader junk h).2 := by
  rw [← initCrlfReader_mirrors]
  exact (readCalls_told junk calls _ sd _ (initCrlfReader_intact junk h)).releasedOnce_iff

/-- 8192 bytes without a CR LF fill the first buffer, and the second is refused. -/
theorem readSession_releases_twice :
    ¬ ReleasedOnce (readSession (fun _ => 0) 1 ⟨List.replicate 8192 0x61, []⟩
      ⟨[true, false], false⟩).1.2 := by
  generalize size : 8192 = n
  have clean : cr ∉ List.replicate n (0x61 : UInt8) := fun mem => by
    cases List.eq_of_mem_replicate mem
  refine readSession_refused _ (List.replicate n 0x61) (clean_of_no_cr clean _) ?_ 0 _ rfl rfl
  rw [size, List.length_replicate]

end Libdank.CrlfStream.Ownership
