import Mathlib.Data.List.Basic
import Mathlib.Tactic

/-! Writing all of a buffer, after `utils/fds.c`. -/
namespace Libdank.Descriptors

/-- What `write` comes to. It never writes more than it is asked to, however large the count. -/
inductive WriteResult where
  | wrote (count : ℕ)
  | eintr
  | error (code : ℕ)
deriving DecidableEq, Repr

structure Written where
  ret : ℤ
  out : List UInt8
deriving DecidableEq, Repr

def intMax : ℕ := 2 ^ 31 - 1

/-- `while(off < s)`; nothing is returned where the results are used up before the loop ends. -/
def writeLoop (buf : List UInt8) (off : ℕ) : List WriteResult → Option Written
  | [] => if off < buf.length then none else some ⟨0, []⟩
  | .wrote count :: results =>
    if off < buf.length then
      let ret := min count (buf.length - off)
      if ret = 0 then some ⟨0, []⟩
      else
        (writeLoop buf (off + ret) results).map fun w =>
          { w with out := (buf.drop off).take ret ++ w.out }
    else some ⟨0, []⟩
  | .eintr :: results => if off < buf.length then writeLoop buf off results else some ⟨0, []⟩
  | .error _ :: _ => if off < buf.length then some ⟨-1, []⟩ else some ⟨0, []⟩

def writen (buf : List UInt8) (results : List WriteResult) : Option Written :=
  if intMax < buf.length then some ⟨-1, []⟩ else writeLoop buf 0 results

/-- A result that tells whether `data` has been written, each byte once and in order. -/
def Written.Tells (data : List UInt8) (w : Written) : Prop :=
  if w.out = data then 0 ≤ w.ret else w.ret = -1

instance (data : List UInt8) : DecidablePred (Written.Tells data) := fun w =>
  inferInstanceAs (Decidable (if w.out = data then 0 ≤ w.ret else w.ret = -1))

def WriteResult.count : WriteResult → ℕ
  | .wrote count => count
  | _ => 0

/-- Whenever nothing is written, there has been an error, or nothing was left to be written. -/
def EofLate (need : ℕ) (results : List WriteResult) : Prop :=
  ∀ before after, results = before ++ .wrote 0 :: after →
    (∃ code, .error code ∈ before) ∨ need ≤ (before.map WriteResult.count).sum

theorem eofLate_nil (need : ℕ) : EofLate need [] := by
  intro before after split
  cases before <;> cases split

theorem eofLate_none (results : List WriteResult) : EofLate 0 results :=
  fun _ _ _ => .inr (Nat.zero_le _)

theorem eofLate_error (need code : ℕ) (results : List WriteResult) :
    EofLate need (.error code :: results) := by
  intro before after split
  cases before with
  | nil => cases split
  | cons r before =>
    obtain ⟨rfl, -⟩ := List.cons.inj split
    exact .inl ⟨code, List.mem_cons_self⟩

theorem not_eofLate_eof {need : ℕ} (pos : 0 < need) (results : List WriteResult) :
    ¬ EofLate need (.wrote 0 :: results) := by
  intro late
  rcases late [] results rfl with ⟨code, none_⟩ | enough
  · cases none_
  · exact absurd enough (Nat.not_le.mpr pos)

theorem eofLate_cons {r : WriteResult} (eof : r ≠ .wrote 0) (error : ∀ code, r ≠ .error code)
    (need : ℕ) (results : List WriteResult) :
    EofLate need (r :: results) ↔ EofLate (need - r.count) results := by
  constructor
  · intro late before after split
    rcases late (r :: before) after (congrArg (r :: ·) split) with ⟨code, seen⟩ | enough
    · rcases List.mem_cons.mp seen with here | there
      · exact absurd here.symm (error code)
      · exact .inl ⟨code, there⟩
    · rw [List.map_cons, List.sum_cons] at enough
      exact .inr (by omega)
  · intro late before after split
    cases before with
    | nil => exact absurd (List.cons.inj split).1 eof
    | cons r' before =>
      obtain ⟨rfl, tail⟩ := List.cons.inj split
      rcases late before after tail with ⟨code, seen⟩ | enough
      · exact .inl ⟨code, List.mem_cons_of_mem _ seen⟩
      · rw [List.map_cons, List.sum_cons]
        exact .inr (by omega)

def LoopTells (buf : List UInt8) (off : ℕ) (results : List WriteResult) : Prop :=
  ∀ w ∈ writeLoop buf off results, w.Tells (buf.drop off)

theorem loopTells_done {buf : List UInt8} {off : ℕ} (done : ¬ off < buf.length)
    (results : List WriteResult) : LoopTells buf off results := by
  have nothing : buf.drop off = [] := List.drop_eq_nil_of_le (Nat.not_lt.mp done)
  have loop : writeLoop buf off results = some ⟨0, []⟩ := by
    rcases results with _ | ⟨_ | _ | _, results⟩ <;> rw [writeLoop, if_neg done]
  intro w ended
  rw [loop] at ended
  obtain rfl := Option.some.inj ended
  rw [Written.Tells, nothing, if_pos rfl]

theorem loopTells_wrote {buf : List UInt8} {off count : ℕ} (more : off < buf.length)
    (pos : 0 < count) (results : List WriteResult) :
    LoopTells buf off (.wrote count :: results) ↔
      LoopTells buf (off + min count (buf.length - off)) results := by
  have some_ : min count (buf.length - off) ≠ 0 := by omega
  have rest : buf.drop off = (buf.drop off).take (min count (buf.length - off)) ++
      buf.drop (off + min count (buf.length - off)) := by
    rw [← List.drop_drop]
    exact (List.take_append_drop _ _).symm
  unfold LoopTells
  rw [writeLoop, if_pos more]
  simp only [if_neg some_, Option.mem_map, forall_exists_index, and_imp, forall_apply_eq_imp_iff₂]
  refine forall₂_congr fun w _ => ?_
  have same : (buf.drop off).take (min count (buf.length - off)) ++ w.out = buf.drop off ↔
      w.out = buf.drop (off + min count (buf.length - off)) := by
    constructor
    · intro all
      exact List.append_cancel_left (all.trans rest)
    · intro all
      rw [all]
      exact rest.symm
  unfold Written.Tells
  simp only [same]

theorem loopTells_iff (buf : List UInt8) (results : List WriteResult) :
    ∀ off, LoopTells buf off results ↔ EofLate (buf.length - off) results := by
  induction results with
  | nil =>
    intro off
    refine iff_of_true ?_ (eofLate_nil _)
    by_cases more : off < buf.length
    · intro w ended
      rw [writeLoop, if_pos more] at ended
      cases ended
    · exact loopTells_done more _
  | cons r results ih =>
    intro off
    by_cases more : off < buf.length
    case neg =>
      rw [Nat.sub_eq_zero_of_le (Nat.not_lt.mp more)]
      exact iff_of_true (loopTells_done more _) (eofLate_none _)
    have left : buf.drop off ≠ [] := by
      rw [Ne, List.drop_eq_nil_iff]
      omega
    cases r with
    | eintr =>
      rw [eofLate_cons (r := .eintr) nofun nofun, show WriteResult.eintr.count = 0 from rfl,
        Nat.sub_zero, ← ih off, LoopTells, writeLoop, if_pos more]
      exact Iff.rfl
    | error code =>
      refine iff_of_true ?_ (eofLate_error _ _ _)
      intro w ended
      rw [writeLoop, if_pos more] at ended
      obtain rfl := Option.some.inj ended
      rw [Written.Tells, if_neg left.symm]
    | wrote count =>
      rcases Nat.eq_zero_or_pos count with rfl | pos
      · refine iff_of_false (fun tells => ?_) (not_eofLate_eof (by omega) _)
        have ended := tells ⟨0, []⟩ (by rw [writeLoop, if_pos more]; simp)
        rw [Written.Tells, if_neg left.symm] at ended
        exact absurd ended (by decide)
      · rw [loopTells_wrote more pos, ih,
          eofLate_cons (r := .wrote count) (fun eof => pos.ne' (WriteResult.wrote.inj eof)) nofun,
          WriteResult.count]
        have same : buf.length - (off + min count (buf.length - off)) = buf.length - off - count := by
          omega
        rw [same]

/-- The value returned tells whether all has been written, unless a call before that writes nothing. -/
theorem writen_tells_iff (buf : List UInt8) (results : List WriteResult)
    (small : buf.length ≤ intMax) :
    (∀ w ∈ writen buf results, w.Tells buf) ↔ EofLate buf.length results := by
  have loop := loopTells_iff buf results 0
  rw [LoopTells, List.drop_zero, Nat.sub_zero] at loop
  rw [← loop, writen, if_neg (Nat.not_lt.mpr small)]

theorem writen_tells_iff_partial :
    (∀ w ∈ writen [65, 66] [.wrote 1, .eintr, .wrote 5], w.Tells [65, 66]) ↔
      EofLate 2 [.wrote 1, .eintr, .wrote 5] :=
  writen_tells_iff [65, 66] [.wrote 1, .eintr, .wrote 5] (by decide)

/-- Success is reported for a byte that was never written. -/
theorem writen_eof : ¬ ∀ w ∈ writen [65] [.wrote 0], w.Tells [65] :=
  fun tells => absurd (tells ⟨0, []⟩ rfl) (by decide)

end Libdank.Descriptors
