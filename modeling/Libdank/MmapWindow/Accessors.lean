import Libdank.MmapWindow.Operations

/-! Which offsets the accessors take for valid ones. Their common bound lets the
one behind the last byte in, and `char` lets a byte of a window be the sentinel. -/
namespace Libdank.MmapWindow
open Transitions

def Window.Inside (mw : Window) (off : ℕ) : Prop := mw.mapoff ≤ off ∧ off < mw.mapoff + mw.maplen

def Window.Placed (mw : Window) : Prop := 0 < mw.mapbase ∧ mw.mapbase + mw.maplen < 2 ^ 63

def Window.byte (mw : Window) (memory : ℕ → BitVec 8) (off : ℕ) : BitVec 8 :=
  memory (mw.mapbase + (off - mw.mapoff))

/-- The accessors serve the offsets inside the window, and no others. -/
structure Guarded (mw : Window) (memory : ℕ → BitVec 8) (off : ℕ) : Prop where
  ptrto : mmapWindowPtrto mw off ≠ 0 ↔ mw.Inside off
  constPtrto : mmapWindowConstPtrto mw off ≠ 0 ↔ mw.Inside off
  reads : ∀ address, (mmapWindowCharat mw memory off).1 = some address → mw.Inside off
  sentinel : (mmapWindowCharat mw memory off).2 = -1 ↔ ¬ mw.Inside off

variable {mw : Window}

theorem moves_placed {fd : ℤ} {op : Op} {mw' : Window} (moves : Moves fd mw op mw')
    (placed : mw.Placed ∨ ∃ len, op = .initializeWindow len) : mw'.Placed := by
  unfold Window.Placed at *
  cases moves with
  | initializes mapped => exact ⟨mapped.1, mapped.2.2⟩
  | extend mapped => exact ⟨mapped.1, mapped.2.2⟩
  | shrink pos less =>
    obtain placed | ⟨len, other⟩ := placed
    · simp only [word]
      omega
    · cases other
  | trim pos less =>
    obtain placed | ⟨len, other⟩ := placed
    · simp only
      omega
    · cases other
  | slide inside =>
    obtain placed | ⟨len, other⟩ := placed
    · exact placed
    · cases other
  | reset =>
    obtain placed | ⟨len, other⟩ := placed
    · exact placed
    · cases other

theorem placed_run {first : Call} {calls : List Call} {mw' : Window}
    (opens : ∃ len, first.op = .initializeWindow len)
    (reached : run windowStep mw (first :: calls) = some mw') : mw'.Placed := by
  rw [run] at reached
  cases next : windowStep mw first with
  | none => simp [next] at reached
  | some opened =>
    rw [next, Option.bind_some] at reached
    have placed := moves_placed (windowStep_moves next) (.inr opens)
    exact run_invariant (fun s c t h step => moves_placed (windowStep_moves step) (.inl h)) placed reached

theorem accepts_iff (mw : Window) (off : ℕ) :
    accepts mw off ↔ mw.Inside off ∨ off = mw.mapoff + mw.maplen := by
  unfold accepts Window.Inside
  omega

theorem address_accepted {off : ℕ} (placed : mw.Placed) (accepted : accepts mw off) :
    word (mw.mapbase + (off - mw.mapoff)) = mw.mapbase + (off - mw.mapoff) := by
  unfold Window.Placed at placed
  unfold accepts at accepted
  exact Nat.mod_eq_of_lt (by omega)

theorem ptrto_iff {off : ℕ} (placed : mw.Placed) :
    mmapWindowPtrto mw off ≠ 0 ↔ accepts mw off := by
  unfold mmapWindowPtrto
  split
  · rename_i accepted
    rw [address_accepted placed accepted]
    have pos := placed.1
    exact iff_of_true (by omega) accepted
  · rename_i refused
    exact iff_of_false (not_not.mpr rfl) refused

theorem toInt_eq_sentinel (b : BitVec 8) : b.toInt = -1 ↔ b = 0xff#8 :=
  ⟨fun same => BitVec.eq_of_toInt_eq (same.trans (by decide)), fun same => same ▸ by decide⟩

theorem charat_accepted {memory : ℕ → BitVec 8} {off : ℕ} (placed : mw.Placed)
    (accepted : accepts mw off) : mmapWindowCharat mw memory off =
      (some (mw.mapbase + (off - mw.mapoff)), (mw.byte memory off).toInt) := by
  rw [mmapWindowCharat, if_pos accepted, address_accepted placed accepted]
  rfl

/-- In every window that the operations lead to, the accessors are right about an
offset just when it is not the one behind the last byte and there is no byte 0xff
inside the window at it. -/
theorem guarded_iff (first : Call) (calls : List Call) (before mw : Window)
    (opens : ∃ len, first.op = .initializeWindow len)
    (reached : run windowStep before (first :: calls) = some mw) (memory : ℕ → BitVec 8) (off : ℕ) :
    Guarded mw memory off ↔
      off ≠ mw.mapoff + mw.maplen ∧ ¬ (mw.Inside off ∧ mw.byte memory off = 0xff#8) := by
  have placed := placed_run opens reached
  have accepts := accepts_iff mw off
  constructor
  · intro guarded
    have bound := (ptrto_iff placed).symm.trans guarded.ptrto
    have last : off ≠ mw.mapoff + mw.maplen := by
      intro last
      have inside := bound.mp (accepts.mpr (.inr last))
      unfold Window.Inside at inside
      omega
    refine ⟨last, fun both => ?_⟩
    have sentinel := guarded.sentinel
    rw [charat_accepted placed (bound.mpr both.1), toInt_eq_sentinel] at sentinel
    exact sentinel.mp both.2 both.1
  · rintro ⟨last, plain⟩
    have bound : MmapWindow.accepts mw off ↔ mw.Inside off := by
      rw [accepts, or_iff_left last]
    refine ⟨(ptrto_iff placed).trans bound, (ptrto_iff placed).trans bound, ?_, ?_⟩
    · intro address read
      by_contra outside
      rw [mmapWindowCharat, if_neg fun accepted => outside (bound.mp accepted)] at read
      simp at read
    · by_cases inside : mw.Inside off
      · rw [charat_accepted placed (bound.mpr inside), toInt_eq_sentinel]
        exact iff_of_false (fun byte => plain ⟨inside, byte⟩) (not_not.mpr inside)
      · rw [mmapWindowCharat, if_neg fun accepted => inside (bound.mp accepted)]
        exact iff_of_true rfl inside

def openPage : Call := ⟨.initializeWindow 4096, 3, 3, ⟨true, true, some 8192⟩⟩

theorem page_end_accepted :
    ∃ mw, run windowStep ⟨0, 0, 0⟩ [openPage] = some mw ∧ ¬ mw.Inside 4096 ∧
      mmapWindowPtrto mw 4096 ≠ 0 ∧ (mmapWindowCharat mw (fun _ => 0) 4096).1 = some 12288 ∧
      mw.Inside 0 ∧ (mmapWindowCharat mw (fun _ => 0xff#8) 0).2 = -1 :=
  ⟨⟨8192, 4096, 0⟩, by decide, by simp [Window.Inside], by decide, by decide, by simp [Window.Inside],
    by decide⟩

theorem guarded_iff_page : Guarded ⟨8192, 4096, 0⟩ (fun _ => 7) 4095 :=
  (guarded_iff openPage [] ⟨0, 0, 0⟩ _ ⟨4096, rfl⟩ (by decide) _ _).mpr
    ⟨by decide, fun both => absurd both.2 (by decide)⟩

end Libdank.MmapWindow
