import Libdank.MmapWindow.Operations

/-! Windows that keep the length of their file, after `objects/filewindow.h` and
`objects/ringbufs.h`. The two differ in `trim` alone. -/
namespace Libdank.MmapWindow
open Transitions

/-- `scratchfile_window` and `scratchfile_ring`, with the length of the file. -/
structure Scratchfile where
  mw : Window
  fd : ℤ
  file : ℕ
deriving DecidableEq, Repr

def protWrite (prot : ℕ) : Bool := prot.testBit 1

/-- `ftruncate`, which takes no negative length. -/
def ftruncate (able : Bool) (sw : Scratchfile) (len : ℕ) : Bool × Scratchfile :=
  if able ∧ len < 2 ^ 63 then (true, { sw with file := len }) else (false, sw)

/-- The second part is reached if the first returned 0. -/
def andThen {σ : Type} (first : Bool × σ) (second : σ → Bool × σ) : Bool × σ :=
  if first.1 then second first.2 else (false, first.2)

variable (a : Answers) (sw : Scratchfile)

def truncateWritable (prot : ℕ) (len : ℕ) : Bool × Scratchfile :=
  if protWrite prot ∧ 0 ≤ sw.fd then ftruncate a.truncated sw len else (true, sw)

def onWindow (result : Bool × Window) : Bool × Scratchfile := (result.1, { sw with mw := result.2 })

def initializeScratchfileWindow (fd : ℤ) (prot len : ℕ) : Bool × Scratchfile :=
  andThen (truncateWritable a { sw with fd := fd } prot len) fun sw =>
    onWindow sw (initializeMmapWindow a sw.mw fd len)

def shrinkScratchfileWindow (delta : ℕ) : Bool × Scratchfile :=
  onWindow sw (shrinkMmapWindow a sw.mw delta)

def trimScratchfileWindow (prot delta : ℕ) : Bool × Scratchfile :=
  andThen (onWindow sw (trimMmapWindow a sw.mw delta)) fun sw =>
    truncateWritable a sw prot (wordSub (mmapWindowTotallen sw.mw) delta)

def extendScratchfileWindow (prot delta : ℕ) : Bool × Scratchfile :=
  andThen (truncateWritable a sw prot (word (mmapWindowTotallen sw.mw + delta))) fun sw =>
    onWindow sw (extendMmapWindow a sw.mw delta)

def slideScratchfileWindow (prot delta : ℕ) : Bool × Scratchfile :=
  andThen (truncateWritable a sw prot (word (mmapWindowTotallen sw.mw + delta))) fun sw =>
    onWindow sw (slideMmapWindow a sw.mw sw.fd delta)

def resetScratchfileWindow (prot : ℕ) : Bool × Scratchfile :=
  andThen (onWindow sw (resetMmapWindow a sw.mw sw.fd)) fun sw =>
    truncateWritable a sw prot (mmapWindowTotallen sw.mw)

abbrev initializeScratchfileRing := initializeScratchfileWindow

abbrev shrinkScratchfileRing := shrinkScratchfileWindow

abbrev extendScratchfileRing := extendScratchfileWindow

abbrev slideScratchfileRing := slideScratchfileWindow

abbrev resetScratchfileRing := resetScratchfileWindow

/-- Unlike that of the window it asks for no protection. -/
def trimScratchfileRing (delta : ℕ) : Bool × Scratchfile :=
  andThen (onWindow sw (trimMmapWindow a sw.mw delta)) fun sw =>
    if 0 ≤ sw.fd then ftruncate a.truncated sw (wordSub (mmapWindowTotallen sw.mw) delta) else (true, sw)

inductive Kind where
  | window
  | ring
deriving DecidableEq, Repr

def scratchfileStep (kind : Kind) (sw : Scratchfile) (c : Call) : Option Scratchfile :=
  succeeded <|
    match kind, c.op with
    | .window, .initializeWindow len => initializeScratchfileWindow c.answers sw c.fd c.prot len
    | .window, .shrink delta => shrinkScratchfileWindow c.answers sw delta
    | .window, .trim delta => trimScratchfileWindow c.answers sw c.prot delta
    | .window, .extend delta => extendScratchfileWindow c.answers sw c.prot delta
    | .window, .slide delta => slideScratchfileWindow c.answers sw c.prot delta
    | .window, .reset => resetScratchfileWindow c.answers sw c.prot
    | .ring, .initializeWindow len => initializeScratchfileRing c.answers sw c.fd c.prot len
    | .ring, .shrink delta => shrinkScratchfileRing c.answers sw delta
    | .ring, .trim delta => trimScratchfileRing c.answers sw delta
    | .ring, .extend delta => extendScratchfileRing c.answers sw c.prot delta
    | .ring, .slide delta => slideScratchfileRing c.answers sw c.prot delta
    | .ring, .reset => resetScratchfileRing c.answers sw c.prot

/-- The file ends where the window does. -/
def Synced (sw : Scratchfile) : Prop := sw.file = sw.mw.mapoff + sw.mw.maplen

def Writable (c : Call) : Prop := 0 ≤ c.fd ∧ protWrite c.prot = true

def Op.Trims : Op → Prop
  | .trim _ => True
  | _ => False

/-- The window and the file end at the same place, and no offset is negative. -/
structure Scratchfile.Sound (sw : Scratchfile) : Prop where
  fd : 0 ≤ sw.fd
  synced : Synced sw
  file : sw.file < 2 ^ 63

variable {a sw} {t : Scratchfile}

theorem andThen_true {σ : Type} {first : Bool × σ} {second : σ → Bool × σ} {s : σ}
    (ok : andThen first second = (true, s)) : ∃ mid, first = (true, mid) ∧ second mid = (true, s) := by
  unfold andThen at ok
  split at ok
  · rename_i went
    exact ⟨first.2, by rw [← went], ok⟩
  · simp at ok

theorem ftruncate_true {able : Bool} {len : ℕ} (ok : ftruncate able sw len = (true, t)) :
    len < 2 ^ 63 ∧ t = { sw with file := len } := by
  unfold ftruncate at ok
  split at ok
  · exact ⟨And.right ‹_›, (Prod.mk.inj ok).2.symm⟩
  · simp at ok

theorem truncateWritable_true {prot len : ℕ} (fd : 0 ≤ sw.fd) (write : protWrite prot = true)
    (ok : truncateWritable a sw prot len = (true, t)) :
    len < 2 ^ 63 ∧ t = { sw with file := len } := by
  rw [truncateWritable, if_pos ⟨write, fd⟩] at ok
  exact ftruncate_true ok

theorem onWindow_true {result : Bool × Window} (ok : onWindow sw result = (true, t)) :
    result = (true, t.mw) ∧ t = { sw with mw := t.mw } := by
  obtain ⟨went, mw⟩ := result
  cases ok
  exact ⟨rfl, rfl⟩

theorem initialize_sound {fd : ℤ} {prot len : ℕ} (file : 0 ≤ fd) (write : protWrite prot = true)
    (ok : initializeScratchfileWindow a sw fd prot len = (true, t)) : t.Sound := by
  obtain ⟨mid, cut, mapped⟩ := andThen_true ok
  obtain ⟨bound, rfl⟩ := @truncateWritable_true a { sw with fd := fd } mid prot len file write cut
  obtain ⟨mapped, result⟩ := onWindow_true mapped
  have moves := initializeMmapWindow_moves mapped
  generalize t.mw = mw at moves result
  subst result
  cases moves with
  | initializes => exact ⟨file, (Nat.zero_add _).symm, bound⟩

theorem shrink_sound {delta : ℕ} (h : sw.Sound)
    (ok : shrinkScratchfileWindow a sw delta = (true, t)) : t.Sound := by
  obtain ⟨fd, synced, file⟩ := h
  obtain ⟨mapped, result⟩ := onWindow_true ok
  have moves := @shrinkMmapWindow_moves a sw.mw sw.fd delta t.mw mapped
  generalize t.mw = mw at moves result
  subst result
  unfold Synced at synced
  cases moves with
  | shrink pos less =>
    refine ⟨fd, ?_, file⟩
    simp only [Synced, word]
    omega

theorem extend_sound {prot delta : ℕ} (h : sw.Sound) (write : protWrite prot = true)
    (ok : extendScratchfileWindow a sw prot delta = (true, t)) : t.Sound := by
  obtain ⟨fd, synced, file⟩ := h
  obtain ⟨mid, cut, mapped⟩ := andThen_true ok
  obtain ⟨bound, rfl⟩ := truncateWritable_true fd write cut
  obtain ⟨mapped, result⟩ := onWindow_true mapped
  have moves := @extendMmapWindow_moves a sw.mw sw.fd delta t.mw mapped
  generalize t.mw = mw at moves result
  subst result
  unfold Synced at synced
  cases moves with
  | extend mapped =>
    refine ⟨fd, ?_, bound⟩
    simp only [Synced, word, mmapWindowTotallen] at *
    omega

theorem slide_sound {prot delta : ℕ} (h : sw.Sound) (write : protWrite prot = true)
    (ok : slideScratchfileWindow a sw prot delta = (true, t)) : t.Sound := by
  obtain ⟨fd, synced, file⟩ := h
  obtain ⟨mid, cut, mapped⟩ := andThen_true ok
  obtain ⟨bound, rfl⟩ := truncateWritable_true fd write cut
  obtain ⟨mapped, result⟩ := onWindow_true mapped
  have moves := slideMmapWindow_moves mapped
  generalize t.mw = mw at moves result
  subst result
  unfold Synced at synced
  cases moves with
  | slide inside =>
    have inside := inside fd
    refine ⟨fd, ?_, bound⟩
    simp only [Synced, word, mmapWindowTotallen] at *
    omega

theorem reset_sound {prot : ℕ} (h : sw.Sound) (write : protWrite prot = true)
    (ok : resetScratchfileWindow a sw prot = (true, t)) : t.Sound := by
  obtain ⟨fd, synced, file⟩ := h
  obtain ⟨mid, mapped, cut⟩ := andThen_true ok
  obtain ⟨mapped, result⟩ := onWindow_true mapped
  have moves := resetMmapWindow_moves mapped
  generalize mid.mw = mw at moves result
  subst result
  obtain ⟨bound, rfl⟩ := @truncateWritable_true a { sw with mw := mw } t prot _ fd write cut
  unfold Synced at synced
  cases moves with
  | reset =>
    refine ⟨fd, ?_, bound⟩
    simp only [Synced, word, mmapWindowTotallen] at *
    omega

theorem trim_unsynced {delta : ℕ} (h : sw.Sound) {mid : Scratchfile}
    (trimmed : onWindow sw (trimMmapWindow a sw.mw delta) = (true, mid))
    (cut : ftruncate a.truncated mid (wordSub (mmapWindowTotallen mid.mw) delta) = (true, t)) :
    ¬ Synced t := by
  obtain ⟨fd, synced, file⟩ := h
  obtain ⟨mapped, result⟩ := onWindow_true trimmed
  have moves := @trimMmapWindow_moves a sw.mw sw.fd delta mid.mw mapped
  generalize mid.mw = mw at moves result cut
  subst result
  obtain ⟨bound, rfl⟩ := ftruncate_true cut
  unfold Synced at synced
  cases moves with
  | trim pos less =>
    simp only [Synced, word, wordSub, mmapWindowTotallen] at *
    omega

/-- Every operation but `trim` leaves window and file in step. -/
theorem scratchfileStep_sound {kind : Kind} {c : Call} (writable : Writable c)
    (h : sw.Sound ∨ ∃ len, c.op = .initializeWindow len) (keeps : ¬ c.op.Trims)
    (next : scratchfileStep kind sw c = some t) : t.Sound := by
  obtain ⟨op, fd, prot, answers⟩ := c
  obtain ⟨file, write⟩ := writable
  have ok := succeeded_some.mp next
  cases op with
  | initializeWindow len => cases kind <;> exact initialize_sound file write ok
  | trim delta => exact absurd trivial keeps
  | shrink delta =>
    obtain h | ⟨len, other⟩ := h
    · cases kind <;> exact shrink_sound h ok
    · cases other
  | extend delta =>
    obtain h | ⟨len, other⟩ := h
    · cases kind <;> exact extend_sound h write ok
    · cases other
  | slide delta =>
    obtain h | ⟨len, other⟩ := h
    · cases kind <;> exact slide_sound h write ok
    · cases other
  | reset =>
    obtain h | ⟨len, other⟩ := h
    · cases kind <;> exact reset_sound h write ok
    · cases other

theorem scratchfileStep_unsynced {kind : Kind} {c : Call} (writable : Writable c) (h : sw.Sound)
    (trims : c.op.Trims) (next : scratchfileStep kind sw c = some t) : ¬ Synced t := by
  obtain ⟨op, fd, prot, answers⟩ := c
  cases op with
  | trim delta =>
    have ok := succeeded_some.mp next
    cases kind with
    | window =>
      obtain ⟨mid, trimmed, cut⟩ := andThen_true ok
      have file : 0 ≤ mid.fd := (onWindow_true trimmed).2 ▸ h.fd
      rw [truncateWritable, if_pos ⟨writable.2, file⟩] at cut
      exact trim_unsynced h trimmed cut
    | ring =>
      obtain ⟨mid, trimmed, cut⟩ := andThen_true ok
      have file : 0 ≤ mid.fd := (onWindow_true trimmed).2 ▸ h.fd
      rw [if_pos file] at cut
      exact trim_unsynced h trimmed cut
  | initializeWindow | shrink | extend | slide | reset => exact False.elim trims

theorem synced_along_iff {kind : Kind} {calls : List Call} (writable : ∀ c ∈ calls, Writable c)
    (h : sw.Sound) (reached : run (scratchfileStep kind) sw calls = some t) :
    Along (scratchfileStep kind) (fun s c => ∀ t, scratchfileStep kind s c = some t → Synced t) sw calls ↔
      ∀ c ∈ calls, ¬ c.op.Trims := by
  induction calls generalizing sw with
  | nil => simp [Along]
  | cons c calls ih =>
    obtain ⟨here, later⟩ := List.forall_mem_cons.mp writable
    rw [run] at reached
    cases next : scratchfileStep kind sw c with
    | none => simp [next] at reached
    | some mid =>
      rw [next, Option.bind_some] at reached
      simp only [Along, next, Option.elim_some, Option.some.injEq, forall_eq', List.forall_mem_cons]
      by_cases trims : c.op.Trims
      · have unsynced := scratchfileStep_unsynced here h trims next
        exact iff_of_false (fun both => unsynced both.1) fun both => both.1 trims
      · have sound := scratchfileStep_sound here (.inl h) trims next
        rw [ih later sound reached]
        exact and_congr_left' (iff_of_true sound.synced trims)

/-- After each operation on a writable file the file ends where the window does, just
when none of them is a `trim`. -/
theorem synced_iff_no_trim (kind : Kind) (first : Call) (calls : List Call) (before sw : Scratchfile)
    (opens : ∃ len, first.op = .initializeWindow len) (writable : ∀ c ∈ first :: calls, Writable c)
    (reached : run (scratchfileStep kind) before (first :: calls) = some sw) :
    Along (scratchfileStep kind) (fun s c => ∀ t, scratchfileStep kind s c = some t → Synced t) before
        (first :: calls) ↔
      ∀ c ∈ calls, ¬ c.op.Trims := by
  obtain ⟨here, later⟩ := List.forall_mem_cons.mp writable
  rw [run] at reached
  cases next : scratchfileStep kind before first with
  | none => simp [next] at reached
  | some opened =>
    rw [next, Option.bind_some] at reached
    have keeps : ¬ first.op.Trims := by
      obtain ⟨len, op⟩ := opens
      rw [op]
      exact id
    have sound := scratchfileStep_sound here (.inr opens) keeps next
    rw [Along, next, Option.elim_some, synced_along_iff later sound reached]
    exact and_iff_right fun t same => Option.some.inj same ▸ sound.synced

def served (op : Op) : Call := ⟨op, 3, 3, ⟨true, true, some 8192⟩⟩

def trimmedRun : List Call := [served (.initializeWindow 12288), served (.trim 4096)]

theorem trim_cuts_twice :
    ∃ sw, run (scratchfileStep .window) ⟨⟨0, 0, 0⟩, 0, 0⟩ trimmedRun = some sw ∧
      run (scratchfileStep .ring) ⟨⟨0, 0, 0⟩, 0, 0⟩ trimmedRun = some sw ∧
      sw.mw.mapoff + sw.mw.maplen = 8192 ∧ sw.file = 4096 :=
  ⟨⟨⟨8192, 8192, 0⟩, 3, 4096⟩, by decide, by decide, rfl, rfl⟩

def slidRun : List Call := [served (.extend 4096), served (.slide 4096), served .reset]

theorem synced_iff_no_trim_slid :
    Along (scratchfileStep .window)
        (fun s c => ∀ t, scratchfileStep .window s c = some t → Synced t) ⟨⟨0, 0, 0⟩, 0, 0⟩
        (served (.initializeWindow 8192) :: slidRun) :=
  (synced_iff_no_trim .window (served (.initializeWindow 8192)) slidRun ⟨⟨0, 0, 0⟩, 0, 0⟩
    ⟨⟨8192, 12288, 0⟩, 3, 12288⟩ ⟨8192, rfl⟩
    (by simp [slidRun, served, Writable, protWrite]; decide) (by decide)).mpr
    (by simp [slidRun, served, Op.Trims])

end Libdank.MmapWindow
