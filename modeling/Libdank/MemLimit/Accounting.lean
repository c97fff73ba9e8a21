import Libdank.MemLimit.Operations

/-! The count of allocations against what the program holds. -/
namespace Libdank.MemLimit
open MmapWindow Transitions

def gain {α : Type} (ret : Option α) : ℤ := if ret.isSome then 1 else 0

@[simp] theorem gain_none {α : Type} : gain (none : Option α) = 0 := rfl

@[simp] theorem gain_some {α : Type} (a : α) : gain (some a) = 1 := rfl

section Calls

variable (m : Memlimit)

@[simp] theorem serve_used : m.serve.allocsUsed = m.allocsUsed + 1 := rfl

@[simp] theorem trackDeallocation_used :
    (trackDeallocation m).allocsUsed = m.allocsUsed - 1 := rfl

@[simp] theorem trackFailloc_used : (trackFailloc m).allocsUsed = m.allocsUsed := rfl

@[simp] theorem checkAllocReq_used (s : ℕ) : (checkAllocReq m s).2.allocsUsed = m.allocsUsed := by
  rw [checkAllocReq]
  dsimp only
  split_ifs <;> rfl

theorem checkAllocReq_allowed (s : ℕ) :
    (checkAllocReq m s).1 = true ↔ s ≠ 0 ∧ m.poisonedIdx ≠ 0 := by
  rw [checkAllocReq]
  dsimp only
  split_ifs with zero poisoned counting <;> simp_all

theorem malloc_used (s : ℕ) (answer : Option ℕ) :
    (malloc m s answer).2.allocsUsed = m.allocsUsed + gain (malloc m s answer).1 := by
  rw [malloc]
  dsimp only
  split_ifs
  · cases answer <;> simp
  · simp

theorem realloc_used (orig : Option ℕ) (s : ℕ) (answer : Option ℕ) :
    (realloc m orig s answer).2.allocsUsed =
      m.allocsUsed + if orig = none then gain (realloc m orig s answer).1 else 0 := by
  rw [realloc]
  dsimp only
  by_cases allowed : (checkAllocReq m s).1 = true
  · simp only [if_pos allowed]
    cases answer <;> cases orig <;> simp
  · simp [allowed]

theorem palloc_used (osiz used p : ℕ) (answer : Option ℕ) {ret : Option Share} {m' : Memlimit}
    (returned : palloc m osiz used p answer = some (ret, m')) :
    m'.allocsUsed = m.allocsUsed + gain ret := by
  rw [palloc] at returned
  dsimp only at returned
  split_ifs at returned
  · cases returned
    simp
  · cases returned
    simp
  · cases answer with
    | none =>
      cases returned
      simp
    | some a =>
      cases returned
      simp

theorem deepfree_used (obj : Option ℕ) : (deepfree m obj).allocsUsed = m.allocsUsed - gain obj := by
  cases obj <;> simp [deepfree]

theorem mmalloc_used (len : ℕ) (answer : Option ℕ) :
    (mmalloc m len answer).2.allocsUsed = m.allocsUsed + gain (mmalloc m len answer).1 := by
  rw [mmalloc]
  dsimp only
  split <;> simp

theorem mfree_used (unmapped : Bool) :
    (mfree m unmapped).2.allocsUsed = m.allocsUsed - if (mfree m unmapped).1 then 1 else 0 := by
  cases unmapped <;> simp [mfree]

theorem mremapMunmap_used (unmapped : Bool) : (mremapMunmap m unmapped).2.allocsUsed =
    m.allocsUsed - if (mremapMunmap m unmapped).1 then 1 else 0 := by
  cases unmapped <;> simp [mremapMunmap]

theorem trackAllocation_allowed : (trackAllocation m).1 = true ↔ m.poisonedIdx ≠ 0 := by
  have allowed := checkAllocReq_allowed m 1
  rw [trackAllocation]
  dsimp only
  split_ifs with h
  · simpa using (allowed.mp h).2
  · simpa [h] using allowed

theorem trackAllocation_used : (trackAllocation m).2.allocsUsed =
    m.allocsUsed + if (trackAllocation m).1 then 1 else 0 := by
  rw [trackAllocation]
  dsimp only
  by_cases allowed : (checkAllocReq m 1).1 = true <;> simp [allowed]

theorem mremapAndTruncate_used (a : Resizing) (fd : ℤ) (oldaddr : Option ℕ) (oldlen newlen : ℕ) :
    (mremapAndTruncate m a fd oldaddr oldlen newlen).2.allocsUsed = m.allocsUsed +
      if oldaddr = none then gain (mremapAndTruncate m a fd oldaddr oldlen newlen).1 else 0 := by
  unfold mremapAndTruncate
  by_cases resized : resizeFile a fd oldlen newlen = true
  · simp only [if_pos resized]
    cases oldaddr with
    | none =>
      have tracked := trackAllocation_used m
      simp only [if_true]
      split_ifs with allowed
      · rw [if_pos allowed] at tracked
        cases mmap a.address fd newlen 0 <;> simp [tracked]
      · rw [if_neg allowed] at tracked
        simpa using tracked
    | some old =>
      dsimp only
      cases mremap a.address newlen <;> simp
  · simp [resized]

theorem initializeMmapWindow_used (a : Answers) (mw : Window) (fd : ℤ) (len : ℕ) :
    (initializeMmapWindow m a mw fd len).2.2.allocsUsed = m.allocsUsed +
      if (initializeMmapWindow m a mw fd len).1 ∧ m.poisonedIdx ≠ 0 then 1 else 0 := by
  have tracked := trackAllocation_used m
  simp only [trackAllocation_allowed] at tracked
  rw [initializeMmapWindow]
  dsimp only
  split_ifs <;> simp_all

theorem initializeMmapWindow_mapped (a : Answers) (mw : Window) (fd : ℤ) (len : ℕ) :
    (initializeMmapWindow m a mw fd len).1 = (mmap a.address fd len 0).isSome := by
  rw [initializeMmapWindow, MmapWindow.initializeMmapWindow]
  cases mmap a.address fd len 0 <;> rfl

theorem releaseMmapWindow_used (mw : Window) (unmapped : Bool) :
    (releaseMmapWindow m mw unmapped).2.2.allocsUsed =
      m.allocsUsed - if mw.maplen = 0 then 0 else 1 := by
  rw [releaseMmapWindow]
  split_ifs <;> simp

end Calls

theorem length_exchange {old new : Option ℕ} {l : List ℕ} (held : Held old l) :
    ((exchange old new l).length : ℤ) = l.length + if old = none then gain new else 0 := by
  cases new with
  | none => simp [exchange]
  | some p =>
    cases old with
    | none => simp [exchange]
    | some q =>
      have mem : q ∈ l := held q rfl
      have pos := List.length_pos_of_mem mem
      have erased := List.length_erase_of_mem mem
      simp only [exchange, Option.elim_some, List.length_cons, erased]
      simp only [reduceCtorEq, if_false]
      omega

theorem length_acquire {new : Option ℕ} {l : List ℕ} :
    ((exchange none new l).length : ℤ) = l.length + gain new := by
  have held : Held none l := fun p none_ => by simp at none_
  simpa using length_exchange held

theorem length_erase_held {α : Type} [DecidableEq α] {a : α} {l : List α} (mem : a ∈ l) :
    ((l.erase a).length : ℤ) = l.length - 1 := by
  have pos := List.length_pos_of_mem mem
  rw [List.length_erase_of_mem mem]
  omega

/-- After the call the count is the number of objects held. -/
def Tallied (s : Session) (c : Call) : Prop :=
  ∀ s', step s c = some s' → s'.memlimit.allocsUsed = s'.live

/-- No window is mapped while the allocator is poisoned to fail at once. -/
def Careful (s : Session) : Call → Prop
  | .initializeMmapWindow a _ fd len =>
    (mmap a.address fd len 0).isSome → s.memlimit.poisonedIdx ≠ 0
  | _ => True

/-- How far the count is ahead of what is held. -/
def Session.surplus (s : Session) : ℤ := s.memlimit.allocsUsed - s.live

theorem surplus_eq_zero {s : Session} : s.surplus = 0 ↔ s.memlimit.allocsUsed = s.live := sub_eq_zero

theorem surplus_heap {s : Session} {m : Memlimit} {heap : List ℕ} {d : ℤ}
    (used : m.allocsUsed = s.memlimit.allocsUsed + d) (length : (heap.length : ℤ) = s.heap.length + d) :
    Session.surplus { s with memlimit := m, heap } = s.surplus := by
  simp only [Session.surplus, Session.live]
  omega

theorem surplus_maps {s : Session} {m : Memlimit} {maps : List ℕ} {d : ℤ}
    (used : m.allocsUsed = s.memlimit.allocsUsed + d) (length : (maps.length : ℤ) = s.maps.length + d) :
    Session.surplus { s with memlimit := m, maps } = s.surplus := by
  simp only [Session.surplus, Session.live]
  omega

theorem surplus_windows {s : Session} {m : Memlimit} {d : ℤ} (windows : List Window) (e : ℤ)
    (used : m.allocsUsed = s.memlimit.allocsUsed + d)
    (length : (windows.length : ℤ) = s.windows.length + e) :
    Session.surplus { s with memlimit := m, windows } = s.surplus + d - e := by
  simp only [Session.surplus, Session.live]
  omega

theorem surplus_unmapped {s : Session} {m : Memlimit} {addr : ℕ} {ok : Bool} (mem : addr ∈ s.maps)
    (used : m.allocsUsed = s.memlimit.allocsUsed - if ok then 1 else 0) :
    Session.surplus { s with memlimit := m, maps := if ok then s.maps.erase addr else s.maps } =
      s.surplus := by
  refine surplus_maps (d := -if ok then 1 else 0) (by omega) ?_
  cases ok with
  | true => simpa [sub_eq_add_neg] using length_erase_held mem
  | false => simp

theorem surplus_initializeMmapWindow (s : Session) (a : Answers) (mw : Window) (fd : ℤ) (len : ℕ) :
    ∃ s', step s (.initializeMmapWindow a mw fd len) = some s' ∧ s'.surplus =
      s.surplus - if (mmap a.address fd len 0).isSome ∧ s.memlimit.poisonedIdx = 0 then 1 else 0 := by
  have used := initializeMmapWindow_used s.memlimit a mw fd len
  have mapped := initializeMmapWindow_mapped s.memlimit a mw fd len
  obtain ⟨⟨ok, mw', m⟩, returned⟩ : ∃ r, initializeMmapWindow s.memlimit a mw fd len = r := ⟨_, rfl⟩
  rw [returned] at used mapped
  refine ⟨{ s with memlimit := m, windows := if ok then mw' :: s.windows else s.windows },
    by rw [step, returned], ?_⟩
  rw [← mapped, surplus_windows _ (if ok then 1 else 0) used (by cases ok <;> simp)]
  cases ok with
  | false => simp
  | true => by_cases poisoned : s.memlimit.poisonedIdx = 0 <;> simp [poisoned]

theorem surplus_step {s s' : Session} {c : Call} (next : step s c = some s')
    (other : ∀ a mw fd len, c ≠ .initializeMmapWindow a mw fd len) : s'.surplus = s.surplus := by
  cases c with
  | malloc size answer =>
    obtain rfl := Option.some.inj next
    exact surplus_heap (malloc_used _ _ _) length_acquire
  | realloc orig size answer =>
    rw [step] at next
    split_ifs at next with held
    obtain rfl := Option.some.inj next
    exact surplus_heap (realloc_used _ _ _ _) (length_exchange held)
  | palloc osiz used p answer =>
    rw [step, Option.map_eq_some_iff] at next
    obtain ⟨⟨ret, m⟩, returned, rfl⟩ := next
    refine surplus_heap (palloc_used _ _ _ _ _ returned) ?_
    rw [length_acquire]
    cases ret <;> rfl
  | free obj =>
    rw [step] at next
    split_ifs at next with held
    obtain rfl := Option.some.inj next
    refine surplus_heap (d := -gain obj) (deepfree_used _ _) ?_
    cases obj with
    | none => simp
    | some p => exact length_erase_held (held p rfl)
  | mmalloc len answer =>
    obtain rfl := Option.some.inj next
    exact surplus_maps (mmalloc_used _ _ _) length_acquire
  | mfree start unmapped =>
    rw [step] at next
    split_ifs at next with held
    obtain rfl := Option.some.inj next
    exact surplus_unmapped held (mfree_used _ _)
  | mremapAndTruncate a fd oldaddr oldlen newlen =>
    rw [step] at next
    split_ifs at next with held
    obtain rfl := Option.some.inj next
    exact surplus_maps (mremapAndTruncate_used _ _ _ _ _ _) (length_exchange held)
  | mremapMunmap addr unmapped =>
    rw [step] at next
    split_ifs at next with held
    obtain rfl := Option.some.inj next
    exact surplus_unmapped held (mremapMunmap_used _ _)
  | initializeMmapWindow a mw fd len => exact absurd rfl (other a mw fd len)
  | releaseMmapWindow mw unmapped =>
    have used := releaseMmapWindow_used s.memlimit mw unmapped
    obtain ⟨⟨ok, mw', m⟩, returned⟩ : ∃ r, releaseMmapWindow s.memlimit mw unmapped = r := ⟨_, rfl⟩
    rw [returned, sub_eq_add_neg] at used
    rw [step, returned] at next
    by_cases held : mw.maplen = 0 ∨ mw ∈ s.windows
    · rw [if_pos held] at next
      obtain rfl := Option.some.inj next
      rw [surplus_windows _ (-if mw.maplen = 0 then 0 else 1) used ?_, add_sub_cancel_right]
      by_cases empty : mw.maplen = 0
      · simp [empty]
      · simpa [empty, sub_eq_add_neg] using length_erase_held (held.resolve_left empty)
    · rw [if_neg held] at next
      exact absurd next (by simp)
  | faillocOnN n =>
    obtain rfl := Option.some.inj next
    rfl

/-- From a state that is tallied a call leads to one just when it is careful. -/
theorem tallied_iff {s : Session} (balanced : s.surplus = 0) (c : Call) :
    Tallied s c ↔ Careful s c := by
  by_cases window : ∃ a mw fd len, c = .initializeMmapWindow a mw fd len
  · obtain ⟨a, mw, fd, len, rfl⟩ := window
    obtain ⟨s', next, surplus⟩ := surplus_initializeMmapWindow s a mw fd len
    have tallied : Tallied s (.initializeMmapWindow a mw fd len) ↔ s'.surplus = 0 := by
      rw [surplus_eq_zero, Tallied, next]
      simp
    rw [tallied, surplus, balanced]
    by_cases missed : (mmap a.address fd len 0).isSome ∧ s.memlimit.poisonedIdx = 0
    · simp [Careful, missed]
    · have careful : Careful s (.initializeMmapWindow a mw fd len) :=
        fun mapped poisoned => missed ⟨mapped, poisoned⟩
      simp [missed, careful]
  · have other : ∀ a mw fd len, c ≠ .initializeMmapWindow a mw fd len :=
      fun a mw fd len same => window ⟨a, mw, fd, len, same⟩
    have careful : Careful s c := by
      cases c with
      | initializeMmapWindow a mw fd len => exact absurd rfl (other a mw fd len)
      | _ => trivial
    refine iff_of_true (fun s' next => ?_) careful
    rw [← surplus_eq_zero, surplus_step next other, balanced]

theorem tallied_along_iff {s : Session} (balanced : s.surplus = 0) (calls : List Call) :
    Along step Tallied s calls ↔ Along step Careful s calls := by
  have keep (s : Session) (c : Call) (s' : Session) (balanced : s.surplus = 0)
      (careful : Careful s c) (next : step s c = some s') : s'.surplus = 0 :=
    surplus_eq_zero.mpr ((tallied_iff balanced c).mpr careful s' next)
  exact along_congr (fun _ c balanced => tallied_iff balanced c) keep balanced calls

/-- In every run, from the start of the program on, the count is the number of objects
held after each call, just when no call of the run maps a window that is not counted. -/
theorem allocsUsed_live_iff (limit : ℕ) (calls : List Call) :
    Along step Tallied (.initial limit) calls ↔ Along step Careful (.initial limit) calls :=
  tallied_along_iff rfl calls

/-- A window is mapped while the allocator is poisoned: it is held and not counted,
and released all the same. -/
theorem allocsUsed_misses_window :
    let mw : Window := ⟨4096, 4096, 0⟩
    let map : Call := .initializeMmapWindow ⟨true, true, some 4096⟩ mw (-1) 4096
    let counts (calls : List Call) :=
      (run step (.initial (2 ^ 28)) calls).map fun s => (s.memlimit.allocsUsed, s.live)
    ¬ Along step Tallied (.initial (2 ^ 28)) [.faillocOnN 0, map] ∧
      counts [.faillocOnN 0, map] = some (0, 1) ∧
      counts [.faillocOnN 0, map, .releaseMmapWindow mw true] = some (-1, 0) := by
  refine ⟨fun tallied => ?_, by decide, by decide⟩
  have careful := (tallied_along_iff rfl _).mp tallied
  exact careful.2.1 (by decide) rfl

end Libdank.MemLimit
