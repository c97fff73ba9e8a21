import Libdank.ThreadLaunch.Operations

/-! The list `thread_stacks` and all the threads that `new_traceable_thread` launches, which are
joinable. `remove_thread_stack` goes by the thread's id, and once a thread is joined, another one
may have its id. -/
namespace Libdank.ThreadLaunch
open Transitions

structure Thread where
  tid : ℕ
  /-- Whether its `setup_sigstack` succeeds. -/
  able : Bool
  launch : Launch
  /-- The thread whose entry `remove_thread_stack` has taken off the list. -/
  found : ℕ
deriving DecidableEq, Repr

structure Entry where
  tid : ℕ
  /-- The thread whose wrapper `sw` points to. -/
  owner : ℕ
deriving DecidableEq, Repr

/-- Threads in the order of their launches, and the entries from the latest on. -/
structure Registry where
  threads : List Thread
  threadStacks : List Entry
deriving DecidableEq, Repr

def Registry.empty : Registry := ⟨[], []⟩

inductive RegistryAction where
  /-- `new_traceable_thread` is called; the id is the one that `pthread_create` will give. -/
  | launch (tid : ℕ) (able : Bool)
  | creator (n : ℕ) (made : Bool)
  | spawned (n : ℕ)
deriving DecidableEq, Repr

def Thread.follow (th : Thread) (l : Launch) : Thread := { th with launch := l }

def Registry.replace (s : Registry) (n : ℕ) (th : Thread) : Registry :=
  { s with threads := s.threads.set n th }

def Thread.released (th : Thread) : Thread := th.follow th.launch.release

def Registry.releaseOf (s : Registry) (m : ℕ) : Registry :=
  { s with threads := s.threads.modify m Thread.released }

def Registry.creator (s : Registry) (n : ℕ) (made : Bool) (th : Thread) : Option Registry :=
  match th.launch.creator with
  | .removing failed =>
    match s.threadStacks.find? fun e => e.tid = th.tid with
    | some e =>
      let th := { th.follow { th.launch with creator := .unlinked failed } with found := e.owner }
      some ⟨s.threads.set n th, s.threadStacks.erase e⟩
    | none =>
      some (s.replace n (th.follow { th.launch with creator := if failed then .freeing else .done }))
  | .unlinked failed =>
    let s := s.replace n (th.follow { th.launch with creator := if failed then .freeing else .done })
    some (s.releaseOf th.found)
  | _ => (creatorStep false made th.launch).map fun l => s.replace n (th.follow l)

def Registry.spawned (s : Registry) (n : ℕ) (th : Thread) : Option Registry :=
  (spawnedStep false th.able th.launch).map fun l =>
    let s := s.replace n (th.follow l)
    if th.launch.spawned = .settingUp ∧ th.able then { s with threadStacks := ⟨th.tid, n⟩ :: s.threadStacks } else s

def Registry.step (s : Registry) : RegistryAction → Option Registry
  | .launch tid able => some { s with threads := s.threads ++ [⟨tid, able, start, 0⟩] }
  | .creator n made => (s.threads[n]?).bind (s.creator n made)
  | .spawned n => (s.threads[n]?).bind (s.spawned n)

section Phases

def Thread.early (th : Thread) : Bool :=
  match th.launch.spawned with
  | .unborn | .starting | .settingUp => true
  | _ => false

def Thread.goesOn (th : Thread) : Prop := th.launch.spawned ≠ .unborn ∧ th.launch.spawned ≠ .ended

/-- How often the thread's own launch has still to release the wrapper or to put it on the list. -/
def Thread.owes (th : Thread) : ℕ :=
  if th.launch.creator = .done ∨ (th.able = true ∧ th.early = false) then 0 else 1

def Thread.searches (tid : ℕ) (th : Thread) : Bool :=
  th.tid = tid && th.able && !th.early &&
    match th.launch.creator with
    | .confirming | .joining _ | .removing _ => true
    | _ => false

def Thread.holds (m : ℕ) (th : Thread) : Bool :=
  th.found = m &&
    match th.launch.creator with
    | .unlinked _ => true
    | _ => false

def Thread.Fits (th : Thread) : Prop :=
  match th.launch.creator, th.launch.spawned with
  | .creating, .unborn => th.launch.state = .created
  | .freeing, .unborn | .done, .unborn => True
  | .confirming, .starting | .confirming, .settingUp => th.launch.state = .created
  | .confirming, .reporting ok => th.launch.state = .created ∧ ok = th.able
  | .confirming, .running => th.launch.state = .ready ∧ th.able = true
  | .confirming, .awaiting => th.launch.state = if th.able then .ready else .failed
  | .joining failed, .running =>
    failed = !th.able ∧ th.launch.state = .confirmedLaunched ∧ th.able = true
  | .joining failed, .awaiting => failed = !th.able ∧ th.launch.state = .confirmedLaunched
  | .joining failed, .departing | .joining failed, .ended => failed = !th.able
  | .removing failed, .ended | .unlinked failed, .ended => failed = !th.able
  | .freeing, .ended => th.able = false
  | .done, .ended => True
  | _, _ => False

/-- What the wrapper's releases come to when no entry of it is on the list or taken off it. -/
def Thread.mine (th : Thread) : ℕ := th.launch.releases + th.owes

def Thread.Quiet (th : Thread) : Prop :=
  th.launch.wild = false ∧ (th.goesOn → th.launch.releases = 0)

end Phases

def Thread.Plain (th : Thread) (l : Launch) : Prop :=
  (∃ made, creatorStep false made th.launch = some l ∧ (∀ failed, th.launch.creator ≠ .removing failed) ∧
    ∀ failed, th.launch.creator ≠ .unlinked failed) ∨
  (spawnedStep false th.able th.launch = some l ∧ ¬ (th.launch.spawned = .settingUp ∧ th.able = true))

structure Thread.Kept (th : Thread) (l : Launch) : Prop where
  fits : (th.follow l).Fits
  mine : (th.follow l).mine = th.mine
  searches : ∀ tid, (th.follow l).searches tid = th.searches tid
  holds : ∀ m, th.holds m = false ∧ (th.follow l).holds m = false
  quiet : (th.follow l).Quiet ↔ th.Quiet

section Steps

attribute [local simp] Thread.follow Thread.Fits Thread.mine Thread.owes Thread.early Thread.searches
  Thread.holds Thread.Quiet Thread.goesOn Launch.touch

variable {tid found rel : ℕ} {able reg wild made : Bool} {c : Creator} {p : Spawned} {st : TracedThreadState}

theorem fits_told (h : Thread.Fits ⟨tid, able, ⟨.confirming, p, st, reg, rel, wild⟩, found⟩) (told : st ≠ .created) :
    st = (if able then .ready else .failed) ∧ (p = .running ∧ able = true ∨ p = .awaiting) := by
  cases p <;> simp only [Thread.Fits] at h
  · exact absurd h told
  · exact absurd h told
  · exact absurd h.1 told
  · exact ⟨by rw [h.1, h.2]; rfl, .inl ⟨rfl, h.2⟩⟩
  · exact ⟨h, .inr rfl⟩

theorem kept_creator {l : Launch} (h : Thread.Fits ⟨tid, able, ⟨c, p, st, reg, rel, wild⟩, found⟩)
    (once : Thread.mine ⟨tid, able, ⟨c, p, st, reg, rel, wild⟩, found⟩ ≤ 1)
    (next : creatorStep false made ⟨c, p, st, reg, rel, wild⟩ = some l)
    (search : ∀ failed, c ≠ .removing failed) (unlinked : ∀ failed, c ≠ .unlinked failed) :
    Thread.Kept ⟨tid, able, ⟨c, p, st, reg, rel, wild⟩, found⟩ l := by
  cases c with
  | creating =>
    cases p <;> simp only [Thread.Fits] at h
    obtain rfl : rel = 0 := by simpa using once
    cases made <;> obtain rfl := Option.some.inj next <;> constructor <;> simp [h]
  | confirming =>
    simp only [creatorStep] at next
    split at next
    · obtain rfl := Option.some.inj next
      rename_i untold
      subst untold
      cases p <;> simp only [Thread.Fits] at h <;> constructor <;> simp [h]
    · rename_i told
      obtain ⟨rfl, rest⟩ := fits_told h told
      obtain rfl := Option.some.inj next
      rcases rest with ⟨rfl, rfl⟩ | rfl
      · constructor <;> simp
      · cases able <;> constructor <;> simp
  | joining failed =>
    simp only [creatorStep] at next
    split at next
    · rename_i ended
      subst ended
      obtain rfl := Option.some.inj next
      change failed = !able at h
      subst h
      cases able <;> refine ⟨rfl, rfl, fun _ => rfl, fun _ => ⟨?_, ?_⟩, ?_⟩ <;> simp
    · cases next
  | removing failed => exact absurd rfl (search failed)
  | unlinked failed => exact absurd rfl (unlinked failed)
  | freeing =>
    cases p <;> simp only [Thread.Fits] at h
    · obtain rfl : rel = 0 := by simpa using once
      obtain rfl := Option.some.inj next
      constructor <;> simp [Launch.release]
    · subst h
      obtain rfl : rel = 0 := by simpa using once
      obtain rfl := Option.some.inj next
      constructor <;> simp [Launch.release]
  | done => cases next

theorem kept_spawned {l : Launch} (h : Thread.Fits ⟨tid, able, ⟨c, p, st, reg, rel, wild⟩, found⟩)
    (once : Thread.mine ⟨tid, able, ⟨c, p, st, reg, rel, wild⟩, found⟩ ≤ 1)
    (next : spawnedStep false able ⟨c, p, st, reg, rel, wild⟩ = some l)
    (registers : ¬ (p = .settingUp ∧ able = true)) :
    Thread.Kept ⟨tid, able, ⟨c, p, st, reg, rel, wild⟩, found⟩ l := by
  cases p with
  | unborn | ended => cases next
  | starting =>
    cases c <;> simp only [Thread.Fits] at h
    obtain rfl : rel = 0 := by simpa using once
    obtain rfl := Option.some.inj next
    constructor <;> simp [h]
  | settingUp =>
    obtain rfl : able = false := by simpa using registers
    cases c <;> simp only [Thread.Fits] at h
    obtain rfl := Option.some.inj next
    constructor <;> simp [h]
  | reporting ok =>
    cases c <;> simp only [Thread.Fits] at h
    obtain ⟨-, rfl⟩ := h
    cases ok <;> obtain rfl := Option.some.inj next <;> constructor <;> simp
  | running =>
    obtain rfl := Option.some.inj next
    cases c <;> simp only [Thread.Fits] at h <;> constructor <;> simp [h]
  | awaiting =>
    simp only [spawnedStep] at next
    split at next
    · rename_i confirmed
      subst confirmed
      obtain rfl := Option.some.inj next
      cases c <;> simp only [Thread.Fits] at h
      · cases able <;> cases h
      · constructor <;> simp [h]
    · obtain rfl := Option.some.inj next
      cases c <;> simp only [Thread.Fits] at h <;> constructor <;> simp [h]
  | departing =>
    obtain rfl := Option.some.inj next
    cases c <;> simp only [Thread.Fits] at h
    constructor <;> simp [h]
  | removing | unlinked | freeing => cases c <;> exact False.elim h

end Steps

variable {s s' : Registry} {n : ℕ} {th : Thread} {l : Launch}

theorem plain_kept (h : th.Fits) (once : th.mine ≤ 1) (next : th.Plain l) : th.Kept l := by
  obtain ⟨tid, able, ⟨c, p, st, reg, rel, wild⟩, found⟩ := th
  rcases next with ⟨made, next, search, unlinked⟩ | ⟨next, registers⟩
  · exact kept_creator h once next search unlinked
  · exact kept_spawned h once next registers

section Lists
variable {α : Type} {l : List α} {n : ℕ} {a : α}

theorem countP_at (has : l[n]? = some a) (p : α → Bool) :
    l.countP p = (l.eraseIdx n).countP p + (p a).toNat := by
  obtain ⟨lt, rfl⟩ := List.getElem?_eq_some_iff.mp has
  rw [← (List.getElem_cons_eraseIdx_perm lt).countP_eq, List.countP_cons]
  cases p l[n] <;> rfl

theorem countP_set_at (has : l[n]? = some a) (b : α) (p : α → Bool) :
    (l.set n b).countP p = (l.eraseIdx n).countP p + (p b).toNat := by
  obtain ⟨lt, -⟩ := List.getElem?_eq_some_iff.mp has
  rw [(List.set_perm_cons_eraseIdx lt b).countP_eq, List.countP_cons]
  cases p b <;> rfl

theorem countP_erase_mem [BEq α] [LawfulBEq α] (mem : a ∈ l) (p : α → Bool) :
    l.countP p = (l.erase a).countP p + (p a).toNat := by
  rw [(List.perm_cons_erase mem).countP_eq, List.countP_cons]
  cases p a <;> rfl

end Lists

/-- Each wrapper is released once: it has been, or an entry of it is on the list or in the hands
of some thread, or its own launch is still to see to it. The list has no more entries of an id
than there are threads to search for it. -/
structure Registry.Sound (s : Registry) : Prop where
  fits : ∀ th ∈ s.threads, th.Fits
  ledger : ∀ m, s.threadStacks.countP (·.owner = m) + s.threads.countP (Thread.holds m) +
    (s.threads[m]?).elim 0 Thread.mine = if m < s.threads.length then 1 else 0
  searched : ∀ tid, s.threadStacks.countP (·.tid = tid) ≤ s.threads.countP (Thread.searches tid)

theorem sound_empty : Registry.empty.Sound :=
  ⟨fun _ none_ => absurd none_ List.not_mem_nil, fun _ => rfl, fun _ => le_rfl⟩

theorem Registry.Sound.mine_le (h : s.Sound) (has : s.threads[n]? = some th) : th.mine ≤ 1 := by
  have ledger := h.ledger n
  rw [has, Option.elim_some] at ledger
  split_ifs at ledger <;> omega

theorem Registry.Sound.fits_at (h : s.Sound) (has : s.threads[n]? = some th) : th.Fits :=
  h.fits th (List.mem_of_getElem? has)

theorem elim_set (has : s.threads[n]? = some th) (th' : Thread) (m : ℕ) :
    ((s.threads.set n th')[m]?).elim 0 Thread.mine + (if m = n then th.mine else 0) =
      (s.threads[m]?).elim 0 Thread.mine + if m = n then th'.mine else 0 := by
  obtain ⟨lt, -⟩ := List.getElem?_eq_some_iff.mp has
  by_cases here : m = n
  · subst here
    rw [List.getElem?_set_self lt, has, Option.elim_some, Option.elim_some, if_pos rfl, if_pos rfl, add_comm]
  · rw [List.getElem?_set_ne (Ne.symm here), if_neg here, if_neg here]

theorem Registry.Sound.replace (h : s.Sound) (has : s.threads[n]? = some th) {th' : Thread} {es : List Entry}
    (fits : th'.Fits)
    (ledger : ∀ m, es.countP (·.owner = m) + (th'.holds m).toNat + (if m = n then th'.mine else 0) =
      s.threadStacks.countP (·.owner = m) + (th.holds m).toNat + if m = n then th.mine else 0)
    (searched : ∀ tid, es.countP (·.tid = tid) = 0 ∨ es.countP (·.tid = tid) + (th.searches tid).toNat ≤
      s.threadStacks.countP (·.tid = tid) + (th'.searches tid).toNat) :
    Registry.Sound ⟨s.threads.set n th', es⟩ := by
  refine ⟨fun t mem => ?_, fun m => ?_, fun tid => ?_⟩
  · rcases List.mem_or_eq_of_mem_set mem with mem | rfl
    · exact h.fits t mem
    · exact fits
  · have before := h.ledger m
    have here := ledger m
    have elim := elim_set has th' m
    rw [countP_at has] at before
    change es.countP _ + (s.threads.set n th').countP _ + ((s.threads.set n th')[m]?).elim 0 _ =
      if m < (s.threads.set n th').length then 1 else 0
    rw [countP_set_at has, List.length_set]
    omega
  · have before := h.searched tid
    have here := searched tid
    rw [countP_at has] at before
    change es.countP _ ≤ (s.threads.set n th').countP _
    rw [countP_set_at has]
    omega

theorem Registry.Sound.launch (h : s.Sound) (tid : ℕ) (able : Bool) :
    Registry.Sound ⟨s.threads ++ [⟨tid, able, start, 0⟩], s.threadStacks⟩ := by
  refine ⟨fun t mem => ?_, fun m => ?_, fun id => ?_⟩
  · rcases List.mem_append.mp mem with mem | mem
    · exact h.fits t mem
    · obtain rfl := List.mem_singleton.mp mem
      exact rfl
  · have before := h.ledger m
    change s.threadStacks.countP _ + (s.threads ++ [_]).countP _ + ((s.threads ++ [_])[m]?).elim 0 _ =
      if m < (s.threads ++ [_]).length then 1 else 0
    have none_ : Thread.holds m ⟨tid, able, start, 0⟩ = false := Bool.and_false _
    rw [List.countP_append, List.countP_singleton, none_, if_neg Bool.false_ne_true, List.length_append,
      List.length_singleton]
    rcases lt_trichotomy m s.threads.length with lt | rfl | gt
    · rw [List.getElem?_append_left lt, if_pos (Nat.lt_succ_of_lt lt)]
      rwa [if_pos lt] at before
    · have owed : Thread.mine ⟨tid, able, start, 0⟩ = 1 := by cases able <;> rfl
      rw [List.getElem?_concat_length, Option.elim_some, owed, if_pos (Nat.lt_succ_self _)]
      rw [List.getElem?_eq_none le_rfl, Option.elim_none, if_neg (lt_irrefl _)] at before
      omega
    · rw [List.getElem?_eq_none (by simpa using gt), if_neg (by omega)]
      rwa [List.getElem?_eq_none gt.le, if_neg gt.not_gt] at before
  · change _ ≤ (s.threads ++ [_]).countP _
    rw [List.countP_append]
    exact (h.searched id).trans (Nat.le_add_right _ _)

/-- A wrapper that the step releases by way of the list is one of a thread that has ended. -/
def EndedFirst (s : Registry) : RegistryAction → Prop
  | .creator n _ => ∀ th ∈ s.threads[n]?, (∃ failed, th.launch.creator = .unlinked failed) →
    ∀ owner ∈ s.threads[th.found]?, ¬ owner.goesOn
  | _ => True

theorem endedFirst_creator {made : Bool} (has : s.threads[n]? = some th)
    (apart : ∀ failed, th.launch.creator ≠ .unlinked failed) : EndedFirst s (.creator n made) := by
  intro th' mem ⟨failed, unlinked⟩
  obtain rfl := Option.some.inj (has.symm.trans mem)
  exact absurd unlinked (apart failed)

theorem step_cases {a : RegistryAction} (next : s.step a = some s') :
    EndedFirst s a ∧
      (∃ tid able, s' = { s with threads := s.threads ++ [⟨tid, able, start, 0⟩] }) ∨
    ∃ n th, s.threads[n]? = some th ∧
      (EndedFirst s a ∧ ((∃ l, th.Plain l ∧ s' = s.replace n (th.follow l)) ∨
      (th.able = true ∧ th.launch.spawned = .settingUp ∧ s' = ⟨s.threads.set n (th.follow
        { th.launch with registered := true, spawned := .reporting true }), ⟨th.tid, n⟩ :: s.threadStacks⟩) ∨
      (∃ failed e, th.launch.creator = .removing failed ∧
        s.threadStacks.find? (fun e => e.tid = th.tid) = some e ∧ s' = ⟨s.threads.set n { th.follow
          { th.launch with creator := .unlinked failed } with found := e.owner }, s.threadStacks.erase e⟩) ∨
      (∃ failed, th.launch.creator = .removing failed ∧
        s.threadStacks.find? (fun e => e.tid = th.tid) = none ∧ s' = s.replace n (th.follow
          { th.launch with creator := if failed then .freeing else .done }))) ∨
      ∃ failed made, a = .creator n made ∧ th.launch.creator = .unlinked failed ∧ s' = (s.replace n (th.follow
        { th.launch with creator := if failed then .freeing else .done })).releaseOf th.found) := by
  cases a with
  | launch tid able =>
    obtain rfl := Option.some.inj next
    exact .inl ⟨trivial, tid, able, rfl⟩
  | creator n made =>
    obtain ⟨th, has, next⟩ := Option.bind_eq_some_iff.mp next
    refine .inr ⟨n, th, has, ?_⟩
    simp only [Registry.creator] at next
    split at next
    · rename_i failed removing
      have apart : EndedFirst s (.creator n made) := endedFirst_creator has fun _ => by simp [removing]
      split at next
      · rename_i e found
        obtain rfl := Option.some.inj next
        exact .inl ⟨apart, .inr (.inr (.inl ⟨failed, e, removing, found, rfl⟩))⟩
      · rename_i none_
        obtain rfl := Option.some.inj next
        exact .inl ⟨apart, .inr (.inr (.inr ⟨failed, removing, none_, rfl⟩))⟩
    · rename_i failed unlinked
      obtain rfl := Option.some.inj next
      exact .inr ⟨failed, made, rfl, unlinked, rfl⟩
    · rename_i search unlinked
      obtain ⟨l, stepped, rfl⟩ := Option.map_eq_some_iff.mp next
      exact .inl ⟨endedFirst_creator has unlinked, .inl ⟨l, .inl ⟨made, stepped, search, unlinked⟩, rfl⟩⟩
  | spawned n =>
    obtain ⟨th, has, next⟩ := Option.bind_eq_some_iff.mp next
    refine .inr ⟨n, th, has, .inl ⟨trivial, ?_⟩⟩
    obtain ⟨l, stepped, rfl⟩ := Option.map_eq_some_iff.mp next
    by_cases registers : th.launch.spawned = .settingUp ∧ th.able = true
    · simp only [spawnedStep, registers.1, registers.2, Option.some.injEq] at stepped
      subst stepped
      exact .inr (.inl ⟨registers.2, registers.1, if_pos registers⟩)
    · exact .inl ⟨l, .inr ⟨stepped, registers⟩, if_neg registers⟩

section Parts
variable {failed : Bool}

theorem settingUp_fits (h : th.Fits) (settingUp : th.launch.spawned = .settingUp) :
    th.launch.creator = .confirming ∧ th.launch.state = .created := by
  obtain ⟨tid, able, ⟨c, p, st, reg, rel, wild⟩, found⟩ := th
  obtain rfl : p = .settingUp := settingUp
  cases c <;> first | exact False.elim h | exact ⟨rfl, h⟩

theorem ended_fits (h : th.Fits)
    (late : th.launch.creator = .removing failed ∨ th.launch.creator = .unlinked failed) :
    th.launch.spawned = .ended ∧ failed = !th.able := by
  obtain ⟨tid, able, ⟨c, p, st, reg, rel, wild⟩, found⟩ := th
  obtain rfl | rfl : c = .removing failed ∨ c = .unlinked failed := late
  all_goals cases p <;> first | exact False.elim h | exact ⟨rfl, h⟩

def Thread.past (th : Thread) : Thread :=
  th.follow { th.launch with creator := if (!th.able) then .freeing else .done }

theorem past_kept (h : th.Fits)
    (late : th.launch.creator = .removing failed ∨ th.launch.creator = .unlinked failed) :
    th.past.Fits ∧ th.past.mine = th.mine ∧ (∀ m, th.past.holds m = false) ∧
      (∀ tid, th.past.searches tid = false) ∧ (th.past.Quiet ↔ th.Quiet) := by
  obtain ⟨ended, -⟩ := ended_fits h late
  obtain ⟨tid, able, ⟨c, p, st, reg, rel, wild⟩, found⟩ := th
  obtain rfl : p = .ended := ended
  cases able <;> rcases late with late | late <;> obtain rfl := late <;>
    simp [Thread.past, Thread.follow, Thread.Fits, Thread.mine, Thread.owes, Thread.early, Thread.holds,
      Thread.searches, Thread.Quiet, Thread.goesOn]

end Parts

theorem Registry.Sound.plain (h : s.Sound) (has : s.threads[n]? = some th) (next : th.Plain l) :
    (s.replace n (th.follow l)).Sound := by
  have kept := plain_kept (h.fits_at has) (h.mine_le has) next
  refine h.replace has kept.fits (fun m => ?_) fun tid => .inr ?_
  · rw [kept.mine, (kept.holds m).1, (kept.holds m).2]
  · rw [kept.searches]

theorem Registry.Sound.register (h : s.Sound) (has : s.threads[n]? = some th) (able : th.able = true)
    (settingUp : th.launch.spawned = .settingUp) :
    Registry.Sound ⟨s.threads.set n (th.follow { th.launch with registered := true, spawned := .reporting true }),
      ⟨th.tid, n⟩ :: s.threadStacks⟩ := by
  obtain ⟨confirming, created⟩ := settingUp_fits (h.fits_at has) settingUp
  obtain ⟨tid, able', ⟨c, p, st, reg, rel, wild⟩, found⟩ := th
  obtain rfl : able' = true := able
  obtain rfl : p = .settingUp := settingUp
  obtain rfl : c = .confirming := confirming
  refine h.replace has ⟨created, rfl⟩ (fun m => ?_) fun id => .inr ?_
  · by_cases here : m = n
    · subst here
      simp [Thread.follow, Thread.holds, Thread.mine, Thread.owes, Thread.early]
      omega
    · simp [Thread.follow, Thread.holds, here, Ne.symm here]
  · by_cases here : tid = id <;> simp [Thread.follow, Thread.searches, Thread.early, here]

theorem Registry.Sound.take (h : s.Sound) (has : s.threads[n]? = some th) {failed : Bool} {e : Entry}
    (removing : th.launch.creator = .removing failed)
    (found : s.threadStacks.find? (fun e => e.tid = th.tid) = some e) :
    Registry.Sound ⟨s.threads.set n
      { th.follow { th.launch with creator := .unlinked failed } with found := e.owner }, s.threadStacks.erase e⟩ := by
  obtain ⟨ended, rfl⟩ := ended_fits (h.fits_at has) (.inl removing)
  have same : e.tid = th.tid := by simpa using List.find?_some found
  have taken := countP_erase_mem (List.mem_of_find?_eq_some found)
  obtain ⟨tid, able, ⟨c, p, st, reg, rel, wild⟩, old⟩ := th
  obtain rfl : p = .ended := ended
  obtain rfl : c = .removing !able := removing
  refine h.replace has rfl (fun m => ?_) fun id => .inr ?_
  · rw [taken]
    simp [Thread.follow, Thread.holds, Thread.mine, Thread.owes, Thread.early]
  · rw [taken]
    cases able <;> by_cases here : tid = id <;> simp [Thread.follow, Thread.searches, Thread.early, here, same]

theorem Registry.Sound.miss (h : s.Sound) (has : s.threads[n]? = some th) {failed : Bool}
    (removing : th.launch.creator = .removing failed)
    (none_ : s.threadStacks.find? (fun e => e.tid = th.tid) = none) :
    (s.replace n th.past).Sound := by
  obtain ⟨fits, mine, holds, searches, -⟩ := past_kept (h.fits_at has) (.inl removing)
  refine h.replace has fits (fun m => ?_) fun id => ?_
  · have held : th.holds m = false := by simp [Thread.holds, removing]
    rw [mine, holds, held]
  · by_cases here : th.tid = id
    · subst here
      exact .inl (List.countP_eq_zero.mpr fun e mem => by simpa using List.find?_eq_none.mp none_ e mem)
    · have apart : th.searches id = false := by simp [Thread.searches, here]
      rw [searches, apart]
      exact .inr le_rfl

theorem countP_modify {α : Type} (xs : List α) (m : ℕ) {f : α → α} {p : α → Bool} (same : ∀ a, p (f a) = p a) :
    (xs.modify m f).countP p = xs.countP p := by
  induction xs generalizing m with
  | nil => rw [List.modify_nil]
  | cons x xs ih =>
    cases m with
    | zero => rw [List.modify_zero_cons, List.countP_cons, List.countP_cons, same]
    | succ m => rw [List.modify_succ_cons, List.countP_cons, List.countP_cons, ih]

theorem elim_modify (xs : List Thread) {k : ℕ} (lt : k < xs.length) (m : ℕ) :
    ((xs.modify k Thread.released)[m]?).elim 0 Thread.mine =
      (xs[m]?).elim 0 Thread.mine + if m = k then 1 else 0 := by
  by_cases here : m = k
  · subst here
    rw [List.getElem?_modify_eq, List.getElem?_eq_getElem lt, if_pos rfl]
    exact Nat.add_right_comm _ _ _
  · rw [List.getElem?_modify_ne _ _ (Ne.symm here), if_neg here, add_zero]

theorem Registry.Sound.owner (h : s.Sound) (has : s.threads[n]? = some th) {failed : Bool}
    (unlinked : th.launch.creator = .unlinked failed) :
    ∃ owner, s.threads[th.found]? = some owner ∧ owner.launch.releases = 0 := by
  have ledger := h.ledger th.found
  have held : th.holds th.found = true := by simp [Thread.holds, unlinked]
  rw [countP_at has, held] at ledger
  split_ifs at ledger with lt
  · rw [List.getElem?_eq_getElem lt, Option.elim_some, Thread.mine] at ledger
    exact ⟨_, List.getElem?_eq_getElem lt, by simp at ledger; omega⟩
  · simp at ledger

theorem Registry.Sound.release (h : s.Sound) (has : s.threads[n]? = some th) {failed : Bool}
    (unlinked : th.launch.creator = .unlinked failed) :
    ((s.replace n th.past).releaseOf th.found).Sound := by
  obtain ⟨fits, mine, holds, searches, -⟩ := past_kept (h.fits_at has) (.inr unlinked)
  obtain ⟨owner, at_, -⟩ := h.owner has unlinked
  obtain ⟨lt, -⟩ := List.getElem?_eq_some_iff.mp at_
  refine ⟨fun t mem => ?_, fun m => ?_, fun id => ?_⟩
  · obtain ⟨i, get⟩ := List.mem_iff_getElem?.mp mem
    change ((s.threads.set n th.past).modify th.found Thread.released)[i]? = some t at get
    have kept : ∀ u ∈ s.threads.set n th.past, u.Fits := fun u mem =>
      (List.mem_or_eq_of_mem_set mem).elim (h.fits u) fun same => same ▸ fits
    rw [List.getElem?_modify] at get
    obtain ⟨u, at_, rfl⟩ := Option.map_eq_some_iff.mp get
    have now := kept u (List.mem_of_getElem? at_)
    split_ifs
    · exact now
    · exact now
  · have before := h.ledger m
    have elim := elim_set has th.past m
    have held : th.holds m = decide (th.found = m) := by simp [Thread.holds, unlinked]
    rw [countP_at has, held] at before
    change s.threadStacks.countP _ + ((s.threads.set n th.past).modify th.found Thread.released).countP _ +
      (((s.threads.set n th.past).modify th.found Thread.released)[m]?).elim 0 _ =
      if m < ((s.threads.set n th.past).modify th.found Thread.released).length then 1 else 0
    rw [countP_modify (f := Thread.released) _ _ fun _ => rfl, countP_set_at has, holds,
      elim_modify _ (by rwa [List.length_set]), List.length_modify, List.length_set]
    rw [mine] at elim
    by_cases here : m = th.found
    · subst here
      simp at before ⊢
      omega
    · simp [here, Ne.symm here] at before ⊢
      omega
  · have before := h.searched id
    have unsearched : th.searches id = false := by simp [Thread.searches, unlinked]
    change _ ≤ ((s.threads.set n th.past).modify th.found Thread.released).countP _
    rw [countP_modify (f := Thread.released) _ _ fun _ => rfl, countP_set_at has, searches]
    rwa [countP_at has, unsearched] at before

def Registry.Quiet (s : Registry) : Prop := ∀ th ∈ s.threads, th.Quiet

theorem forall_set {α : Type} {l : List α} {i : ℕ} {a b : α} {q : α → Prop} (has : l[i]? = some a)
    (same : q b ↔ q a) : (∀ t ∈ l.set i b, q t) ↔ ∀ t ∈ l, q t := by
  obtain ⟨lt, rfl⟩ := List.getElem?_eq_some_iff.mp has
  simp only [(List.set_perm_cons_eraseIdx lt b).mem_iff, ← (List.getElem_cons_eraseIdx_perm lt).mem_iff,
    List.forall_mem_cons, same]

theorem forall_modify {α : Type} {l : List α} {i : ℕ} {a : α} {f : α → α} {q : α → Prop} {r : Prop}
    (has : l[i]? = some a) (stronger : q (f a) ↔ q a ∧ r) :
    (∀ t ∈ l.modify i f, q t) ↔ (∀ t ∈ l, q t) ∧ r := by
  obtain ⟨lt, rfl⟩ := List.getElem?_eq_some_iff.mp has
  rw [List.modify_eq_set_get f lt]
  simp only [(List.set_perm_cons_eraseIdx lt _).mem_iff, ← (List.getElem_cons_eraseIdx_perm lt).mem_iff,
    List.forall_mem_cons, List.get_eq_getElem, stronger]
  exact and_right_comm

theorem released_quiet (kept : th.launch.releases = 0) : th.released.Quiet ↔ th.Quiet ∧ ¬ th.goesOn := by
  obtain ⟨tid, able, ⟨c, p, st, reg, rel, wild⟩, found⟩ := th
  obtain rfl : rel = 0 := kept
  simp [Thread.released, Thread.follow, Thread.Quiet, Thread.goesOn, Launch.release, Launch.touch]

theorem owner_past {m : ℕ} {owner : Thread} (has : s.threads[n]? = some th) (at_ : s.threads[m]? = some owner) :
    ∃ owner', (s.threads.set n th.past)[m]? = some owner' ∧ owner'.launch.releases = owner.launch.releases ∧
      (owner'.goesOn ↔ owner.goesOn) := by
  by_cases here : m = n
  · subst here
    obtain rfl := Option.some.inj (has.symm.trans at_)
    obtain ⟨lt, -⟩ := List.getElem?_eq_some_iff.mp has
    exact ⟨_, List.getElem?_set_self lt, rfl, Iff.rfl⟩
  · exact ⟨owner, by rwa [List.getElem?_set_ne (Ne.symm here)], rfl, Iff.rfl⟩

theorem release_quiet (h : s.Sound) (has : s.threads[n]? = some th) {failed made : Bool}
    (unlinked : th.launch.creator = .unlinked failed) :
    ((s.replace n th.past).releaseOf th.found).Quiet ↔ s.Quiet ∧ EndedFirst s (.creator n made) := by
  obtain ⟨owner, at_, kept⟩ := h.owner has unlinked
  obtain ⟨owner', at', same, runs⟩ := owner_past has at_
  have ends : EndedFirst s (.creator n made) ↔ ¬ owner'.goesOn := by
    rw [runs]
    refine ⟨fun ends => ends th has ⟨failed, unlinked⟩ owner at_, fun ended th' mem _ o mem' => ?_⟩
    obtain rfl := Option.some.inj (has.symm.trans mem)
    obtain rfl := Option.some.inj (at_.symm.trans mem')
    exact ended
  rw [ends]
  refine (forall_modify at' (released_quiet (same.trans kept))).trans (and_congr_left' (forall_set has ?_))
  exact (past_kept (h.fits_at has) (.inr unlinked)).2.2.2.2

theorem step_sound {a : RegistryAction} (h : s.Sound) (next : s.step a = some s') :
    s'.Sound ∧ (s'.Quiet ↔ s.Quiet ∧ EndedFirst s a) := by
  rcases step_cases next with ⟨ends, tid, able, rfl⟩ | ⟨n, th, has, ⟨ends, rest⟩ | ⟨failed, made, rfl, unlinked, rfl⟩⟩
  · refine ⟨h.launch tid able, ?_⟩
    have new : Thread.Quiet ⟨tid, able, start, 0⟩ := ⟨rfl, fun _ => rfl⟩
    rw [and_iff_left ends]
    exact List.forall_mem_append.trans (and_iff_left (List.forall_mem_singleton.mpr new))
  · rcases rest with ⟨l, plain, rfl⟩ | ⟨able, settingUp, rfl⟩ | ⟨failed, e, removing, found, rfl⟩ |
      ⟨failed, removing, none_, rfl⟩
    · refine ⟨h.plain has plain, (forall_set has ?_).trans (and_iff_left ends).symm⟩
      exact (plain_kept (h.fits_at has) (h.mine_le has) plain).quiet
    · refine ⟨h.register has able settingUp, (forall_set has ?_).trans (and_iff_left ends).symm⟩
      simp [Thread.Quiet, Thread.follow, Thread.goesOn, settingUp]
    · refine ⟨h.take has removing found, (forall_set has ?_).trans (and_iff_left ends).symm⟩
      exact Iff.rfl
    · obtain ⟨-, rfl⟩ := ended_fits (h.fits_at has) (.inl removing)
      refine ⟨h.miss has removing none_, (forall_set has ?_).trans (and_iff_left ends).symm⟩
      exact (past_kept (h.fits_at has) (.inl removing)).2.2.2.2
  · obtain ⟨-, rfl⟩ := ended_fits (h.fits_at has) (.inr unlinked)
    exact ⟨h.release has unlinked, release_quiet h has unlinked⟩

def Registry.Over (s : Registry) : Prop := ∀ th ∈ s.threads, th.launch.creator = .done

theorem Registry.Sound.over (h : s.Sound) (all : s.Over) :
    (∀ th ∈ s.threads, th.launch.releases = 1) ∧ s.threadStacks = [] := by
  have none_ : s.threadStacks = [] := by
    refine List.eq_nil_iff_forall_not_mem.mpr fun e mem => ?_
    have searched := h.searched e.tid
    have nobody : s.threads.countP (Thread.searches e.tid) = 0 :=
      List.countP_eq_zero.mpr fun th mem => by simp [Thread.searches, all th mem]
    rw [nobody, Nat.le_zero, List.countP_eq_zero] at searched
    exact searched e mem (by simp)
  refine ⟨fun th mem => ?_, none_⟩
  obtain ⟨m, at_⟩ := List.mem_iff_getElem?.mp mem
  obtain ⟨lt, -⟩ := List.getElem?_eq_some_iff.mp at_
  have ledger := h.ledger m
  have nobody : s.threads.countP (Thread.holds m) = 0 :=
    List.countP_eq_zero.mpr fun th mem => by simp [Thread.holds, all th mem]
  have owed : th.owes = 0 := if_pos (.inl (all th mem))
  rw [none_, nobody, at_, Option.elim_some, Thread.mine, owed, if_pos lt, List.countP_nil] at ledger
  simpa using ledger

/-- However the threads of any number of launches interleave, and whatever ids they are given:
each wrapper is released at most once, and once if every launch is over, when the list is empty;
and none is used after its release just when every wrapper released by way of the list is that
of a thread that has ended by then. -/
theorem registry_settles {actions : List RegistryAction} {s : Registry}
    (reached : run Registry.step .empty actions = some s) :
    (∀ th ∈ s.threads, th.launch.releases ≤ 1) ∧
    (s.Over → (∀ th ∈ s.threads, th.launch.releases = 1) ∧ s.threadStacks = []) ∧
    (s.Quiet ↔ Along Registry.step EndedFirst .empty actions) := by
  have sound : s.Sound := run_invariant (fun _ _ _ h next => (step_sound h next).1) sound_empty reached
  refine ⟨fun th mem => ?_, sound.over, ?_⟩
  · obtain ⟨m, at_⟩ := List.mem_iff_getElem?.mp mem
    exact (Nat.le_add_right _ _).trans (sound.mine_le at_)
  · have fresh : Registry.empty.Quiet := fun _ none_ => absurd none_ List.not_mem_nil
    exact (run_good_iff (fun _ _ _ h next => step_sound h next) sound_empty reached).trans (and_iff_right fresh)

def recycled : List RegistryAction :=
  let live n := [.creator n true, .spawned n, .spawned n, .spawned n, .creator n true]
  [.launch 7 true] ++ live 0 ++ [.spawned 0, .spawned 0, .spawned 0, .creator 0 true, .launch 7 true] ++ live 1 ++
    [.creator 0 true, .creator 0 true, .spawned 1]

/-- The thread that is joined takes the other one's entry, whose wrapper is released as it runs. -/
theorem registry_settles_recycled : ∃ s, run Registry.step .empty recycled = some s ∧
    (s.Quiet ↔ Along Registry.step EndedFirst .empty recycled) ∧
    s.threads.map (fun th => (th.launch.releases, th.launch.wild)) = [(0, false), (1, true)] := by
  have reached : (run Registry.step .empty recycled).map (fun s =>
      s.threads.map fun th => (th.launch.releases, th.launch.wild)) = some [(0, false), (1, true)] := by
    decide +kernel
  obtain ⟨s, run_, wild⟩ := Option.map_eq_some_iff.mp reached
  exact ⟨s, run_, (registry_settles run_).2.2, wild⟩

end Libdank.ThreadLaunch
