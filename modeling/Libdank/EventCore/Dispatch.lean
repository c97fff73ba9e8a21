import Libdank.EventCore.Operations

/-! Which function an event reaches. The arrays are changed before the kernel is asked, and no
call looks whether the kernel will agree. -/
namespace Libdank.EventCore
open Transitions Signals

variable {F S : Type}

section Sources

theorem element_some {evs : List (Evsource F S)} {n : ℤ} {src : Evsource F S}
    (is : element evs n = some src) : 0 ≤ n ∧ n < evs.length := by
  rw [element] at is
  by_cases low : 0 ≤ n
  · rw [if_pos low] at is
    exact ⟨low, by have := (List.getElem?_eq_some_iff.mp is).1; omega⟩
  · rw [if_neg low] at is
    cases is

theorem element_setupEvsource {evs : List (Evsource F S)} {n : ℤ} (low : 0 ≤ n) (high : n < evs.length)
    (src : Evsource F S) (m : ℤ) :
    element (setupEvsource evs n src).2 m = if m = n then some src else element evs m := by
  rw [setupEvsource, if_pos ⟨low, high⟩, element, element]
  by_cases same : m = n
  · subst same
    rw [if_pos low, if_pos rfl, List.getElem?_set_self (by omega)]
  · rw [if_neg same]
    by_cases natural : 0 ≤ m
    · rw [if_pos natural, if_pos natural, List.getElem?_set_ne (by omega)]
    · rw [if_neg natural, if_neg natural]

theorem setupFd_fdarray (eh : Evhandler F S) (fd : ℤ) (src : Evsource F S) :
    (eh.setupFd fd src).fdarray = (setupEvsource eh.fdarray fd src).2 := rfl

theorem setupFd_wild {eh : Evhandler F S} {fd : ℤ} (high : fd < eh.fdarray.length) (src : Evsource F S) :
    (eh.setupFd fd src).wild = false ↔ eh.wild = false ∧ 0 ≤ fd := by
  simp only [Evhandler.setupFd, setupEvsource]
  by_cases low : 0 ≤ fd
  · rw [if_pos ⟨low, high⟩]
    simp [low]
  · rw [if_neg fun h => low h.1]
    simp [low]

theorem setupSignal_fdarray (eh : Evhandler F S) (sig : ℤ) (src : Evsource F S) :
    (eh.setupSignal sig src).fdarray = eh.fdarray := rfl

theorem setupSignal_sigarray {eh : Evhandler F S} {sig : ℕ} (high : sig < eh.sigarray.length)
    (src : Evsource F S) : (eh.setupSignal sig src).sigarray = eh.sigarray.set sig src := by
  simp only [Evhandler.setupSignal, setupEvsource]
  rw [if_pos ⟨by omega, by exact_mod_cast high⟩, Int.toNat_natCast]

theorem setupSignal_wild {eh : Evhandler F S} {sig : ℕ} (high : sig < eh.sigarray.length)
    (src : Evsource F S) : (eh.setupSignal sig src).wild = eh.wild := by
  simp only [Evhandler.setupSignal, setupEvsource]
  rw [if_pos ⟨by omega, by exact_mod_cast high⟩, Bool.or_false]

/-- What is accepted: the sign of the descriptor does not enter. -/
def Accepts (eh : Evhandler F S) (ev : Evectors) (fd : ℤ) (src : Evsource F S) : Prop :=
  fd < eh.fdarray.length ∧ (src.rxfxn.isSome ∨ src.txfxn.isSome) ∧ ev.changes.length + 1 < ev.vsizes

instance (eh : Evhandler F S) (ev : Evectors) (fd : ℤ) (src : Evsource F S) :
    Decidable (Accepts eh ev fd src) :=
  inferInstanceAs (Decidable (_ ∧ _))

theorem addFdToEvcore_eq (eh : Evhandler F S) (ev : Evectors) (fd : ℤ) (src : Evsource F S) :
    addFdToEvcore eh ev fd src =
      if Accepts eh ev fd src then
        (true, eh.setupFd fd src, { ev with changes := ev.changes ++ [⟨fd, src.events⟩] })
      else (false, eh, ev) := by
  rw [addFdToEvcore, addFdEvent, addEvectorKevents, List.length_singleton]
  by_cases high : (eh.fdarray.length : ℤ) ≤ fd
  · rw [if_pos high, if_neg fun h => by have := h.1; omega]
  have none_iff : (src.rxfxn.isNone ∧ src.txfxn.isNone) ↔ ¬ (src.rxfxn.isSome ∨ src.txfxn.isSome) := by
    cases src.rxfxn <;> cases src.txfxn <;> simp
  by_cases some_ : src.rxfxn.isSome ∨ src.txfxn.isSome
  swap
  · rw [if_neg high, if_pos (none_iff.mpr some_), if_neg fun h => some_ h.2.1]
  rw [if_neg high, if_neg fun h => none_iff.mp h some_]
  by_cases full : ev.vsizes ≤ ev.changes.length + 1
  · rw [if_pos full, if_neg fun h => by have := h.2.2; omega]
    rfl
  · rw [if_neg full, if_pos ⟨by omega, some_, by omega⟩]
    rfl

end Sources

section Runs

/-- What holds of a core that has just been made, and of every one a run leads to: what is queued
is the change of the call that has the lock, the kernel watches what the calls that returned 0 have
asked for, and the array of the signals holds what has last been asked for. -/
structure Kept (s : Core F S) : Prop where
  queue : s.externalvec.changes = (s.calling.map fun c => ⟨c.1, c.2.events⟩).toList
  watched : ∀ fd, s.interest fd = (s.asked fd).map Evsource.events
  signals : ∀ fd sig, s.signalfds fd = some sig → sig < s.eh.sigarray.length
  wanted : ∀ sig < s.eh.sigarray.length, s.eh.sigarray[sig]? = some (s.wanted sig)

theorem fresh_kept (fds sigs vsizes : ℕ) : Kept (Core.fresh fds sigs vsizes : Core F S) where
  queue := rfl
  watched := fun _ => rfl
  signals := fun _ _ none_ => by cases none_
  wanted := fun sig low => by
    rw [Core.fresh, List.length_replicate] at low
    exact List.getElem?_replicate_of_lt low

theorem flushed {s : Core F S} (kept : Kept s) {fd : ℤ} {src : Evsource F S}
    (calling : s.calling = some (fd, src)) (able : Bool) :
    keventChanges (fun _ => able) s.interest s.externalvec.changes =
      if able ∧ s.asked fd = none then (true, Function.update s.interest fd (some src.events))
      else (false, s.interest) := by
  have queue := kept.queue
  rw [calling, Option.map_some, Option.toList_some] at queue
  have free : s.interest fd = none ↔ s.asked fd = none := by rw [kept.watched, Option.map_eq_none_iff]
  simp only [queue, keventChanges, epollCtl, free]
  by_cases can : able ∧ s.asked fd = none
  · simp only [if_pos can, Bool.and_true]
  · simp only [if_neg can, Bool.and_true]

theorem watched_update {interest : Interest} {asked : ℤ → Option (Evsource F S)}
    (watched : ∀ fd, interest fd = (asked fd).map Evsource.events) (fd : ℤ)
    (src : Option (Evsource F S)) (fd' : ℤ) :
    Function.update interest fd (src.map Evsource.events) fd' =
      (Function.update asked fd src fd').map Evsource.events := by
  by_cases same : fd' = fd
  · subst same
    rw [Function.update_self, Function.update_self]
  · rw [Function.update_of_ne same, Function.update_of_ne same, watched]

inductive Taken : Core F S → Action F S → Core F S → Prop
  | refused (s : Core F S) (a : Action F S) (not_ : ∀ fd src, a = .addFd fd src →
      ¬ Accepts s.eh s.externalvec fd src) (adds : (∃ fd src, a = .addFd fd src) ∨
        ∃ sig src signalfd, a = .addSignal sig src signalfd) : Taken s a s
  | added {s : Core F S} {fd : ℤ} {src : Evsource F S} (free : s.calling = none)
      (accepts : Accepts s.eh s.externalvec fd src) :
      Taken s (.addFd fd src) { s with
        eh := s.eh.setupFd fd src
        externalvec := { s.externalvec with changes := s.externalvec.changes ++ [⟨fd, src.events⟩] }
        calling := some (fd, src) }
  | signalAdded {s : Core F S} {sig : ℕ} {src : Evsource F S} {fd : ℤ} (free : s.calling = none)
      (low : sig < s.eh.sigarray.length) (natural : 0 ≤ fd) (new : s.interest fd = none)
      (accepts : Accepts s.eh s.externalvec fd demultiplexer) :
      Taken s (.addSignal sig src (some fd)) { s with
        eh := (s.eh.setupFd fd demultiplexer).setupSignal sig { src with txfxn := none }
        externalvec := { s.externalvec with
          changes := s.externalvec.changes ++ [⟨fd, (demultiplexer : Evsource F S).events⟩] }
        calling := some (fd, demultiplexer)
        signalfds := Function.update s.signalfds fd (some sig)
        wanted := Function.update s.wanted sig { src with txfxn := none } }
  | flushed {s : Core F S} {fd : ℤ} {src : Evsource F S} {able ok : Bool} {interest : Interest}
      (busy : s.calling = some (fd, src))
      (done : keventChanges (fun _ => able) s.interest s.externalvec.changes = (ok, interest)) :
      Taken s (.flush able) { s with
        interest := interest
        externalvec := { s.externalvec with changes := [] }
        calling := none
        asked := if ok then Function.update s.asked fd (some src) else s.asked }
  | closed (s : Core F S) (fd : ℤ) :
      Taken s (.close fd) { s with
        interest := Function.update s.interest fd none
        signalfds := Function.update s.signalfds fd none
        asked := Function.update s.asked fd none }
  | waited (s : Core F S) (thread : ℕ) (events : List Event) :
      Taken s (.wait thread events) { s with batches := Function.update s.batches thread events }
  | handled {s : Core F S} {thread : ℕ} {reading : Reading} {e : Event}
      (last : (s.batches thread).getLast? = some e) (reads : s.reads e.fd reading) :
      Taken s (.handle thread reading) { s with
        eh := { s.eh with wild := s.eh.wild || (handleEvent s.eh e reading).1 }
        batches := Function.update s.batches thread (s.batches thread).dropLast
        calls := s.calls ++ (handleEvent s.eh e reading).2 }

theorem step_cases {s s' : Core F S} {a : Action F S} (h : step s a = some s') : Taken s a s' := by
  cases a with
  | addFd fd src =>
    by_cases free : s.calling = none
    · simp only [step, addFdToEvcore_eq, free, Option.isSome_none, Bool.false_eq_true, ↓reduceIte] at h
      by_cases accepts : Accepts s.eh s.externalvec fd src
      · simp only [if_pos accepts, ↓reduceIte] at h
        obtain rfl := Option.some.inj h
        exact .added free accepts
      · simp only [if_neg accepts, Bool.false_eq_true, ↓reduceIte, ← free] at h
        obtain rfl := Option.some.inj h
        exact .refused s _ (fun fd' src' same => by cases same; exact accepts) (.inl ⟨fd, src, rfl⟩)
    · rw [step, if_pos (Option.isSome_iff_ne_none.mpr free)] at h
      cases h
  | addSignal sig src signalfd =>
    have refused : Taken s (.addSignal sig src signalfd) s :=
      .refused s _ (fun _ _ same => by cases same) (.inr ⟨sig, src, signalfd, rfl⟩)
    simp only [step, addFdToEvcore_eq] at h
    by_cases free : s.calling = none
    · by_cases outside : s.eh.sigarray.length ≤ sig ∨ sig = 0
      · simp only [free, Option.isSome_none, Bool.false_eq_true, ↓reduceIte, outside] at h
        obtain rfl := Option.some.inj h
        exact refused
      · simp only [free, Option.isSome_none, Bool.false_eq_true, ↓reduceIte, outside] at h
        cases signalfd with
        | none =>
          obtain rfl := Option.some.inj h
          exact refused
        | some fd =>
          by_cases new : 0 ≤ fd ∧ s.interest fd = none
          · by_cases accepts : Accepts s.eh s.externalvec fd demultiplexer
            · simp only [new, accepts, and_self, ↓reduceIte] at h
              obtain rfl := Option.some.inj h
              exact .signalAdded free (by omega) new.1 new.2 accepts
            · simp only [new, accepts, and_self, ↓reduceIte, Bool.false_eq_true] at h
              obtain rfl := Option.some.inj h
              exact refused
          · simp only [new, ↓reduceIte] at h
            cases h
    · rw [if_pos (Option.isSome_iff_ne_none.mpr free)] at h
      cases h
  | flush able =>
    obtain ⟨⟨fd, src⟩, busy, rfl⟩ := Option.map_eq_some_iff.mp h
    exact .flushed busy rfl
  | close fd =>
    obtain rfl := Option.some.inj h
    exact .closed s fd
  | wait thread events =>
    rw [step] at h
    split at h
    · obtain rfl := Option.some.inj h
      exact .waited s thread events
    · cases h
  | handle thread reading =>
    obtain ⟨e, last, h⟩ := Option.bind_eq_some_iff.mp h
    by_cases reads : s.reads e.fd reading
    · rw [if_pos reads] at h
      obtain rfl := Option.some.inj h
      exact .handled last reads
    · rw [if_neg reads] at h
      cases h

theorem step_kept {s s' : Core F S} {a : Action F S} (kept : Kept s) (h : step s a = some s') : Kept s' := by
  cases step_cases h with
  | refused => exact kept
  | @added fd src free accepts =>
    refine ⟨?_, kept.watched, kept.signals, kept.wanted⟩
    have queue := kept.queue
    rw [free] at queue
    simp [queue]
  | @signalAdded sig src fd free low natural new accepts =>
    have array :=
      @setupSignal_sigarray F S (s.eh.setupFd fd demultiplexer) sig low { src with txfxn := none }
    refine ⟨?_, kept.watched, fun fd' sig' is => ?_, fun sig' low' => ?_⟩
    · have queue := kept.queue
      rw [free] at queue
      simp [queue]
    · rw [array, List.length_set]
      by_cases same : fd' = fd
      · subst same
        obtain rfl : sig = sig' := by simpa using is
        exact low
      · exact kept.signals fd' sig' (by simpa [Function.update_of_ne same] using is)
    · rw [array, List.length_set] at low'
      rw [array]
      by_cases same : sig' = sig
      · subst same
        simp only [Function.update_self]
        exact List.getElem?_set_self low
      · simp only [Function.update_of_ne same]
        rw [List.getElem?_set_ne (Ne.symm same)]
        exact kept.wanted sig' low'
  | @flushed fd src able ok interest busy done =>
    refine ⟨rfl, ?_, kept.signals, kept.wanted⟩
    rw [flushed kept busy] at done
    by_cases can : able ∧ s.asked fd = none
    · rw [if_pos can] at done
      obtain ⟨rfl, rfl⟩ := Prod.mk.inj done
      exact watched_update kept.watched fd (some src)
    · rw [if_neg can] at done
      obtain ⟨rfl, rfl⟩ := Prod.mk.inj done
      exact kept.watched
  | closed fd =>
    refine ⟨kept.queue, watched_update kept.watched fd none, fun fd' sig is => ?_, kept.wanted⟩
    by_cases same : fd' = fd
    · subst same
      simp at is
    · exact kept.signals fd' sig (by simpa [Function.update_of_ne same] using is)
  | waited => exact ⟨kept.queue, kept.watched, kept.signals, kept.wanted⟩
  | handled => exact ⟨kept.queue, kept.watched, kept.signals, kept.wanted⟩

end Runs

section Coherence

/-- The arrays say what has been asked for: of each descriptor that is watched, and of the one that
a call is about to have watched. -/
structure Coherent (s : Core F S) : Prop where
  asked : ∀ fd src, s.asked fd = some src → element s.eh.fdarray fd = some src
  calling : ∀ fd src, s.calling = some (fd, src) → element s.eh.fdarray fd = some src
  tame : s.eh.wild = false

/-- What a caller of `add_fd_to_evhandler` has to see to: a descriptor that will be accepted is not
negative, and is not watched already for something else. -/
def Apt (s : Core F S) : Action F S → Prop
  | .addFd fd src =>
    s.calling = none → Accepts s.eh s.externalvec fd src →
      0 ≤ fd ∧ ∀ src', s.asked fd = some src' → src' = src
  | _ => True

def Evsource.signalled (src : Evsource F S) (signo : ℕ) : List (Called F S) :=
  match src.rxfxn with
  | some (.user f) => [⟨signo, f, src.cbstate⟩]
  | some .signalfdDemultiplexer => []
  | none => []

def Core.intended (s : Core F S) (src : Evsource F S) (e : Event) (reading : Reading) : List (Called F S) :=
  if e.events &&& epollin = 0 then []
  else
    match src.rxfxn with
    | none => []
    | some (.user f) => [⟨e.fd, f, src.cbstate⟩]
    | some .signalfdDemultiplexer =>
      (signalfdDemultiplexer reading.errno reading.results).handled.flatMap fun signo =>
        (s.wanted signo).signalled signo

/-- An event of a descriptor that is watched, also one fetched before the descriptor was closed and
asked for again, calls what is asked for now, and nothing else. -/
def Reaches (s : Core F S) : Action F S → Prop
  | .handle thread reading =>
    ∀ e src, (s.batches thread).getLast? = some e → s.asked e.fd = some src →
      ∀ s', step s (.handle thread reading) = some s' →
        s'.calls = s.calls ++ s.intended src e reading ∧ s'.eh = s.eh
  | _ => True

theorem fresh_coherent (fds sigs vsizes : ℕ) : Coherent (Core.fresh fds sigs vsizes : Core F S) :=
  ⟨fun _ _ none_ => (by cases none_), fun _ _ none_ => (by cases none_), rfl⟩

theorem handled_signal {errno : Errno} {results : List ReadResult} {signo : ℕ}
    (is : signo ∈ (signalfdDemultiplexer errno results).handled) : ∃ r ∈ results, r.signal = some signo := by
  induction results generalizing errno with
  | nil => cases is
  | cons r rest ih =>
    have later {errno : Errno} (is : signo ∈ (signalfdDemultiplexer errno rest).handled) :
        ∃ r' ∈ r :: rest, r'.signal = some signo := by
      obtain ⟨r', mem, same⟩ := ih is
      exact ⟨r', List.mem_cons_of_mem r mem, same⟩
    cases r with
    | record signo' left =>
      rw [signalfdDemultiplexer] at is
      split at is
      · obtain rfl | is := List.mem_cons.mp is
        · exact ⟨_, List.mem_cons_self, rfl⟩
        · exact later is
      · obtain rfl := List.mem_singleton.mp is
        exact ⟨_, List.mem_cons_self, rfl⟩
    | short bytes left =>
      rw [signalfdDemultiplexer] at is
      split at is
      · exact later is
      · cases is
    | error e => cases is

theorem handleSignals_eq {s : Core F S} (kept : Kept s) {fd : ℤ} {reading : Reading}
    (reads : s.reads fd reading) :
    handleSignals s.eh.sigarray reading = (false,
      (signalfdDemultiplexer reading.errno reading.results).handled.flatMap fun signo =>
        (s.wanted signo).signalled signo) := by
  have one : ∀ signo ∈ (signalfdDemultiplexer reading.errno reading.results).handled,
      handleSignal s.eh.sigarray signo = (false, (s.wanted signo).signalled signo) := by
    intro signo handled
    obtain ⟨r, mem, signal⟩ := handled_signal handled
    have known : s.signalfds fd = some signo := by
      have all := List.all_eq_true.mp reads r mem
      rw [signal, Option.all_some] at all
      exact of_decide_eq_true all
    rw [handleSignal, kept.wanted signo (kept.signals fd signo known), Evsource.signalled]
    cases rx : (s.wanted signo).rxfxn with
    | none => simp only [rx]
    | some f => cases f <;> simp only [rx]
  simp only [handleSignals]
  refine Prod.ext ?_ (List.flatMap_congr fun signo handled => by rw [one signo handled])
  exact List.any_eq_false.mpr fun signo handled => by simp [one signo handled]

theorem handleEvent_tame {s : Core F S} (kept : Kept s) {e : Event} {reading : Reading}
    (reads : s.reads e.fd reading) : (handleEvent s.eh e reading).1 = false := by
  rw [handleEvent]
  split
  · rw [handleReadEvent]
    cases element s.eh.fdarray e.fd with
    | none => rfl
    | some src =>
      cases rx : src.rxfxn with
      | none => simp only [rx]
      | some f =>
        cases f with
        | user f => simp only [rx]
        | signalfdDemultiplexer => simp only [rx, handleSignals_eq kept reads]
  · rfl

theorem handleEvent_intended {s : Core F S} (kept : Kept s) (coherent : Coherent s) {e : Event}
    {src : Evsource F S} {reading : Reading} (asked : s.asked e.fd = some src)
    (reads : s.reads e.fd reading) : handleEvent s.eh e reading = (false, s.intended src e reading) := by
  rw [handleEvent, Core.intended]
  by_cases readable : e.events &&& epollin = 0
  · rw [if_neg (not_not.mpr readable), if_pos readable]
  rw [if_pos readable, if_neg readable, handleReadEvent, coherent.asked e.fd src asked]
  cases rx : src.rxfxn with
  | none => simp only [rx]
  | some f =>
    cases f with
    | user f => simp only [rx]
    | signalfdDemultiplexer => simp only [rx, handleSignals_eq kept reads]

theorem coherent_added {s : Core F S} (coherent : Coherent s) {fd : ℤ} {src : Evsource F S}
    (high : fd < s.eh.fdarray.length) {eh : Evhandler F S}
    (fdarray : eh.fdarray = (s.eh.setupFd fd src).fdarray) (wild : eh.wild = (s.eh.setupFd fd src).wild)
    {s' : Core F S} (now : s'.eh = eh) (calling : s'.calling = some (fd, src))
    (asked : s'.asked = s.asked) :
    Coherent s' ↔ 0 ≤ fd ∧ ∀ src', s.asked fd = some src' → src' = src := by
  constructor
  · intro after
    have low : 0 ≤ fd := (element_some (after.calling fd src calling)).1
    refine ⟨low, fun src' is => ?_⟩
    have there := after.asked fd src' (asked ▸ is)
    rw [after.calling fd src calling] at there
    exact (Option.some.inj there).symm
  · rintro ⟨low, only⟩
    have array : ∀ m, element s'.eh.fdarray m = if m = fd then some src else element s.eh.fdarray m := by
      intro m
      rw [now, fdarray, setupFd_fdarray, element_setupEvsource low high]
    refine ⟨fun m src' is => ?_, fun m src' is => ?_, ?_⟩
    · rw [asked] at is
      rw [array]
      by_cases same : m = fd
      · subst same
        rw [if_pos rfl, only src' is]
      · rw [if_neg same]
        exact coherent.asked m src' is
    · rw [calling] at is
      obtain ⟨rfl, rfl⟩ := Prod.mk.inj (Option.some.inj is)
      rw [array, if_pos rfl]
    · rw [now, wild]
      exact (setupFd_wild high src).mpr ⟨coherent.tame, low⟩

theorem step_coherent_iff {s s' : Core F S} {a : Action F S} (kept : Kept s) (coherent : Coherent s)
    (h : step s a = some s') : Coherent s' ↔ Apt s a := by
  cases step_cases h with
  | refused _ not_ adds =>
    refine iff_of_true coherent ?_
    obtain ⟨fd, src, rfl⟩ | ⟨sig, src, signalfd, rfl⟩ := adds
    · exact fun _ accepts => absurd accepts (not_ fd src rfl)
    · trivial
  | @added fd src free accepts =>
    refine Iff.trans (coherent_added coherent accepts.1 rfl rfl rfl rfl rfl) ?_
    exact ⟨fun apt _ _ => apt, fun apt => apt free accepts⟩
  | @signalAdded sig src fd free low natural new accepts =>
    have low' : sig < (s.eh.setupFd fd demultiplexer).sigarray.length := low
    refine Iff.trans (coherent_added coherent accepts.1 (setupSignal_fdarray _ _ _)
      (setupSignal_wild low' _) rfl rfl rfl) ?_
    have none_ : s.asked fd = none := by rwa [kept.watched, Option.map_eq_none_iff] at new
    exact iff_of_true ⟨natural, fun src' is => by simp [none_] at is⟩ trivial
  | @flushed fd src able ok interest busy done =>
    refine iff_of_true ⟨fun m src' is => ?_, (fun _ _ none_ => by cases none_), coherent.tame⟩ trivial
    by_cases made : ok = true ∧ m = fd
    · obtain ⟨rfl, rfl⟩ := made
      obtain rfl : src = src' := by simpa using is
      exact coherent.calling m src busy
    · refine coherent.asked m src' ?_
      cases ok with
      | false => exact is
      | true => simpa [Function.update_of_ne fun same => made ⟨rfl, same⟩] using is
  | closed fd =>
    refine iff_of_true ⟨fun m src' is => ?_, coherent.calling, coherent.tame⟩ trivial
    by_cases same : m = fd
    · subst same
      simp at is
    · exact coherent.asked m src' (by simpa [Function.update_of_ne same] using is)
  | waited => exact iff_of_true ⟨coherent.asked, coherent.calling, coherent.tame⟩ trivial
  | @handled thread reading e last reads =>
    refine iff_of_true ⟨coherent.asked, coherent.calling, ?_⟩ trivial
    simp only [coherent.tame, handleEvent_tame kept reads, Bool.or_false]

def Sound (s : Core F S) (a : Action F S) : Prop := ∀ s', step s a = some s' → Coherent s'

theorem sound_iff {s : Core F S} {a : Action F S} (kept : Kept s) (coherent : Coherent s) :
    Sound s a ↔ Apt s a := by
  cases next : step s a with
  | some s' =>
    rw [← step_coherent_iff kept coherent next, Sound, next]
    exact ⟨fun sound => sound s' rfl, fun after s'' same => Option.some.inj same ▸ after⟩
  | none =>
    refine iff_of_true (fun s' same => by rw [next] at same; cases same) ?_
    cases a with
    | addFd fd src =>
      intro free
      simp [step, free] at next
    | _ => trivial

theorem reaches {s : Core F S} (kept : Kept s) (coherent : Coherent s) (a : Action F S) : Reaches s a := by
  cases a with
  | handle thread reading =>
    intro e src last asked s' h
    cases step_cases h with
    | handled last' reads =>
      obtain rfl := Option.some.inj (last.symm.trans last')
      rw [handleEvent_intended kept coherent asked reads]
      exact ⟨rfl, by simp only [Bool.or_false]⟩
    | refused _ _ adds => simp at adds
  | _ => trivial

/-- In every run from a handler that has been made, the arrays go on saying what has been asked for,
and every event of a watched descriptor reaches what was asked for last, exactly as long as no
negative descriptor is added, nor one that is watched already: such a call fails, but has replaced
the functions before. -/
theorem events_reach (fds sigs vsizes : ℕ) (actions : List (Action F S)) :
    Along step (fun s a => Sound s a ∧ Reaches s a) (Core.fresh fds sigs vsizes) actions ↔
      Along step Apt (Core.fresh fds sigs vsizes) actions := by
  have each (s : Core F S) (a : Action F S) (inv : Kept s ∧ Coherent s) :
      (Sound s a ∧ Reaches s a) ↔ Apt s a := by
    rw [and_iff_left (reaches inv.1 inv.2 a), sound_iff inv.1 inv.2]
  have keep (s : Core F S) (a : Action F S) (s' : Core F S) (inv : Kept s ∧ Coherent s) (apt : Apt s a)
      (next : step s a = some s') : Kept s' ∧ Coherent s' :=
    ⟨step_kept inv.1 next, (step_coherent_iff inv.1 inv.2 next).mpr apt⟩
  exact along_congr each keep ⟨fresh_kept fds sigs vsizes, fresh_coherent fds sigs vsizes⟩ actions

end Coherence

end Libdank.EventCore
