import Libdank.EventCore.Construction

/-! What is still held after any calls that make, use and destroy event handlers. -/
namespace Libdank.EventCore.Lifetime
open Requests Holdings

def Kevent.items (kv : Kevent) : Multiset Thing := {kv.events} + {kv.ctldata}

def Evectors.items (e : Evectors) : Multiset Thing := {e.block} + e.eventv.items + e.changev.items

def Evsources.items (evs : Evsources) : Multiset Thing := {evs.block} + evs.locks

def Evthread.items (e : Evthread) : Multiset Thing := {e.block} + e.ev.items + {e.tid}

def Evhandler.items (e : Evhandler) : Multiset Thing :=
  {e.block} + {e.fd} + {e.lock} + {e.cond} + e.fdarray.items + e.sigarray.items +
    e.externalvec.items + (e.threadlist.map Evthread.items).sum

def vectorMade (fails : VectorStep → Bool) : Bool := !fails .events && !fails .ctldata

def evectorsMade (fails : EvectorsStep → Bool) : Bool :=
  !fails .maxFds && !fails .block && (vectorMade (fun step => fails (.eventv step)) &&
    vectorMade fun step => fails (.changev step))

def sourcesMade (n : ℕ) (fails : SourcesStep → Bool) : Bool :=
  !fails .block && (List.range n).all fun z => !fails (.lock z)

def signalAdded (fails : SetUp → Bool) : Bool :=
  !fails .sigaddset && !fails .sigmask && !fails .signalfd && !fails .addFd

section Arms
variable (maxFds sigrtmax : ℕ) (fails : SetUp → Bool)

def armsIn : Bool :=
  !fails .mutexInit && !fails .condInit &&
    (sourcesMade maxFds (fun step => fails (.fdarray step)) &&
      (sourcesMade sigrtmax (fun step => fails (.sigarray step)) &&
        (evectorsMade (fun step => fails (.externalvec step)) && signalAdded fails)))

/-- The call gets as far as to flush the first change, which is for a signalfd. -/
def arms (flags : UInt32) : Bool :=
  decide (flags = flags &&& (fdCloexec ||| fdNonblock)) && !fails .epollCreate &&
    !(decide (flags &&& fdNonblock ≠ 0) && fails .nonblocking) && !fails .block &&
    armsIn maxFds sigrtmax fails

end Arms

structure Stranded (n : ℕ) (lost : Multiset Thing) : Prop where
  card : lost.card = n
  descriptors : ∀ i ∈ lost, i.kind = .descriptor

/-- What a call leaves in hand: what it has made, or what it was given if it has made nothing,
and a stranded descriptor if it is `armed`. -/
def Leaves {α : Type} (items : α → Multiset Thing) (spare : Multiset Thing) (armed ok : Bool)
    (r : Option α) (left : Multiset Thing) : Prop :=
  r.isSome = ok ∧ ∃ lost, Stranded armed.toNat lost ∧ left = r.elim spare items + lost

variable {own : Multiset Thing} {β : Type} {post : β → Multiset Thing → Prop}

theorem createEvector_makes (fails : VectorStep → Bool) :
    Makes (createEvector fails) Kevent.items (vectorMade fails) := by
  refine inHand_ite (fun h => makes_none (by simp [vectorMade, h])) fun h => ?_
  refine inHand_take fun events _ => inHand_ite (fun h' => ?_) fun h' => ?_
  · exact inHand_release rfl (makes_none (by simp [vectorMade, h']))
  · refine inHand_take fun ctldata _ => makes_some (by simp [vectorMade, h, h']) ?_
    rw [Kevent.items]
    abel

theorem destroyEvector_inHand (kv : Kevent) {f : Unit → Holder Kind β} {mine : Multiset Thing}
    (among : own = kv.items + mine) (rest : InHand mine (f ()) post) :
    InHand own (destroyEvector kv >>= f) post := by
  rw [Kevent.items, add_assoc] at among
  exact inHand_release among (inHand_release rfl rest)

theorem createEvectors_makes (fails : EvectorsStep → Bool) :
    Makes (createEvectors fails) Evectors.items (evectorsMade fails) := by
  refine inHand_ite (fun h => makes_none (by simp [evectorsMade, h])) fun h => ?_
  refine inHand_ite (fun h' => makes_none (by simp [evectorsMade, h'])) fun h' => ?_
  refine inHand_take fun block _ => ?_
  refine inHand_makes (createEvector_makes _) (fun no => ?_) fun eventv first => ?_
  · exact inHand_release rfl (makes_none (by simp [evectorsMade, no]))
  refine inHand_makes (createEvector_makes _) (fun no => ?_) fun changev second => ?_
  · exact destroyEvector_inHand eventv rfl (inHand_release rfl (makes_none (by simp [evectorsMade, no])))
  · refine makes_some (by simp [evectorsMade, h, h', first, second]) ?_
    rw [Evectors.items]
    abel

theorem destroyEvectors_inHand (e : Evectors) {f : Unit → Holder Kind β} {mine : Multiset Thing}
    (among : own = e.items + mine) (rest : InHand mine (f ()) post) :
    InHand own (destroyEvectors e >>= f) post := by
  have parts : own = e.changev.items + (e.eventv.items + ({e.block} + mine)) := by
    rw [among, Evectors.items]
    abel
  change InHand own (destroyEvector e.changev >>= fun _ => destroyEvector e.eventv >>= fun _ =>
    release e.block >>= f) post
  exact destroyEvector_inHand e.changev parts
    (destroyEvector_inHand e.eventv rfl (inHand_release rfl rest))

theorem initLocks_inHand (fails : ℕ → Bool) (todo z : ℕ) (made : List Thing) :
    InHand ↑made (initLocks fails todo z made) fun r left =>
      r.1 = ((List.range' z todo).all fun z => !fails z) ∧ left = ↑r.2 := by
  induction todo generalizing z made with
  | zero => exact inHand_pure ⟨rfl, rfl⟩
  | succ todo ih =>
    refine inHand_ite (fun h => inHand_pure ⟨?_, rfl⟩) fun h => ?_
    · rw [List.range'_succ, List.all_cons, h]
      rfl
    · refine inHand_take fun lock _ => ?_
      have grown : {lock} + (made : Multiset Thing) = ↑(made ++ [lock]) := by
        rw [← Multiset.coe_add, add_comm]
        rfl
      rw [grown]
      refine (ih (z + 1) (made ++ [lock])).imp fun r left here => ?_
      rw [List.range'_succ, List.all_cons, Bool.eq_false_iff.mpr h]
      exact here

theorem destroyEvsources_inHand (evs : Evsources) {f : Unit → Holder Kind β} {mine : Multiset Thing}
    (among : own = evs.items + mine) (rest : InHand mine (f ()) post) :
    InHand own (destroyEvsources evs >>= f) post := by
  have parts : own = ↑evs.locks + ({evs.block} + mine) := by
    rw [among, Evsources.items]
    abel
  exact inHand_releaseAll parts (inHand_release rfl rest)

theorem createEvsources_makes (n : ℕ) (fails : SourcesStep → Bool) :
    Makes (createEvsources n fails) Evsources.items (sourcesMade n fails) := by
  refine inHand_ite (fun h => makes_none (by simp [sourcesMade, h])) fun h => ?_
  refine inHand_take fun block _ => ?_
  refine inHand_frame (initLocks_inHand _ n 0 []) (by rw [Multiset.coe_nil]; abel) fun r left here => ?_
  obtain ⟨ok, locks⟩ := r
  obtain ⟨all, rfl⟩ := here
  rw [← List.range_eq_range'] at all
  dsimp only at all ⊢
  have whole : (locks : Multiset Thing) + {block} = Evsources.items ⟨block, locks⟩ := by
    rw [Evsources.items]
    abel
  rw [whole]
  refine inHand_ite (fun yes => ?_) fun no => ?_
  · exact makes_some (by simpa [sourcesMade, h, ← all] using yes) rfl
  · refine destroyEvsources_inHand _ (add_zero _).symm (makes_none ?_)
    rw [sourcesMade, ← all, Bool.eq_false_iff.mpr no, Bool.and_false]

theorem stranded_none : Stranded 0 0 := ⟨rfl, fun _ none_ => absurd none_ (Multiset.notMem_zero _)⟩

theorem addSignalToEvcore_inHand (fails : SetUp → Bool) :
    InHand 0 (addSignalToEvcore fails) fun ok left =>
      ok = signalAdded fails ∧ Stranded ok.toNat left := by
  refine inHand_ite (fun h => inHand_pure ⟨by simp [signalAdded, h], stranded_none⟩) fun h1 => ?_
  refine inHand_ite (fun h => inHand_pure ⟨by simp [signalAdded, h], stranded_none⟩) fun h2 => ?_
  refine inHand_ite (fun h => inHand_pure ⟨by simp [signalAdded, h], stranded_none⟩) fun h3 => ?_
  refine inHand_take fun fd kind => inHand_ite (fun h => ?_) fun h4 => ?_
  · exact inHand_release rfl (inHand_pure ⟨by simp [signalAdded, h], stranded_none⟩)
  · refine inHand_pure ⟨by simp [signalAdded, h1, h2, h3, h4], rfl, fun i mem => ?_⟩
    rw [add_zero, Multiset.mem_singleton] at mem
    rw [mem, kind]

theorem leaves_none {α : Type} {items : α → Multiset Thing} {armed ok : Bool} (idle : armed = false)
    (not_ : ok = false) : InHand own (pure none) (Leaves items own armed ok) := by
  subst idle
  exact inHand_pure ⟨not_.symm, 0, stranded_none, (add_zero own).symm⟩

theorem addEvhandlerBaseevents_inHand (fails : SetUp → Bool) :
    InHand 0 (addEvhandlerBaseevents fails) (Leaves Evectors.items 0
      (evectorsMade (fun step => fails (.externalvec step)) && signalAdded fails)
      (evectorsMade (fun step => fails (.externalvec step)) && signalAdded fails && !fails .kevent)) := by
  refine inHand_makes (createEvectors_makes _) (fun no => ?_) fun ev made => ?_
  · rw [no]
    exact leaves_none rfl rfl
  refine inHand_frame (addSignalToEvcore_inHand fails) (zero_add _).symm fun ok lost here => ?_
  obtain ⟨added, stranded⟩ := here
  rw [made, Bool.true_and, ← added]
  have parts : lost + (ev.items + 0) = ev.items + lost := by abel
  rw [parts]
  refine inHand_ite (fun yes => inHand_ite (fun kevent => ?_) fun kevent => ?_) fun no => ?_
  · exact destroyEvectors_inHand ev rfl
      (inHand_pure ⟨by simp [kevent], lost, stranded, (zero_add lost).symm⟩)
  · exact inHand_pure ⟨by simp [yes, kevent], lost, stranded, rfl⟩
  · exact destroyEvectors_inHand ev rfl
      (inHand_pure ⟨by simp [no], lost, stranded, (zero_add lost).symm⟩)

variable (maxFds sigrtmax : ℕ)

theorem initializeEvhandler_inHand (block fd : Thing) (fails : SetUp → Bool) :
    InHand ({block} + {fd}) (initializeEvhandler maxFds sigrtmax block fd fails)
      (Leaves Evhandler.items ({block} + {fd}) (armsIn maxFds sigrtmax fails)
        (armsIn maxFds sigrtmax fails && !fails .kevent)) := by
  refine inHand_ite (fun h => leaves_none (by simp [armsIn, h]) (by simp [armsIn, h])) fun h1 => ?_
  refine inHand_take fun lock _ => inHand_ite (fun h => ?_) fun h2 => ?_
  · exact inHand_release rfl (leaves_none (by simp [armsIn, h]) (by simp [armsIn, h]))
  refine inHand_take fun cond _ => ?_
  refine inHand_makes (createEvsources_makes maxFds _) (fun no => ?_) fun fdarray fds => ?_
  · exact inHand_release rfl (inHand_release rfl
      (leaves_none (by simp [armsIn, no]) (by simp [armsIn, no])))
  refine inHand_makes (createEvsources_makes sigrtmax _) (fun no => ?_) fun sigarray sigs => ?_
  · exact destroyEvsources_inHand fdarray rfl (inHand_release rfl (inHand_release rfl
      (leaves_none (by simp [armsIn, no]) (by simp [armsIn, no]))))
  have reached : armsIn maxFds sigrtmax fails =
      (evectorsMade (fun step => fails (.externalvec step)) && signalAdded fails) := by
    simp [armsIn, h1, h2, fds, sigs]
  rw [reached]
  refine inHand_frame (addEvhandlerBaseevents_inHand fails) (zero_add _).symm fun r left here => ?_
  obtain ⟨some_, lost, stranded, rfl⟩ := here
  cases r with
  | none =>
    have parts : (none : Option Evectors).elim 0 Evectors.items + lost +
        (sigarray.items + (fdarray.items + ({cond} + ({lock} + ({block} + {fd}))))) =
        sigarray.items + (fdarray.items + ({cond} + ({lock} + ({block} + {fd} + lost)))) := by
      rw [Option.elim_none]
      abel
    rw [parts]
    exact destroyEvsources_inHand sigarray rfl (destroyEvsources_inHand fdarray rfl
      (inHand_release rfl (inHand_release rfl (inHand_pure ⟨some_, lost, stranded, rfl⟩))))
  | some externalvec =>
    refine inHand_pure ⟨some_, lost, stranded, ?_⟩
    simp only [Option.elim_some, Evhandler.items, List.map_nil, List.sum_nil]
    abel

theorem createOn_inHand (fd : Thing) (fails : SetUp → Bool) :
    InHand {fd} (createOn maxFds sigrtmax fd fails)
      (Leaves Evhandler.items 0 (!fails .block && armsIn maxFds sigrtmax fails)
        (!fails .block && armsIn maxFds sigrtmax fails && !fails .kevent)) := by
  refine inHand_ite (fun h => ?_) fun h => ?_
  · exact inHand_release (add_zero _).symm (leaves_none (by simp [h]) (by simp [h]))
  refine inHand_take fun block _ => ?_
  rw [Bool.eq_false_iff.mpr h, Bool.not_false, Bool.true_and]
  refine inHand_bind (initializeEvhandler_inHand maxFds sigrtmax block fd fails) fun r left here => ?_
  obtain ⟨some_, lost, stranded, rfl⟩ := here
  cases r with
  | none =>
    have parts : (none : Option Evhandler).elim ({block} + {fd}) Evhandler.items + lost =
        {block} + ({fd} + lost) := by
      rw [Option.elim_none]
      abel
    rw [parts]
    exact inHand_release rfl (inHand_release rfl (inHand_pure ⟨some_, lost, stranded, (zero_add lost).symm⟩))
  | some e => exact inHand_pure ⟨some_, lost, stranded, rfl⟩

/-- A handler is made just when the call arms it and the flush succeeds; all else is let go of,
but for the signalfd of a call that arms a handler. -/
theorem createEvhandler_inHand (flags : UInt32) (fails : SetUp → Bool) :
    InHand 0 (createEvhandler maxFds sigrtmax flags fails)
      (Leaves Evhandler.items 0 (arms maxFds sigrtmax fails flags)
        (arms maxFds sigrtmax fails flags && !fails .kevent)) := by
  refine inHand_ite (fun h => ?_) fun valid => ?_
  · have idle : arms maxFds sigrtmax fails flags = false := by simp only [arms, decide_eq_false h, Bool.false_and]
    exact leaves_none idle (by rw [idle, Bool.false_and])
  refine inHand_ite (fun h => ?_) fun made => ?_
  · exact leaves_none (by simp [arms, h]) (by simp [arms, h])
  refine inHand_take fun fd _ => inHand_ite (fun h => ?_) fun set_ => ?_
  · have idle : arms maxFds sigrtmax fails flags = false := by
      simp only [arms, decide_eq_true h.1, h.2, Bool.and_true, Bool.not_true, Bool.and_false, Bool.false_and]
    exact inHand_release rfl (leaves_none idle (by rw [idle, Bool.false_and]))
  · have reached : arms maxFds sigrtmax fails flags = (!fails .block && armsIn maxFds sigrtmax fails) := by
      have set' : (decide (flags &&& fdNonblock ≠ 0) && fails .nonblocking) = false := by
        rw [Bool.eq_false_iff]
        simpa using set_
      simp only [arms, decide_eq_true (not_not.mp valid), Bool.eq_false_iff.mpr made, set', Bool.not_false,
        Bool.true_and]
    rw [reached, add_zero]
    exact createOn_inHand maxFds sigrtmax fd fails

theorem spawnEvthread_inHand (eh : Evhandler) (fails : SpawnStep → Bool) :
    InHand eh.items (spawnEvthread eh fails) fun r left => left = r.2.items := by
  refine inHand_ite (fun _ => inHand_pure rfl) fun _ => ?_
  refine inHand_take fun evth _ => ?_
  refine inHand_makes (createEvectors_makes _) (fun _ => ?_) fun ev _ => ?_
  · exact inHand_release rfl (inHand_pure rfl)
  refine inHand_ite (fun _ => ?_) fun _ => ?_
  · exact destroyEvectors_inHand ev rfl (inHand_release rfl (inHand_pure rfl))
  refine inHand_take fun emarsh _ => inHand_ite (fun _ => ?_) fun _ => ?_
  · exact inHand_release rfl (destroyEvectors_inHand ev rfl (inHand_release rfl (inHand_pure rfl)))
  refine inHand_take fun tid _ => ?_
  have parts : {tid} + ({emarsh} + (ev.items + ({evth} + eh.items))) =
      {emarsh} + ({evth} + ev.items + {tid} + eh.items) := by abel
  rw [parts]
  refine inHand_release rfl (inHand_pure ?_)
  simp only [Evhandler.items, List.map_cons, List.sum_cons, Evthread.items]
  abel

theorem destroyEvthreadlist_inHand (threads : List Evthread) {f : Unit → Holder Kind β}
    {mine : Multiset Thing} (among : own = (threads.map Evthread.items).sum + mine)
    (rest : InHand mine (f ()) post) : InHand own (destroyEvthreadlist threads >>= f) post := by
  induction threads generalizing own with
  | nil =>
    rw [List.map_nil, List.sum_nil, zero_add] at among
    subst among
    exact rest
  | cons e threads ih =>
    have parts : own = {e.tid} + (e.ev.items + ({e.block} + ((threads.map Evthread.items).sum + mine))) := by
      rw [among, List.map_cons, List.sum_cons, Evthread.items]
      abel
    change InHand own (release e.tid >>= fun _ => destroyEvectors e.ev >>= fun _ => release e.block >>= fun _ =>
      destroyEvthreadlist threads >>= f) post
    exact inHand_release parts (destroyEvectors_inHand e.ev rfl (inHand_release rfl (ih rfl)))

theorem destroyEvhandler_inHand (e : Evhandler) {f : Unit → Holder Kind β} {mine : Multiset Thing}
    (among : own = e.items + mine) (rest : InHand mine (f ()) post) :
    InHand own (destroyEvhandler e >>= f) post := by
  have parts : own = (e.threadlist.map Evthread.items).sum + ({e.lock} + ({e.cond} + (e.sigarray.items +
      (e.fdarray.items + (e.externalvec.items + ({e.fd} + ({e.block} + mine))))))) := by
    rw [among, Evhandler.items]
    abel
  change InHand own (destroyEvthreadlist e.threadlist >>= fun _ => release e.lock >>= fun _ =>
    release e.cond >>= fun _ => destroyEvsources e.sigarray >>= fun _ => destroyEvsources e.fdarray >>= fun _ =>
    destroyEvectors e.externalvec >>= fun _ => release e.fd >>= fun _ => release e.block >>= f) post
  exact destroyEvthreadlist_inHand _ parts (inHand_release rfl (inHand_release rfl
    (destroyEvsources_inHand _ rfl (destroyEvsources_inHand _ rfl (destroyEvectors_inHand _ rfl
      (inHand_release rfl (inHand_release rfl rest)))))))

theorem createEvthread_inHand (flags : UInt32) (fails : SetUp → Bool) (spawnFails : SpawnStep → Bool) :
    InHand 0 (createEvthread maxFds sigrtmax flags fails spawnFails) fun r left =>
      ∃ lost, Stranded (arms maxFds sigrtmax fails flags).toNat lost ∧ left = r.elim 0 Evhandler.items + lost := by
  refine inHand_bind (createEvhandler_inHand maxFds sigrtmax flags fails) fun r left here => ?_
  obtain ⟨-, lost, stranded, rfl⟩ := here
  cases r with
  | none => exact inHand_pure ⟨lost, stranded, rfl⟩
  | some e =>
    refine inHand_frame (spawnEvthread_inHand e spawnFails) rfl fun r left same => ?_
    subst same
    obtain ⟨ok, e'⟩ := r
    cases ok with
    | true => exact inHand_pure ⟨lost, stranded, rfl⟩
    | false => exact destroyEvhandler_inHand e' rfl (inHand_pure ⟨lost, stranded, (zero_add lost).symm⟩)

section Runs

structure Program where
  ledger : Ledger Kind
  handlers : List Evhandler
  armed : ℕ

def Program.fresh : Program := ⟨.empty, [], 0⟩

inductive Call where
  | create (flags : UInt32) (fails : SetUp → Bool)
  | createThread (flags : UInt32) (fails : SetUp → Bool) (spawnFails : SpawnStep → Bool)
  | spawn (i : ℕ) (fails : SpawnStep → Bool)
  | destroy (i : ℕ)

def call (p : Program) : Call → Option Program
  | .create flags fails =>
    let (r, ledger) := createEvhandler maxFds sigrtmax flags fails p.ledger
    some ⟨ledger, r.toList ++ p.handlers, p.armed + (arms maxFds sigrtmax fails flags).toNat⟩
  | .createThread flags fails spawnFails =>
    let (r, ledger) := createEvthread maxFds sigrtmax flags fails spawnFails p.ledger
    some ⟨ledger, r.toList ++ p.handlers, p.armed + (arms maxFds sigrtmax fails flags).toNat⟩
  | .spawn i fails =>
    (p.handlers[i]?).map fun eh =>
      let ((_, eh), ledger) := spawnEvthread eh fails p.ledger
      { p with ledger := ledger, handlers := p.handlers.set i eh }
  | .destroy i =>
    (p.handlers[i]?).map fun eh =>
      { p with ledger := (destroyEvhandler eh p.ledger).2, handlers := p.handlers.eraseIdx i }

/-- Everything handed out has been let go of once, but for what the handlers of the program are
made of, and one descriptor for each call that armed one. -/
def Settled (p : Program) : Prop :=
  ∃ lost, Stranded p.armed lost ∧ Held ((p.handlers.map Evhandler.items).sum + lost) p.ledger

variable {maxFds sigrtmax} {p p' : Program}

theorem sum_eraseIdx {handlers : List Evhandler} {i : ℕ} {eh : Evhandler} (has : handlers[i]? = some eh) :
    (handlers.map Evhandler.items).sum = eh.items + ((handlers.eraseIdx i).map Evhandler.items).sum := by
  obtain ⟨lt, rfl⟩ := List.getElem?_eq_some_iff.mp has
  exact (((List.getElem_cons_eraseIdx_perm lt).map Evhandler.items).sum_eq).symm

theorem sum_set {handlers : List Evhandler} {i : ℕ} {eh : Evhandler} (has : handlers[i]? = some eh)
    (eh' : Evhandler) : ((handlers.set i eh').map Evhandler.items).sum =
      eh'.items + ((handlers.eraseIdx i).map Evhandler.items).sum := by
  obtain ⟨lt, rfl⟩ := List.getElem?_eq_some_iff.mp has
  exact ((List.set_perm_cons_eraseIdx lt eh').map Evhandler.items).sum_eq

theorem settled_made {m : Holder Kind (Option Evhandler)} {armed : Bool} (h : Settled p)
    (makes : InHand 0 m fun r left =>
      ∃ lost, Stranded armed.toNat lost ∧ left = r.elim 0 Evhandler.items + lost) :
    Settled ⟨(m p.ledger).2, (m p.ledger).1.toList ++ p.handlers, p.armed + armed.toNat⟩ := by
  obtain ⟨lost, ⟨card, kinds⟩, held⟩ := h
  have start : Held (0 + ((p.handlers.map Evhandler.items).sum + lost)) p.ledger := by rwa [zero_add]
  obtain ⟨left, ⟨more, ⟨card', kinds'⟩, rfl⟩, after⟩ := makes _ _ start
  refine ⟨lost + more, ⟨by rw [Multiset.card_add, card, card'], fun i mem => ?_⟩, ?_⟩
  · exact (Multiset.mem_add.mp mem).elim (kinds i) (kinds' i)
  · cases made : (m p.ledger).1 with
    | none =>
      rw [made] at after
      have parts : (none : Option Evhandler).elim 0 Evhandler.items + more +
          ((p.handlers.map Evhandler.items).sum + lost) =
          (p.handlers.map Evhandler.items).sum + (lost + more) := by
        rw [Option.elim_none]
        abel
      exact parts ▸ after
    | some e =>
      rw [made] at after
      have parts : (some e).elim 0 Evhandler.items + more + ((p.handlers.map Evhandler.items).sum + lost) =
          (((some e).toList ++ p.handlers).map Evhandler.items).sum + (lost + more) := by
        rw [Option.elim_some, Option.toList_some, List.singleton_append, List.map_cons, List.sum_cons]
        abel
      exact parts ▸ after

theorem settled_call {c : Call} (h : Settled p) (next : call maxFds sigrtmax p c = some p') :
    Settled p' := by
  cases c with
  | create flags fails =>
    obtain rfl := Option.some.inj next
    refine settled_made h ?_
    exact (createEvhandler_inHand maxFds sigrtmax flags fails).imp fun r left here => here.2
  | createThread flags fails spawnFails =>
    obtain rfl := Option.some.inj next
    exact settled_made h (createEvthread_inHand maxFds sigrtmax flags fails spawnFails)
  | spawn i fails =>
    obtain ⟨eh, has, rfl⟩ := Option.map_eq_some_iff.mp next
    obtain ⟨lost, stranded, held⟩ := h
    rw [sum_eraseIdx has, add_assoc] at held
    obtain ⟨left, rfl, after⟩ := spawnEvthread_inHand eh fails _ _ held
    refine ⟨lost, stranded, ?_⟩
    change Held (((p.handlers.set i _).map Evhandler.items).sum + lost) _
    rw [sum_set has, add_assoc]
    exact after
  | destroy i =>
    obtain ⟨eh, has, rfl⟩ := Option.map_eq_some_iff.mp next
    obtain ⟨lost, stranded, held⟩ := h
    rw [sum_eraseIdx has, add_assoc] at held
    have gone : InHand eh.items (destroyEvhandler eh >>= pure) fun _ left => left = 0 :=
      destroyEvhandler_inHand eh (add_zero _).symm (inHand_pure rfl)
    obtain ⟨left, rfl, after⟩ := gone _ _ held
    rw [zero_add] at after
    exact ⟨lost, stranded, after⟩

/-- Whatever steps fail in a run of calls: each block, lock, thread and descriptor that they were
handed is let go of once if it does not belong to a handler that is left, and never otherwise;
only the signalfd of each call that arms a handler is not closed by any. -/
theorem evhandlers_settled (maxFds sigrtmax : ℕ) {calls : List Call} {p : Program}
    (reached : Transitions.run (call maxFds sigrtmax) .fresh calls = some p) : Settled p := by
  refine Transitions.run_invariant (fun p c p' h next => settled_call h next) ?_ reached
  exact ⟨0, stranded_none, held_empty⟩

def twoHandlers : List Call :=
  [.create 0 (fun _ => false), .spawn 0 (fun _ => false), .destroy 0, .create 0 (· = .kevent)]

/-- A descriptor of each stays open. -/
theorem evhandlers_settled_destroyed :
    ∃ p, Transitions.run (call 1 1) .fresh twoHandlers = some p ∧ Settled p ∧ p.handlers.length = 0 ∧
      p.armed = 2 ∧ p.ledger.given.length = p.ledger.released.length + 2 := by
  have reached : (Transitions.run (call 1 1) .fresh twoHandlers).map (fun p => (p.handlers.length, p.armed,
      decide (p.ledger.given.length = p.ledger.released.length + 2))) = some (0, 2, true) := by
    decide +kernel
  obtain ⟨p, run, ends⟩ := Option.map_eq_some_iff.mp reached
  simp only [Prod.mk.injEq, decide_eq_true_eq] at ends
  exact ⟨p, run, evhandlers_settled 1 1 run, ends⟩

end Runs

end Libdank.EventCore.Lifetime
