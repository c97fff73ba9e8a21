import Libdank.CtlServer.Operations

/-! Who refers to a command. A command that is pending or running is linked in
the table, and its count is the number of those; what a deleter unlinks nobody
refers to, and nobody can come to. -/
namespace Libdank.CtlServer
open Parse Transitions

/-- Scheduled commands, pending and running, that refer to an `export_cmd`. -/
def Server.refs (s : Server) (e : ℕ) : ℕ :=
  s.pendingCmdStates.countP (·.cmd = e) + s.running.countP (·.2.cmd = e)

def Server.tickets (s : Server) : List ℕ :=
  s.pendingCmdStates.map (·.ticket) ++ s.taken.map Prod.snd

structure Counted (s : Server) : Prop where
  linked : s.cmdtable.Nodup
  present : ∀ e ∈ s.cmdtable, ∃ c, s.exports e = some c
  fresh : ∀ e c, s.exports e = some c → e < s.nextExport
  counts : ∀ e c, s.exports e = some c → c.refcount = s.refs e
  pending : ∀ c ∈ s.pendingCmdStates, c.cmd ∈ s.cmdtable
  running : ∀ p ∈ s.running, p.2.cmd ∈ s.cmdtable
  drones : (s.running.map Prod.fst).Nodup
  deleters : (s.unlinked.map Prod.fst).Nodup
  extracted : (s.unlinked.map Prod.snd).Nodup
  apart : ∀ p ∈ s.unlinked, p.2 ∉ s.cmdtable ∧ ∃ c, s.exports p.2 = some c
  tickets : s.tickets.Perm (List.range s.nextTicket)
  drawn : ∀ p ∈ s.running, (p.1, p.2.ticket) ∈ s.taken
  tame : s.wild = false

theorem counted_stopped : Counted stopped := by
  constructor <;> simp [stopped, Server.tickets]

variable {s : Server}

theorem refs_unlinked (h : Counted s) {e : ℕ} (unlinked : e ∉ s.cmdtable) : s.refs e = 0 := by
  rw [Server.refs, Nat.add_eq_zero_iff, List.countP_eq_zero, List.countP_eq_zero]
  constructor
  · exact fun c hc same => unlinked (of_decide_eq_true same ▸ h.pending c hc)
  · exact fun p hp same => unlinked (of_decide_eq_true same ▸ h.running p hp)

theorem counted_regcommand (h : Counted s) (cmd : Text) (able : Bool) :
    Counted (regcommand s cmd able) := by
  cases able with
  | false => exact h
  | true =>
    have unlinked : s.nextExport ∉ s.cmdtable := fun mem => by
      obtain ⟨c, here⟩ := h.present _ mem
      exact lt_irrefl _ (h.fresh _ c here)
    have new : (regcommand s cmd true).exports s.nextExport = some ⟨0, cmd⟩ :=
      Function.update_self _ _ _
    have old {e : ℕ} (other : e ≠ s.nextExport) : (regcommand s cmd true).exports e = s.exports e :=
      Function.update_of_ne other _ _
    have kept {e : ℕ} {c : ExportCmd} (here : s.exports e = some c) :
        (regcommand s cmd true).exports e = some c := by
      rw [old fun same => ?_, here]
      exact lt_irrefl _ (same ▸ h.fresh e c here)
    refine ⟨List.nodup_cons.mpr ⟨unlinked, h.linked⟩, ?_, ?_, ?_, fun c hc => .tail _ (h.pending c hc),
      fun p hp => .tail _ (h.running p hp), h.drones, h.deleters, h.extracted, ?_, h.tickets, h.drawn,
      h.tame⟩
    · intro e mem
      rcases List.mem_cons.mp mem with rfl | mem
      · exact ⟨_, new⟩
      · obtain ⟨c, here⟩ := h.present e mem
        exact ⟨c, kept here⟩
    · intro e c here
      by_cases same : e = s.nextExport
      · exact same ▸ Nat.lt_succ_self _
      · exact (h.fresh e c (old same ▸ here)).trans (Nat.lt_succ_self _)
    · intro e c here
      by_cases same : e = s.nextExport
      · subst same
        obtain rfl := Option.some.inj (here.symm.trans new)
        exact (refs_unlinked h unlinked).symm
      · exact h.counts e c (old same ▸ here)
    · intro p hp
      obtain ⟨out, c, here⟩ := h.apart p hp
      refine ⟨fun mem => ?_, c, kept here⟩
      rcases List.mem_cons.mp mem with same | mem
      · exact lt_irrefl _ (same ▸ h.fresh _ c here)
      · exact out mem

theorem delcommandPass_extracted {cmd : Text} {cur : ℕ} (h : Counted s)
    (found : (delcommandPass s cmd).1 = .extracted cur) : cur ∈ s.cmdtable ∧ s.refs cur = 0 ∧
      (delcommandPass s cmd).2 = { s with cmdtable := s.cmdtable.erase cur } := by
  unfold delcommandPass at found ⊢
  cases here : s.lookup cmd with
  | none => simp [here] at found
  | some e =>
    simp only [here] at found ⊢
    split at found
    · rename_i zero
      obtain rfl : e = cur := by simpa using found
      have mem := List.mem_of_find?_eq_some here
      obtain ⟨c, export_⟩ := h.present e mem
      rw [export_, Option.any_some, decide_eq_true_eq] at zero
      exact ⟨mem, (h.counts e c export_).symm.trans zero, by rw [if_pos (by simp [export_, zero])]⟩
    · simp at found

theorem delcommandPass_same {cmd : Text} (kept : ∀ cur, (delcommandPass s cmd).1 ≠ .extracted cur) :
    (delcommandPass s cmd).2 = s := by
  unfold delcommandPass at kept ⊢
  cases here : s.lookup cmd with
  | none => rfl
  | some e =>
    simp only [here] at kept ⊢
    split
    · rename_i zero
      exact absurd (by rw [if_pos zero]) (kept e)
    · rfl

theorem counted_unlink (h : Counted s) {deleter cur : ℕ} (free : ¬ (s.unlinked.lookup deleter).isSome)
    (mem : cur ∈ s.cmdtable) (zero : s.refs cur = 0) :
    Counted { s with cmdtable := s.cmdtable.erase cur, unlinked := (deleter, cur) :: s.unlinked } := by
  rw [Server.refs, Nat.add_eq_zero_iff, List.countP_eq_zero, List.countP_eq_zero] at zero
  have others {e : ℕ} (there : e ∈ s.cmdtable) (other : e ≠ cur) : e ∈ s.cmdtable.erase cur :=
    (List.mem_erase_of_ne other).mpr there
  refine ⟨h.linked.erase _, fun e he => h.present e (List.mem_of_mem_erase he), h.fresh, h.counts,
    fun c hc => others (h.pending c hc) fun same => zero.1 c hc (decide_eq_true same),
    fun p hp => others (h.running p hp) fun same => zero.2 p hp (decide_eq_true same), h.drones,
    List.nodup_cons.mpr ⟨not_mem_of_lookup free, h.deleters⟩, ?_, ?_, h.tickets, h.drawn, h.tame⟩
  · refine List.nodup_cons.mpr ⟨fun twice => ?_, h.extracted⟩
    obtain ⟨p, hp, same⟩ := List.mem_map.mp twice
    exact (h.apart p hp).1 (same ▸ mem)
  · intro p hp
    rcases List.mem_cons.mp hp with rfl | hp
    · exact ⟨h.linked.not_mem_erase, h.present cur mem⟩
    · exact ⟨fun there => (h.apart p hp).1 (List.mem_of_mem_erase there), (h.apart p hp).2⟩

theorem counted_free (h : Counted s) {deleter cur : ℕ} (held : s.unlinked.lookup deleter = some cur) :
    Counted { s with
      exports := Function.update s.exports cur none
      unlinked := s.unlinked.filter fun p => p.1 ≠ deleter
      wild := s.wild || (s.exports cur).isNone } := by
  have perm := perm_of_lookup h.deleters held
  have mem : (deleter, cur) ∈ s.unlinked := perm.mem_iff.mpr (.head _)
  obtain ⟨out, c, here⟩ := h.apart _ mem
  have rest : (s.unlinked.filter fun p => p.1 ≠ deleter).Sublist s.unlinked := List.filter_sublist
  have once := (perm.map Prod.snd).nodup_iff.mp h.extracted
  rw [List.map_cons, List.nodup_cons] at once
  have old {e : ℕ} (other : e ≠ cur) : Function.update s.exports cur none e = s.exports e :=
    Function.update_of_ne other _ _
  have live {e : ℕ} {c : ExportCmd} (there : Function.update s.exports cur none e = some c) :
      s.exports e = some c := by
    by_cases same : e = cur
    · subst same
      simp at there
    · exact old same ▸ there
  refine ⟨h.linked, ?_, fun e c there => h.fresh e c (live there), fun e c there => h.counts e c (live there),
    h.pending, h.running, h.drones, h.deleters.sublist (rest.map _), once.2, ?_, h.tickets, h.drawn, ?_⟩
  · intro e linked
    obtain ⟨c, there⟩ := h.present e linked
    exact ⟨c, (old fun same => out (same ▸ linked)).trans there⟩
  · intro p hp
    obtain ⟨away, c, there⟩ := h.apart p (rest.subset hp)
    refine ⟨away, c, (old fun same => once.1 ?_).trans there⟩
    exact List.mem_map.mpr ⟨p, hp, same⟩
  · simp [h.tame, here]

theorem update_present {cur : ℕ} {c c' : ExportCmd} (here : s.exports cur = some c) {e : ℕ} :
    (∃ d, Function.update s.exports cur (some c') e = some d) ↔ ∃ d, s.exports e = some d := by
  by_cases same : e = cur
  · subst same
    simp [here]
  · rw [Function.update_of_ne same]

theorem update_counts {cur : ℕ} {c : ExportCmd} {count : ℕ} {refs : ℕ → ℕ}
    (counts : ∀ e c, s.exports e = some c → c.refcount = s.refs e)
    (now : count = refs cur) (others : ∀ e ≠ cur, refs e = s.refs e) (e : ℕ) (d : ExportCmd)
    (there : Function.update s.exports cur (some { c with refcount := count }) e = some d) :
    d.refcount = refs e := by
  by_cases same : e = cur
  · subst same
    obtain rfl : { c with refcount := count } = d := by simpa using there
    exact now
  · rw [Function.update_of_ne same] at there
    rw [others e same]
    exact counts e d there

theorem counted_enqueue (h : Counted s) {cur : ℕ} {c : ExportCmd} (mem : cur ∈ s.cmdtable)
    (here : s.exports cur = some c) :
    Counted { s with
      exports := Function.update s.exports cur (some { c with refcount := c.refcount + 1 })
      pendingCmdStates := ⟨s.nextTicket, cur⟩ :: s.pendingCmdStates
      nextTicket := s.nextTicket + 1 } := by
  refine ⟨h.linked, fun e he => (update_present here).mpr (h.present e he), ?_, ?_, ?_, h.running,
    h.drones, h.deleters, h.extracted, fun p hp => ⟨(h.apart p hp).1, (update_present here).mpr (h.apart p hp).2⟩,
    ?_, h.drawn, h.tame⟩
  · intro e d there
    obtain ⟨d', before⟩ := (update_present here).mp ⟨d, there⟩
    exact h.fresh e d' before
  · refine update_counts h.counts ?_ ?_
    · rw [h.counts cur c here]
      simp [Server.refs]
      omega
    · intro e other
      simp [Server.refs, Ne.symm other]
  · intro p hp
    rcases List.mem_cons.mp hp with rfl | hp
    · exact mem
    · exact h.pending p hp
  · have before := h.tickets
    change (s.nextTicket :: s.tickets).Perm _
    rw [List.range_succ]
    exact (before.cons _).trans (List.perm_append_singleton _ _).symm

theorem counted_dequeue (h : Counted s) {drone : ℕ} {me : ScheduledCmd} {next : List ScheduledCmd}
    (idle : ¬ (s.running.lookup drone).isSome) (first : s.pendingCmdStates = me :: next) :
    Counted { s with
      pendingCmdStates := next
      running := (drone, me) :: s.running
      taken := (drone, me.ticket) :: s.taken } := by
  have pending := h.pending
  rw [first] at pending
  refine ⟨h.linked, h.present, h.fresh, ?_, fun c hc => pending c (.tail _ hc), ?_,
    List.nodup_cons.mpr ⟨not_mem_of_lookup idle, h.drones⟩, h.deleters, h.extracted, h.apart, ?_, ?_, h.tame⟩
  · intro e c here
    rw [h.counts e c here]
    simp only [Server.refs, first, List.countP_cons]
    omega
  · intro p hp
    rcases List.mem_cons.mp hp with rfl | hp
    · exact pending me (.head _)
    · exact h.running p hp
  · have before := h.tickets
    rw [Server.tickets, first] at before
    exact List.perm_middle.trans before
  · intro p hp
    rcases List.mem_cons.mp hp with rfl | hp
    · exact .head _
    · exact .tail _ (h.drawn p hp)

theorem counted_complete (h : Counted s) {drone : ℕ} {me : ScheduledCmd}
    (held : s.running.lookup drone = some me) {c : ExportCmd} (here : s.exports me.cmd = some c) :
    Counted { s with
      exports := Function.update s.exports me.cmd (some { c with refcount := c.refcount - 1 })
      running := s.running.filter fun p => p.1 ≠ drone } := by
  have perm := perm_of_lookup h.drones held
  have rest : (s.running.filter fun p => p.1 ≠ drone).Sublist s.running := List.filter_sublist
  have refs (e : ℕ) : s.refs e = s.pendingCmdStates.countP (·.cmd = e) +
      ((s.running.filter fun p => p.1 ≠ drone).countP (·.2.cmd = e) + if me.cmd = e then 1 else 0) := by
    rw [Server.refs, perm.countP_eq, List.countP_cons]
    simp
  refine ⟨h.linked, fun e he => (update_present here).mpr (h.present e he), ?_, ?_, h.pending,
    fun p hp => h.running p (rest.subset hp), h.drones.sublist (rest.map _), h.deleters, h.extracted,
    fun p hp => ⟨(h.apart p hp).1, (update_present here).mpr (h.apart p hp).2⟩, h.tickets,
    fun p hp => h.drawn p (rest.subset hp), h.tame⟩
  · intro e d there
    obtain ⟨d', before⟩ := (update_present here).mp ⟨d, there⟩
    exact h.fresh e d' before
  · refine update_counts h.counts ?_ ?_
    · rw [h.counts _ c here, refs, if_pos rfl]
      rfl
    · intro e other
      rw [refs, if_neg (Ne.symm other)]
      rfl

inductive Effect (s : Server) : Server → Prop
  | nothing : Effect s s
  | registers (cmd : Text) : Effect s (regcommand s cmd true)
  | unlinks {deleter cur : ℕ} (free : ¬ (s.unlinked.lookup deleter).isSome) (mem : cur ∈ s.cmdtable)
      (zero : s.refs cur = 0) :
      Effect s { s with cmdtable := s.cmdtable.erase cur, unlinked := (deleter, cur) :: s.unlinked }
  | frees {deleter cur : ℕ} (held : s.unlinked.lookup deleter = some cur) :
      Effect s { s with
        exports := Function.update s.exports cur none
        unlinked := s.unlinked.filter fun p => p.1 ≠ deleter
        wild := s.wild || (s.exports cur).isNone }
  | enqueues {cur : ℕ} {c : ExportCmd} (mem : cur ∈ s.cmdtable) (here : s.exports cur = some c) :
      Effect s { s with
        exports := Function.update s.exports cur (some { c with refcount := c.refcount + 1 })
        pendingCmdStates := ⟨s.nextTicket, cur⟩ :: s.pendingCmdStates
        nextTicket := s.nextTicket + 1 }
  | dequeues {drone : ℕ} {me : ScheduledCmd} {next : List ScheduledCmd}
      (idle : ¬ (s.running.lookup drone).isSome) (first : s.pendingCmdStates = me :: next) :
      Effect s { s with
        pendingCmdStates := next
        running := (drone, me) :: s.running
        taken := (drone, me.ticket) :: s.taken }
  | completes {drone : ℕ} {me : ScheduledCmd} {c : ExportCmd}
      (held : s.running.lookup drone = some me) (here : s.exports me.cmd = some c) :
      Effect s { s with
        exports := Function.update s.exports me.cmd (some { c with refcount := c.refcount - 1 })
        running := s.running.filter fun p => p.1 ≠ drone }

theorem schedule_effect (h : Counted s) (cmdstr : Text) (able : Bool) :
    Effect s (schedule s cmdstr able).2 := by
  unfold schedule
  cases found : s.lookup cmdstr with
  | none => exact .nothing
  | some cur =>
    cases able with
    | false => exact .nothing
    | true =>
      have mem := List.mem_of_find?_eq_some found
      obtain ⟨c, here⟩ := h.present cur mem
      simp only [if_true, setRefcount_eq here]
      exact .enqueues mem here

theorem step_effect {a : Action} {t : Server} (h : Counted s) (next : step s a = some t) :
    Effect s t := by
  cases a with
  | regcommand cmd able =>
    obtain rfl := Option.some.inj next
    cases able with
    | true => exact .registers cmd
    | false => exact .nothing
  | pass deleter cmd =>
    simp only [step] at next
    split at next
    · simp at next
    · rename_i free
      cases ended : (delcommandPass s cmd).1 with
      | extracted cur =>
        obtain ⟨mem, zero, result⟩ := delcommandPass_extracted h ended
        rw [← @Prod.mk.eta _ _ (delcommandPass s cmd), ended, result] at next
        obtain rfl := Option.some.inj next
        exact .unlinks free mem zero
      | missing =>
        have same := @delcommandPass_same s cmd (by simp [ended])
        rw [← @Prod.mk.eta _ _ (delcommandPass s cmd), ended, same] at next
        exact Option.some.inj next ▸ .nothing
      | busy =>
        have same := @delcommandPass_same s cmd (by simp [ended])
        rw [← @Prod.mk.eta _ _ (delcommandPass s cmd), ended, same] at next
        exact Option.some.inj next ▸ .nothing
  | free deleter =>
    obtain ⟨cur, held, rfl⟩ := Option.map_eq_some_iff.mp next
    exact .frees held
  | schedule cmdstr able =>
    obtain rfl := Option.some.inj next
    exact schedule_effect h cmdstr able
  | dequeue drone =>
    simp only [step] at next
    split at next
    · simp at next
    · rename_i idle
      cases first : s.pendingCmdStates with
      | nil => simp [first] at next
      | cons me rest =>
        rw [first] at next
        obtain rfl := Option.some.inj next
        exact .dequeues idle first
  | complete drone =>
    obtain ⟨me, held, rfl⟩ := Option.map_eq_some_iff.mp next
    have mem : (drone, me) ∈ s.running := (perm_of_lookup h.drones held).mem_iff.mpr (.head _)
    obtain ⟨c, here⟩ := h.present _ (h.running _ mem)
    rw [setRefcount_eq here]
    exact .completes held here

theorem Counted.effect {t : Server} (h : Counted s) (effect : Effect s t) : Counted t := by
  cases effect with
  | nothing => exact h
  | registers cmd => exact counted_regcommand h cmd true
  | unlinks free mem zero => exact counted_unlink h free mem zero
  | frees held => exact counted_free h held
  | enqueues mem here => exact counted_enqueue h mem here
  | dequeues idle first => exact counted_dequeue h idle first
  | completes held here => exact counted_complete h held here

theorem Effect.unlinked {t : Server} (effect : Effect s t) {e : ℕ} (before : e ∈ s.cmdtable)
    (after : e ∉ t.cmdtable) : s.refs e = 0 := by
  cases effect with
  | registers cmd => exact absurd (.tail _ before) after
  | @unlinks deleter cur free mem zero =>
    by_cases same : e = cur
    · exact same ▸ zero
    · exact absurd ((List.mem_erase_of_ne same).mpr before) after
  | nothing => exact absurd before after
  | frees held => exact absurd before after
  | enqueues mem here => exact absurd before after
  | dequeues idle first => exact absurd before after
  | completes held here => exact absurd before after

theorem Effect.freed {t : Server} (h : Counted s) (effect : Effect s t) {e : ℕ}
    (before : s.exports e ≠ none) (after : t.exports e = none) : s.refs e = 0 := by
  cases effect with
  | @frees deleter cur held =>
    by_cases same : e = cur
    · have mem : (deleter, cur) ∈ s.unlinked := (perm_of_lookup h.deleters held).mem_iff.mpr (.head _)
      exact same ▸ refs_unlinked h (h.apart _ mem).1
    · exact absurd ((Function.update_of_ne same _ _).symm.trans after) before
  | registers cmd =>
    by_cases same : e = s.nextExport
    · subst same
      simp [regcommand] at after
    · exact absurd ((Function.update_of_ne same _ _).symm.trans after) before
  | @enqueues cur c mem here =>
    by_cases same : e = cur
    · subst same
      simp at after
    · exact absurd ((Function.update_of_ne same _ _).symm.trans after) before
  | @completes drone me c held here =>
    by_cases same : e = me.cmd
    · subst same
      simp at after
    · exact absurd ((Function.update_of_ne same _ _).symm.trans after) before
  | nothing => exact absurd after before
  | unlinks free mem zero => exact absurd after before
  | dequeues idle first => exact absurd after before

theorem counted_run {actions : List Action} (reached : run step stopped actions = some s) : Counted s :=
  run_invariant (fun _ _ _ h next => h.effect (step_effect h next)) counted_stopped reached

/-- In every state that any interleaving leads to, the counts are right, what a
step unlinks or frees nobody refers to, nothing freed is referred to or used,
and every ticket is either in the queue or has been taken from it, once. -/
theorem references_counted (actions : List Action) (s : Server)
    (reached : run step stopped actions = some s) :
    (∀ e c, s.exports e = some c → c.refcount = s.refs e) ∧
    (∀ a t, step s a = some t → ∀ e, (e ∈ s.cmdtable → e ∉ t.cmdtable → s.refs e = 0) ∧
      (s.exports e ≠ none → t.exports e = none → s.refs e = 0)) ∧
    (∀ e, s.exports e = none → s.refs e = 0) ∧ s.wild = false ∧
    s.tickets.Perm (List.range s.nextTicket) ∧ s.tickets.Nodup ∧
    (∀ p ∈ s.running, (p.1, p.2.ticket) ∈ s.taken) := by
  have h := counted_run reached
  refine ⟨h.counts, fun a t next e => ?_, fun e gone => refs_unlinked h fun mem => ?_, h.tame, h.tickets,
    h.tickets.nodup_iff.mpr (List.nodup_range), h.drawn⟩
  · have effect := step_effect h next
    exact ⟨effect.unlinked, effect.freed h⟩
  · obtain ⟨c, here⟩ := h.present e mem
    simp [gone] at here

/-- Two commands of one name, the later one scheduled twice; a deleter waits for
the drone that runs it. -/
def busyRun : List Action :=
  [.regcommand ['c'] true, .regcommand ['c'] true, .schedule ['c'] true, .schedule ['c'] true,
    .dequeue 0, .pass 0 ['c'], .complete 0]

def busyState : Server := (run step stopped busyRun).getD stopped

theorem references_counted_busy :
    busyState.refs 1 = 1 ∧ (∀ e c, busyState.exports e = some c → c.refcount = busyState.refs e) :=
  ⟨by decide +kernel, (references_counted busyRun busyState rfl).1⟩

end Libdank.CtlServer
