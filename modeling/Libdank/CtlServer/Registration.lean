import Libdank.CtlServer.Operations

/-! Registering several commands, all of them or none. The last one registered is the first of
the table, so that it is the one found by its name when they are taken back. -/
namespace Libdank.CtlServer
open Parse

/-- The table is that of `s`, and so are the `export_cmd`s that `s` has allocated. -/
structure Restored (s t : Server) : Prop where
  cmdtable : t.cmdtable = s.cmdtable
  exports : ∀ cur < s.nextExport, t.exports cur = s.exports cur
  nextExport : s.nextExport ≤ t.nextExport
  wild : t.wild = s.wild

theorem Restored.refl (s : Server) : Restored s s := ⟨rfl, fun _ _ => rfl, le_rfl, rfl⟩

theorem lookup_front {s : Server} {cmd : Text} {cur : ℕ} {table : List ℕ}
    (front : s.cmdtable = cur :: table) (here : s.exports cur = some ⟨0, cmd⟩) : s.lookup cmd = some cur := by
  rw [Server.lookup, front]
  exact List.find?_cons_of_pos (by simp [Server.named, here])

theorem delcommand_front {s : Server} {cmd : Text} {cur : ℕ} {table : List ℕ}
    (front : s.cmdtable = cur :: table) (here : s.exports cur = some ⟨0, cmd⟩) :
    delcommand s cmd = some (true, { s with
      cmdtable := table, exports := Function.update s.exports cur none }) := by
  have pass : delcommandPass s cmd = (.extracted cur, { s with cmdtable := table }) := by
    rw [delcommandPass, lookup_front front here]
    dsimp only
    rw [if_pos (by simp [here]), front, List.erase_cons_head]
  rw [delcommand, pass]
  simp [here]

theorem delcommand_restored {s t : Server} {cmd : Text} (restored : Restored (regcommand s cmd true) t) :
    ∃ u, delcommand t cmd = some (true, u) ∧ Restored s u := by
  have front : t.cmdtable = s.nextExport :: s.cmdtable := restored.cmdtable
  have here : t.exports s.nextExport = some ⟨0, cmd⟩ := by
    rw [restored.exports _ (Nat.lt_succ_self s.nextExport)]
    exact Function.update_self _ _ _
  refine ⟨_, delcommand_front front here, rfl, fun cur before => ?_, ?_, restored.wild⟩
  · change Function.update t.exports s.nextExport none cur = s.exports cur
    rw [Function.update_of_ne before.ne, restored.exports _ (before.trans (Nat.lt_succ_self _))]
    exact Function.update_of_ne before.ne _ _
  · exact (Nat.le_succ _).trans restored.nextExport

/-- Either all are registered, or those that were are taken back. -/
theorem regcommandsFrom_cases (s : Server) (registered : List Text) (cmds : List (Text × Bool)) :
    ((∀ c ∈ cmds, c.2 = true) ∧ ∃ t, regcommandsFrom s registered cmds = some (true, t)) ∨
    ((∃ c ∈ cmds, c.2 = false) ∧ ∃ t, Restored s t ∧
      regcommandsFrom s registered cmds = (unregister t registered).map fun t => (false, t)) := by
  induction cmds generalizing s registered with
  | nil => exact Or.inl ⟨fun c none_ => absurd none_ List.not_mem_nil, s, rfl⟩
  | cons c cmds ih =>
    obtain ⟨cmd, able⟩ := c
    cases able with
    | false => exact Or.inr ⟨⟨(cmd, false), List.mem_cons_self, rfl⟩, s, Restored.refl s, rfl⟩
    | true =>
      rcases ih (regcommand s cmd true) (cmd :: registered) with
        ⟨able, t, all⟩ | ⟨⟨c, mem, unable⟩, t, restored, undone⟩
      · exact Or.inl ⟨List.forall_mem_cons.mpr ⟨rfl, able⟩, t, all⟩
      · obtain ⟨u, deleted, restored'⟩ := delcommand_restored restored
        refine Or.inr ⟨⟨c, List.mem_cons_of_mem _ mem, unable⟩, u, restored', ?_⟩
        rw [regcommandsFrom, if_pos rfl, undone, unregister, deleted]
        rfl

/-- The call returns, with a failure just where there is no memory for one of the commands; the
table has then the entries that it had before, in the same order. -/
theorem regcommands_restores (s : Server) (allocated : ∀ cur ∈ s.cmdtable, cur < s.nextExport)
    (cmds : List (Text × Bool)) :
    ∃ ok t, regcommands s cmds = some (ok, t) ∧ (ok = false ↔ ∃ c ∈ cmds, c.2 = false) ∧
      (ok = false → t.cmdtable = s.cmdtable ∧ ∀ cur ∈ s.cmdtable, t.exports cur = s.exports cur) := by
  rcases regcommandsFrom_cases s [] cmds with ⟨able, t, all⟩ | ⟨unable, t, restored, undone⟩
  · refine ⟨true, t, all, iff_of_false Bool.false_ne_true.symm ?_, Bool.false_ne_true.symm.elim⟩
    rintro ⟨c, mem, unable⟩
    rw [able c mem] at unable
    cases unable
  · exact ⟨false, t, undone, iff_of_true rfl unable, fun _ =>
      ⟨restored.cmdtable, fun cur mem => restored.exports cur (allocated cur mem)⟩⟩

def twins : Server :=
  { stopped with
    exports := fun cur => if cur < 2 then some ⟨0, ['a']⟩ else none
    cmdtable := [1, 0]
    nextExport := 2 }

theorem regcommands_restores_twins :
    ∃ ok t, regcommands twins [(['a'], true), (['b'], true), (['a'], false)] = some (ok, t) ∧
      (ok = false ↔ ∃ c ∈ [((['a'], true) : Text × Bool), (['b'], true), (['a'], false)], c.2 = false) ∧
      (ok = false → t.cmdtable = twins.cmdtable ∧
        ∀ cur ∈ twins.cmdtable, t.exports cur = twins.exports cur) :=
  regcommands_restores twins (by decide) [(['a'], true), (['b'], true), (['a'], false)]

end Libdank.CtlServer
