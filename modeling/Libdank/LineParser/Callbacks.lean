import Libdank.LineParser.Delivery

/-! What `parser_byline` makes of a file: the callback is given one line after the other. -/
namespace Libdank.LineParser
open Buffers Requests

section Byline
variable {σ : Type} (junk : ℕ → UInt8) (bufsiz : ℕ)

abbrev LineParserCb (σ : Type) := σ → Bytes → Bool × σ

variable (lcb : LineParserCb σ)

def bylineLoop : ℕ → LineParserCtx → File → σ → Request (Bool × σ)
  | 0, _, _, arg => pure (false, arg)
  | calls + 1, ctx, fd, arg => do
    let (line, ctx, fd) ← lineParserNext junk bufsiz ctx fd
    match line with
    | .line text =>
      let (ok, arg) := lcb arg text
      if ok then bylineLoop calls ctx fd arg else pure (false, arg)
    | .eof => pure (true, arg)
    | .failed => pure (false, arg)

def parserByline (calls : ℕ) (fd : File) (arg : σ) : Request (Bool × σ) := do
  match ← prepareLineParser junk bufsiz with
  | some ctx => bylineLoop junk bufsiz lcb calls ctx fd arg
  | none => pure (false, arg)

/-- The callback applied to lines in their order, as far as the first that it fails at. -/
def apply : σ → List Bytes → Bool × σ
  | arg, [] => (true, arg)
  | arg, line :: lines => if (lcb arg line).1 then apply (lcb arg line).2 lines else (false, (lcb arg line).2)

variable {lcb} {ctx : LineParserCtx} {fd : File}

theorem bylineLoop_finished (calls : ℕ) (h : Finished ctx) (arg : σ) :
    Ensures Served (bylineLoop junk bufsiz lcb (calls + 1) ctx fd arg) (fun r _ => r = (true, arg)) := by
  obtain ⟨count, ended⟩ := h
  have next : lineParserNext junk bufsiz ctx fd = pure (.eof, ctx, fd) := by
    rw [lineParserNext, nextLoop, if_neg (by simp [count, ended]), lastLine,
      if_neg fun both => both.1 count]
  rw [bylineLoop, next]
  exact fun s hs => rfl

theorem gives_applied {keep : List Bytes} {stale : Prop} {n calls : ℕ}
    (later : ∀ ctx fd text arg, Window ctx fd text → (text.drop ctx.base).length + 1 < calls →
      ¬ Stale bufsiz ctx.total text → Ensures Served (bylineLoop junk bufsiz lcb calls ctx fd arg) (fun r _ =>
        r = apply lcb arg (keptLines (text.drop ctx.base))))
    {q : NextLine × LineParserCtx × File} (gives : Gives bufsiz keep stale n q) (sound : ¬ stale)
    (lt : n < calls) (arg : σ) :
    Ensures Served (match q.1 with
      | .line text =>
        let (ok, arg) := lcb arg text
        if ok then bylineLoop junk bufsiz lcb calls q.2.1 q.2.2 arg else pure (false, arg)
      | .eof => pure (true, arg)
      | .failed => pure (false, arg)) (fun r _ => r = apply lcb arg keep) := by
  obtain ⟨calls, rfl⟩ := Nat.exists_eq_add_one_of_ne_zero (Nat.ne_zero_of_lt lt)
  cases gives with
  | @line text ctx' fd' rest window lines same fewer =>
    rw [lines, apply]
    refine ensures_ite (fun ok => ?_) fun fails => ?_
    · rw [if_pos ok]
      exact later ctx' fd' rest _ window (by omega) (mt same.mpr sound)
    · rw [if_neg fails]
      exact ensures_pure fun _ _ => rfl
  | last finished lines sound' =>
    rw [lines, apply]
    refine ensures_ite (fun ok => ?_) fun fails => ?_
    · rw [if_pos ok]
      exact bylineLoop_finished junk bufsiz calls finished _
    · rw [if_neg fails]
      exact ensures_pure fun _ _ => rfl
  | spoilt finished lines bad longer => exact absurd bad sound
  | none lines sound' =>
    rw [lines]
    exact ensures_pure fun _ _ => rfl

theorem bylineLoop_exact (positive : 0 < bufsiz) (calls : ℕ) (ctx : LineParserCtx) (fd : File) (text : Bytes)
    (arg : σ) (h : Window ctx fd text) (enough : (text.drop ctx.base).length + 1 < calls)
    (sound : ¬ Stale bufsiz ctx.total text) :
    Ensures Served (bylineLoop junk bufsiz lcb calls ctx fd arg) (fun r _ =>
      r = apply lcb arg (keptLines (text.drop ctx.base))) := by
  induction calls generalizing ctx fd text arg with
  | zero => omega
  | succ calls ih =>
    refine ensures_bind (lineParserNext_gives junk bufsiz positive h) fun q s hs => ?_
    exact gives_applied junk bufsiz ih hs.2 sound (by omega) arg s hs.1

end Byline

theorem parserByline_exact {σ : Type} (junk : ℕ → UInt8) {bufsiz : ℕ} (large : 2 ≤ bufsiz)
    (lcb : LineParserCb σ) {text : Bytes} (nul : 0 ∉ text) (straight : backslash ∉ text)
    (sound : ¬ Stale bufsiz bufsiz text) {calls : ℕ} (enough : text.length + 2 < calls) (arg : σ) {h : Heap}
    (served : Served h) :
    (parserByline junk bufsiz lcb calls ⟨text, []⟩ arg h).1 = apply lcb arg (keptLines text) := by
  have run : Ensures Served (parserByline junk bufsiz lcb calls ⟨text, []⟩ arg)
      (fun r _ => r = apply lcb arg (keptLines text)) := by
    obtain ⟨calls, rfl⟩ : ∃ k, calls = k + 1 := ⟨calls - 1, by omega⟩
    refine ensures_bind (prepareLineParser_served junk (by omega)) fun r s hs => ?_
    obtain ⟨hs, rfl⟩ := hs
    have size : (regrow junk [] bufsiz).length = bufsiz := length_regrow junk [] (Nat.zero_le _)
    have lines : Ensures Served (bylineLoop junk bufsiz lcb (calls + 1)
        ⟨regrow junk [] bufsiz, 0, bufsiz, 0, false⟩ ⟨text, []⟩ arg)
        (fun r _ => r = apply lcb arg (keptLines text)) := by
      refine ensures_bind (lineParserNext_first junk bufsiz large ⟨nul, straight⟩ _ size) fun q t ht => ?_
      exact gives_applied junk bufsiz (fun ctx fd text arg window enough sound =>
        bylineLoop_exact junk bufsiz (by omega) calls ctx fd text arg window enough sound) ht.2 sound (by omega)
          arg t ht.1
    exact lines s hs
  exact run h served

end Libdank.LineParser
