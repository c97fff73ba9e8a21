import Libdank.PatriciaTrie.Operations
import Mathlib.Data.List.GetD

/-! Looking up plain keys. A well-formed trie is read as a map from keys to
objects, and every call of `addLrupat` changes that map at its own key or, if
it fails, not at all: decaying a tail moves a key without losing it. -/
namespace Libdank.PatriciaTrie
open Requests

variable {α : Type}

/-- A node with a nonempty tail has no children. -/
def WellFormed : Lpatnode α → Prop
  | .null => True
  | .node arr _ patstr =>
    (∀ c p, patstr = some (c :: p) → arr = noChildren) ∧ ∀ x, WellFormed (arr x)

def Shallow (patstr : Option Key) : Prop := patstr = none ∨ patstr = some []

def Open (lps : Lpatnode α) : Prop :=
  ∃ arr obj patstr, lps = .node arr obj patstr ∧ Shallow patstr

def lookup (key : Key) (lps : Lpatnode α) : Option (Pointer α) := lookupLrupatHelper id 0 key lps

theorem wellFormed_noChildren (x : UInt8) : WellFormed (noChildren x : Lpatnode α) := trivial

theorem wellFormed_update {arr : UInt8 → Lpatnode α} (children : ∀ x, WellFormed (arr x))
    (c : UInt8) {below : Lpatnode α} (new : WellFormed below) (x : UInt8) :
    WellFormed (Function.update arr c below x) := by
  rcases eq_or_ne x c with rfl | other
  · simpa using new
  · simpa [other] using children x

@[simp] theorem lookup_null (key : Key) : lookup key (.null : Lpatnode α) = none := by
  cases key <;> rfl

theorem tailMatches_iff {key : Key} (nul : 0 ∉ key) (patstr : Option Key) :
    tailMatches id 0 key patstr = true ↔ patstr = some key := by
  cases patstr with
  | none => simp [tailMatches]
  | some p =>
    simp only [tailMatches, List.map_id, Bool.and_eq_true, beq_iff_eq, Option.some.injEq]
    constructor
    · rintro ⟨front, stop⟩
      have short : key.length ≤ p.length := by
        by_contra long
        rw [List.getD_eq_getElem _ _ (not_le.mp long)] at stop
        exact nul (stop ▸ List.getElem_mem _)
      rw [← front, List.take_of_length_le short]
    · rintro rfl
      simp

theorem lookup_nil (arr : UInt8 → Lpatnode α) (obj : Pointer α) (patstr : Option Key) :
    lookup [] (.node arr obj patstr) = if patstr = some [] then some obj else none := by
  simp only [lookup, lookupLrupatHelper, tailMatches_iff List.not_mem_nil]

theorem lookup_cons {c : UInt8} {rest : Key} (nul : 0 ∉ c :: rest) (arr : UInt8 → Lpatnode α)
    (obj : Pointer α) (patstr : Option Key) :
    lookup (c :: rest) (.node arr obj patstr) =
      if patstr = some (c :: rest) then some obj else lookup rest (arr c) := by
  have live : c ≠ 0 := fun zero => nul (by simp [zero])
  simp only [lookup, lookupLrupatHelper, tailMatches_iff nul, if_pos live, id]

theorem lookup_tail {key : Key} (nul : 0 ∉ key) (obj : Pointer α) (p : Key) :
    lookup key (.node noChildren obj (some p)) = if key = p then some obj else none := by
  cases key with
  | nil => simp only [lookup_nil, Option.some.injEq, eq_comm]
  | cons c rest =>
    simp only [lookup_cons nul, noChildren, lookup_null, Option.some.injEq, eq_comm]

theorem lookup_open {c : UInt8} {rest : Key} (nul : 0 ∉ c :: rest) (arr : UInt8 → Lpatnode α)
    (obj : Pointer α) {patstr : Option Key} (shallow : Shallow patstr) :
    lookup (c :: rest) (.node arr obj patstr) = lookup rest (arr c) := by
  rw [lookup_cons nul, if_neg]
  rcases shallow with rfl | rfl <;> simp

/-- A trie with `key` bound to `obj` if it has been stored, and otherwise as
`old`. -/
def Extends (stored : Bool) (key : Key) (obj : Pointer α)
    (old new : Lpatnode α) : Prop :=
  WellFormed new ∧ ∀ q, 0 ∉ q → lookup q new = if stored = true ∧ q = key then some obj else lookup q old

theorem extends_refl {lps : Lpatnode α} (wf : WellFormed lps) (key : Key) (obj : Pointer α) :
    Extends false key obj lps lps :=
  ⟨wf, fun q _ => by simp⟩

section Rules
variable {fold : UInt8 → UInt8}

theorem ensures_some {β : Type} {m : Request Bool} {yes : Request (Option β)} {P : β → Prop}
    (goes : Ensures (fun _ => True) yes (fun r _ => ∀ b, r = some b → P b)) :
    Ensures (fun _ => True) (do if ← m then yes else pure none) (fun r _ => ∀ b, r = some b → P b) :=
  ensures_bind (ensures_true _) fun _ =>
    ensures_ite (fun _ => goes) fun _ => ensures_pure fun _ _ _ same => nomatch same

/-- What holds of the last node of a chain, and goes up from link to link, holds of the chain. -/
theorem decayChain_rule {P : Key → Lpatnode α → Prop} {obj : Pointer α}
    (last : P [] (.node noChildren obj (some [])))
    (link : ∀ c suffix below, P suffix below →
      P (c :: suffix) (.node (Function.update noChildren (fold c) below) none none))
    (suffix : Key) : Ensures (fun _ => True) (decayChain fold obj suffix)
      (fun r _ => ∀ next, r = some next → P suffix next) := by
  induction suffix with
  | nil => exact ensures_some (ensures_pure fun _ _ _ same => Option.some.inj same ▸ last)
  | cons c suffix ih =>
    refine ensures_some (ensures_bind ih fun below => ?_)
    cases below with
    | none => exact ensures_pure fun h _ next same => nomatch same
    | some below =>
      refine ensures_pure fun h here next same => ?_
      exact Option.some.inj same ▸ link c suffix below (here below rfl)

theorem makeRoom_rule {P : Lpatnode α → Prop} {post : Added α → Prop} {arr : UInt8 → Lpatnode α}
    {obj : Pointer α} {c : UInt8} {p : Key}
    (decay : Ensures (fun _ => True) (decayChain fold obj (c :: p))
      (fun r _ => ∀ next, r = some next → P next)) (lp : Upkeep α)
    (kept : post ⟨lp, false, .node arr obj (some (c :: p))⟩)
    (chain : ∀ head, P head → post ⟨{ lp with detached := lp.detached + 1 }, true, head⟩) :
    Ensures (fun _ => True) (makeRoom fold lp (.node arr obj (some (c :: p)))) (fun r _ => post r) := by
  have decayed : Ensures (fun _ => True) (decayLrupatTail fold (.node arr obj (some (c :: p))))
      (fun r _ => ∀ next, r = some next → P next) := ensures_some decay
  refine ensures_bind decayed fun r => ?_
  cases r with
  | none => exact ensures_pure fun h _ => kept
  | some head => exact ensures_pure fun h here => chain head (here head rfl)

theorem lpatchainNew_rule {P : Lpatnode α → Prop} {key : Key} {obj : Pointer α}
    (made : P (.node noChildren obj (some (key.map fold)))) :
    Ensures (fun _ => True) (lpatchainNew fold key obj) (fun r _ => ∀ lps, r = some lps → P lps) :=
  ensures_some (ensures_some (ensures_pure fun _ _ _ same => Option.some.inj same ▸ made))

end Rules

theorem decayChain_extends (obj : Pointer α) (suffix : Key) :
    Ensures (fun _ => True) (decayChain id obj suffix) (fun r _ => ∀ next, r = some next →
      Extends true suffix obj .null next ∧ Open next) := by
  apply decayChain_rule (P := fun suffix next => Extends true suffix obj .null next ∧ Open next)
  · refine ⟨⟨⟨by simp, wellFormed_noChildren⟩, fun q nul => ?_⟩, _, _, _, rfl, .inr rfl⟩
    simp [lookup_tail nul]
  · rintro c suffix below ⟨⟨wf, reads⟩, -⟩
    refine ⟨⟨⟨by simp, wellFormed_update wellFormed_noChildren c wf⟩, fun q nul => ?_⟩,
      _, _, _, rfl, .inl rfl⟩
    cases q with
    | nil => simp [lookup_nil]
    | cons x rest =>
      rw [lookup_open nul _ _ (.inl rfl)]
      rcases eq_or_ne x c with rfl | other
      · simp [reads rest (fun mem => nul (List.mem_cons_of_mem _ mem))]
      · simp [other, noChildren]

/-- Making room changes no lookup, and if it succeeds the node is open. -/
theorem makeRoom_preserves (lp : Upkeep α) {lps : Lpatnode α} (wf : WellFormed lps)
    (live : lps ≠ .null) :
    Ensures (fun _ => True) (makeRoom id lp lps) (fun r _ => WellFormed r.lps ∧
      (∀ q, 0 ∉ q → lookup q r.lps = lookup q lps) ∧ (r.ok = true → Open r.lps)) := by
  match lps, wf, live with
  | .node arr obj none, wf, _ =>
    exact ensures_pure fun h _ => ⟨wf, fun _ _ => rfl, fun _ => ⟨_, _, _, rfl, .inl rfl⟩⟩
  | .node arr obj (some []), wf, _ =>
    exact ensures_pure fun h _ => ⟨wf, fun _ _ => rfl, fun _ => ⟨_, _, _, rfl, .inr rfl⟩⟩
  | .node arr obj (some (c :: p)), wf, _ =>
    have leaf : arr = noChildren := wf.1 c p rfl
    subst leaf
    apply makeRoom_rule (decayChain_extends obj (c :: p))
    · exact ⟨wf, fun _ _ => rfl, nofun⟩
    · rintro head ⟨⟨wf', reads⟩, isOpen⟩
      refine ⟨wf', fun q nul => ?_, fun _ => isOpen⟩
      simp [reads q nul, lookup_tail nul]

theorem lpatchainNew_extends (key : Key) (obj : Pointer α) :
    Ensures (fun _ => True) (lpatchainNew id key obj)
      (fun r _ => ∀ lps, r = some lps → Extends true key obj .null lps) := by
  apply lpatchainNew_rule
  rw [List.map_id]
  exact ⟨⟨fun _ _ _ => rfl, wellFormed_noChildren⟩, fun q nul => by simp [lookup_tail nul]⟩

theorem Extends.of_same {stored : Bool} {key : Key} {obj : Pointer α}
    {old mid new : Lpatnode α} (h : Extends stored key obj mid new)
    (same : ∀ q, 0 ∉ q → lookup q mid = lookup q old) : Extends stored key obj old new :=
  ⟨h.1, fun q nul => by rw [h.2 q nul, same q nul]⟩

theorem extends_child {stored : Bool} {c : UInt8} {rest : Key} {obj old : Pointer α}
    {arr : UInt8 → Lpatnode α} {patstr : Option Key} {below : Lpatnode α}
    (wf : WellFormed (.node arr old patstr)) (shallow : Shallow patstr)
    (h : Extends stored rest obj (arr c) below) :
    Extends stored (c :: rest) obj (.node arr old patstr)
      (.node (Function.update arr c below) old patstr) := by
  refine ⟨⟨?_, wellFormed_update wf.2 c h.1⟩, fun q nul => ?_⟩
  · rintro x p rfl
    simp [Shallow] at shallow
  · cases q with
    | nil => simp [lookup_nil]
    | cons x q =>
      rw [lookup_open nul _ _ shallow, lookup_open nul _ _ shallow]
      have nul' : 0 ∉ q := fun mem => nul (List.mem_cons_of_mem _ mem)
      rcases eq_or_ne x c with rfl | other
      · simp [h.2 q nul']
      · simp [other]

theorem extends_here {obj old : Pointer α} {arr : UInt8 → Lpatnode α} {patstr : Option Key}
    (wf : WellFormed (.node arr old patstr)) (shallow : Shallow patstr) :
    Extends true [] obj (.node arr old patstr) (.node arr obj (some [])) := by
  refine ⟨⟨by simp, wf.2⟩, fun q nul => ?_⟩
  cases q with
  | nil => simp [lookup_nil]
  | cons x q => simp [lookup_open nul _ _ shallow, lookup_open nul arr obj (.inr rfl)]

theorem addLrupatHelper_null (key : Key) (obj : Pointer α) (lp : Upkeep α) :
    Ensures (fun _ => True) (addLrupatHelper id lp .null key obj)
      (fun r _ => Extends r.ok key obj .null r.lps) := by
  unfold addLrupatHelper
  refine ensures_bind (lpatchainNew_extends key obj) fun r h here => ?_
  cases r with
  | none => exact @extends_refl α .null trivial key obj
  | some lps => exact here lps rfl

theorem addLrupatHelper_extends (key : Key) (obj : Pointer α) (lp : Upkeep α)
    (lps : Lpatnode α) (wf : WellFormed lps) :
    Ensures (fun _ => True) (addLrupatHelper id lp lps key obj)
      (fun r _ => Extends r.ok key obj lps r.lps) := by
  induction key generalizing lp lps with
  | nil =>
    cases lps with
    | null => exact addLrupatHelper_null [] obj lp
    | node arr old patstr =>
      unfold addLrupatHelper
      refine ensures_bind (ensures_true _) fun ok => ensures_ite (fun _ => ?_)
        (fun _ => ensures_pure fun h _ => extends_refl wf _ _)
      refine ensures_bind (makeRoom_preserves lp wf nofun) fun ⟨up, ok, lps⟩ h here => ?_
      obtain ⟨wf', same, isOpen⟩ := here
      cases ok with
      | false => exact (extends_refl wf' _ _).of_same same
      | true =>
        obtain ⟨arr, old, patstr, rfl, shallow⟩ := isOpen rfl
        exact (extends_here wf' shallow).of_same same
  | cons c rest ih =>
    cases lps with
    | null => exact addLrupatHelper_null (c :: rest) obj lp
    | node arr old patstr =>
      unfold addLrupatHelper
      refine ensures_bind (makeRoom_preserves lp wf nofun) fun ⟨up, ok, lps⟩ h here => ?_
      obtain ⟨wf', same, isOpen⟩ := here
      cases ok with
      | false => exact (extends_refl wf' _ _).of_same same
      | true =>
        obtain ⟨arr, old, patstr, rfl, shallow⟩ := isOpen rfl
        have below := ih up (arr c) (wf'.2 c) h trivial
        exact (extends_child wf' shallow below).of_same same

def addAll (lp : Lrupat α) :
    List (Key × Pointer α) → Request (Lrupat α × List (Key × Pointer α))
  | [] => pure (lp, [])
  | (key, obj) :: rest => do
    let (ok, lp) ← addLrupat lp key obj
    let (lp, stored) ← addAll lp rest
    pure (lp, if ok then (key, obj) :: stored else stored)

def latest (stored : List (Key × Pointer α)) (key : Key) : Option (Pointer α) :=
  (stored.reverse.find? fun entry => entry.1 = key).map Prod.snd

theorem latest_append (stored : List (Key × Pointer α)) (key q : Key) (obj : Pointer α) :
    latest (stored ++ [(key, obj)]) q = if q = key then some obj else latest stored q := by
  by_cases same : q = key
  · simp [latest, same]
  · simp [latest, same, Ne.symm same]

def Represents (stored : List (Key × Pointer α)) (lp : Lrupat α) : Prop :=
  WellFormed lp.nodes ∧ ∀ q, 0 ∉ q → lookup q lp.nodes = latest stored q

theorem addLrupat_extends (lp : Lrupat α) (wf : WellFormed lp.nodes) (key : Key)
    (obj : Pointer α) :
    Ensures (fun _ => True) (addLrupat lp key obj)
      (fun r _ => Extends r.1 key obj lp.nodes r.2.nodes) :=
  ensures_bind (addLrupatHelper_extends key obj lp.toUpkeep lp.nodes wf)
    fun _ => ensures_pure fun _ here => here

theorem Represents.extend {stored : List (Key × Pointer α)} {lp lp' : Lrupat α} {ok : Bool}
    {key : Key} {obj : Pointer α} (rep : Represents stored lp)
    (h : Extends ok key obj lp.nodes lp'.nodes) :
    Represents (stored ++ if ok then [(key, obj)] else []) lp' := by
  refine ⟨h.1, fun q nul => ?_⟩
  rw [h.2 q nul, rep.2 q nul]
  cases ok with
  | false => simp
  | true => simp [latest_append]

theorem addAll_represents (adds stored : List (Key × Pointer α)) (lp : Lrupat α)
    (rep : Represents stored lp) :
    Ensures (fun _ => True) (addAll lp adds) (fun r _ => Represents (stored ++ r.2) r.1) := by
  induction adds generalizing stored lp with
  | nil =>
    refine ensures_pure fun h _ => ?_
    rwa [List.append_nil]
  | cons entry rest ih =>
    obtain ⟨key, obj⟩ := entry
    refine ensures_bind (addLrupat_extends lp rep.1 key obj) fun ⟨ok, lp'⟩ h here => ?_
    have later : Ensures (fun _ => True) (addAll lp' rest >>= fun r =>
        pure (r.1, if ok then (key, obj) :: r.2 else r.2))
        (fun r _ => Represents (stored ++ r.2) r.1) := by
      refine ensures_bind (ih _ lp' (rep.extend here)) fun r => ensures_pure fun h here => ?_
      cases ok with
      | false => simpa using here
      | true => simpa using here
    exact later h trivial

theorem createLrupat_represents (nwatchcb : Bool) :
    Represents [] (createLrupat nwatchcb : Lrupat α) :=
  ⟨trivial, fun q _ => by simp [createLrupat, latest]⟩

end Libdank.PatriciaTrie
