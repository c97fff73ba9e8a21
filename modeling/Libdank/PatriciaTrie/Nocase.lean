import Libdank.PatriciaTrie.Lookup

/-! The operations that ignore letter case. They store every tail folded, and on
such a trie they are the plain operations on the folded key. -/
namespace Libdank.PatriciaTrie
open Requests

variable {α : Type} {fold : UInt8 → UInt8}

/-- Every tail is one that `fold` leaves as it is. -/
def Folded (fold : UInt8 → UInt8) : Lpatnode α → Prop
  | .null => True
  | .node arr _ patstr => (∀ p, patstr = some p → p.map fold = p) ∧ ∀ x, Folded fold (arr x)

theorem folded_noChildren (x : UInt8) : Folded fold (noChildren x : Lpatnode α) := trivial

theorem folded_update {arr : UInt8 → Lpatnode α} (children : ∀ x, Folded fold (arr x))
    (c : UInt8) {below : Lpatnode α} (new : Folded fold below) (x : UInt8) :
    Folded fold (Function.update arr c below x) := by
  rcases eq_or_ne x c with rfl | other
  · simpa using new
  · simpa [other] using children x

theorem decayChain_fold (obj : Pointer α) {suffix : Key} (plain : suffix.map fold = suffix) :
    decayChain fold obj suffix = decayChain id obj suffix := by
  induction suffix with
  | nil => rfl
  | cons c suffix ih =>
    obtain ⟨same, plain⟩ := List.cons.inj plain
    simp only [decayChain, ih plain, same, id]

theorem decayChain_folded (obj : Pointer α) (suffix : Key) :
    Ensures (fun _ => True) (decayChain id obj suffix)
      (fun r _ => ∀ next, r = some next → Folded fold next) := by
  apply decayChain_rule (P := fun _ next => Folded fold next)
  · refine ⟨fun p tail => ?_, folded_noChildren⟩
    obtain rfl := Option.some.inj tail
    rfl
  · intro c suffix below folded
    exact ⟨nofun, folded_update folded_noChildren _ folded⟩

theorem makeRoom_fold (lp : Upkeep α) {lps : Lpatnode α} (folded : Folded fold lps) :
    makeRoom fold lp lps = makeRoom id lp lps := by
  match lps, folded with
  | .null, _ | .node _ _ none, _ | .node _ _ (some []), _ => rfl
  | .node arr obj (some (c :: p)), folded =>
    simp only [makeRoom, decayLrupatTail, decayChain_fold obj (folded.1 _ rfl)]

theorem makeRoom_folded (lp : Upkeep α) {lps : Lpatnode α} (folded : Folded fold lps) :
    Ensures (fun _ => True) (makeRoom id lp lps) (fun r _ => Folded fold r.lps) := by
  match lps, folded with
  | .null, folded | .node _ _ none, folded | .node _ _ (some []), folded =>
    exact ensures_pure fun h _ => folded
  | .node arr obj (some (c :: p)), folded =>
    exact makeRoom_rule (decayChain_folded obj (c :: p)) lp folded fun head here => here

theorem lpatchainNew_fold (key : Key) (obj : Pointer α) :
    lpatchainNew fold key obj = lpatchainNew id (key.map fold) obj := by
  simp only [lpatchainNew, strdup, List.length_map, List.map_id]

theorem lpatchainNew_folded (idem : ∀ c, fold (fold c) = fold c) (key : Key) (obj : Pointer α) :
    Ensures (fun _ => True) (lpatchainNew fold key obj)
      (fun r _ => ∀ lps, r = some lps → Folded fold lps) := by
  apply lpatchainNew_rule
  refine ⟨fun p tail => ?_, folded_noChildren⟩
  obtain rfl := Option.some.inj tail
  simp [idem]

theorem addLrupatHelper_folded (idem : ∀ c, fold (fold c) = fold c) (key : Key) (obj : Pointer α)
    (lp : Upkeep α) {lps : Lpatnode α} (folded : Folded fold lps) :
    Ensures (fun _ => True) (addLrupatHelper id lp lps (key.map fold) obj)
      (fun r _ => Folded fold r.lps) := by
  have fresh (key : Key) (lp : Upkeep α) : Ensures (fun _ => True)
      (addLrupatHelper id lp .null (key.map fold) obj) (fun r _ => Folded fold r.lps) := by
    unfold addLrupatHelper
    rw [← lpatchainNew_fold]
    refine ensures_bind (lpatchainNew_folded idem key obj) fun r h here => ?_
    cases r with
    | none => exact trivial
    | some lps => exact here lps rfl
  induction key generalizing lp lps with
  | nil =>
    cases lps with
    | null => exact fresh [] lp
    | node arr old patstr =>
      unfold addLrupatHelper
      refine ensures_bind (ensures_true _) fun ok => ensures_ite (fun _ => ?_)
        (fun _ => ensures_pure fun h _ => folded)
      refine ensures_bind (makeRoom_folded lp folded) fun q h here => ?_
      obtain ⟨up, ok, lps⟩ := q
      cases ok with
      | false => exact here
      | true =>
        cases lps with
        | null => exact here
        | node arr old patstr =>
          refine ⟨fun p tail => ?_, here.2⟩
          obtain rfl := Option.some.inj tail
          rfl
  | cons c rest ih =>
    cases lps with
    | null => exact fresh (c :: rest) lp
    | node arr old patstr =>
      unfold addLrupatHelper
      refine ensures_bind (makeRoom_folded lp folded) fun q h here => ?_
      obtain ⟨up, ok, lps⟩ := q
      cases ok with
      | false => exact here
      | true =>
        cases lps with
        | null => exact here
        | node arr old patstr =>
          exact ⟨here.1, folded_update here.2 _ (ih up (here.2 (fold c)) h trivial)⟩

theorem addLrupatHelper_fold (key : Key) (obj : Pointer α) (lp : Upkeep α) {lps : Lpatnode α}
    (folded : Folded fold lps) (h : Heap) :
    addLrupatHelper fold lp lps key obj h = addLrupatHelper id lp lps (key.map fold) obj h := by
  have fresh (key : Key) (lp : Upkeep α) : addLrupatHelper fold lp .null key obj =
      addLrupatHelper id lp .null (key.map fold) obj := by
    simp only [addLrupatHelper, lpatchainNew_fold key obj]
  induction key generalizing lp lps h with
  | nil =>
    cases lps with
    | null => rw [fresh]
    | node arr old patstr => simp only [List.map_nil, addLrupatHelper, makeRoom_fold lp folded]
  | cons c rest ih =>
    cases lps with
    | null => rw [fresh]
    | node arr old patstr =>
      simp only [List.map_cons, addLrupatHelper, makeRoom_fold lp folded, bind_apply]
      have room := makeRoom_folded lp folded h trivial
      generalize makeRoom id lp (.node arr old patstr) h = q at room ⊢
      obtain ⟨⟨up, ok, lps⟩, h'⟩ := q
      cases ok with
      | false => rfl
      | true =>
        cases lps with
        | null => rfl
        | node arr old patstr => simp only [bind_apply, id, ih up (room.2 (fold c)) h']

theorem addLrupatWith_fold (lp : Lrupat α) (folded : Folded fold lp.nodes) (key : Key)
    (obj : Pointer α) (h : Heap) :
    addLrupatWith fold lp key obj h = addLrupat lp (key.map fold) obj h := by
  simp only [addLrupatWith, addLrupat, bind_apply, addLrupatHelper_fold key obj lp.toUpkeep folded h]

theorem tailMatches_fold (zero : ∀ c, fold c = 0 ↔ c = 0) (key : Key) {patstr : Option Key}
    (plain : ∀ p, patstr = some p → p.map fold = p) :
    tailMatches fold 0 key patstr = tailMatches id 0 (key.map fold) patstr := by
  cases patstr with
  | none => rfl
  | some p =>
    have same : (key.map fold).getD p.length 0 = 0 ↔ key.getD p.length 0 = 0 := by
      simp only [List.getD_eq_getElem?_getD, List.getElem?_map]
      cases key[p.length]? with
      | none => rfl
      | some c => exact zero c
    simp only [tailMatches, plain p rfl, List.map_id, List.map_take, beq_eq_decide, same]

theorem lookupLrupatHelper_fold (zero : ∀ c, fold c = 0 ↔ c = 0) (key : Key) {lps : Lpatnode α}
    (folded : Folded fold lps) :
    lookupLrupatHelper fold 0 key lps = lookup (key.map fold) lps := by
  induction key generalizing lps with
  | nil =>
    cases lps with
    | null => rfl
    | node arr obj patstr =>
      simp only [lookup, List.map_nil, lookupLrupatHelper, tailMatches_fold zero [] folded.1]
  | cons c rest ih =>
    cases lps with
    | null => rfl
    | node arr obj patstr =>
      have live : fold c ≠ 0 ↔ c ≠ 0 := not_congr (zero c)
      simp only [lookup, List.map_cons, lookupLrupatHelper,
        tailMatches_fold zero (c :: rest) folded.1, live, ih (folded.2 (fold c)), id]

section served
variable (fold)

theorem strdup_served (text : Key) : Ensures Served (strdup text) (fun ok h => ok = true ∧ Served h) :=
  allocate_served (Nat.succ_ne_zero _)

theorem lpatchainNew_served (key : Key) (obj : Pointer α) :
    Ensures Served (lpatchainNew fold key obj) (fun r h => Served h ∧ r.isSome) := by
  refine ensures_granted request_served ?_
  exact ensures_granted (strdup_served key) (ensures_pure fun h hs => ⟨hs, rfl⟩)

theorem decayChain_served (obj : Pointer α) (suffix : Key) :
    Ensures Served (decayChain fold obj suffix)
      (fun r h => Served h ∧ ∃ arr old patstr, r = some (.node arr old patstr)) := by
  induction suffix with
  | nil => exact ensures_granted (strdup_served []) (ensures_pure fun h hs => ⟨hs, _, _, _, rfl⟩)
  | cons c suffix ih =>
    refine ensures_granted request_served fun h hs => ?_
    obtain ⟨served, arr, old, patstr, made⟩ := ih h hs
    simp only [bind_apply, made]
    exact ⟨served, _, _, _, rfl⟩

theorem makeRoom_served (lp : Upkeep α) {lps : Lpatnode α} (live : lps ≠ .null) :
    Ensures Served (makeRoom fold lp lps)
      (fun r h => Served h ∧ r.ok = true ∧ ∃ arr old patstr, r.lps = .node arr old patstr) := by
  match lps, live with
  | .node arr obj none, _ | .node arr obj (some []), _ =>
    exact ensures_pure fun h hs => ⟨hs, rfl, _, _, _, rfl⟩
  | .node arr obj (some (c :: p)), _ =>
    have decay : Ensures Served (decayLrupatTail fold (.node arr obj (some (c :: p))))
        (fun r h => Served h ∧ ∃ arr old patstr, r = some (.node arr old patstr)) :=
      ensures_granted request_served (decayChain_served fold obj (c :: p))
    intro h hs
    obtain ⟨served, arr', old, patstr, made⟩ := decay h hs
    simp only [makeRoom, bind_apply, made]
    exact ⟨served, rfl, _, _, _, rfl⟩

theorem addLrupatHelper_served (key : Key) (obj : Pointer α) (lp : Upkeep α) (lps : Lpatnode α) :
    Ensures Served (addLrupatHelper fold lp lps key obj) (fun r h => Served h ∧ r.ok = true) := by
  have fresh (key : Key) (lp : Upkeep α) : Ensures Served (addLrupatHelper fold lp .null key obj)
      (fun r h => Served h ∧ r.ok = true) := by
    unfold addLrupatHelper
    refine ensures_bind (lpatchainNew_served fold key obj) fun r h hs => ?_
    cases r with
    | none => exact absurd hs.2 (by simp)
    | some lps => exact ⟨hs.1, rfl⟩
  induction key generalizing lp lps with
  | nil =>
    cases lps with
    | null => exact fresh [] lp
    | node arr old patstr =>
      unfold addLrupatHelper
      refine ensures_granted (strdup_served []) ?_
      refine ensures_bind (@makeRoom_served α fold lp (.node arr old patstr) (by simp)) fun q h hs => ?_
      obtain ⟨up, ok, lps⟩ := q
      obtain ⟨served, rfl, arr, old, patstr, rfl⟩ := hs
      exact ⟨served, rfl⟩
  | cons c rest ih =>
    cases lps with
    | null => exact fresh (c :: rest) lp
    | node arr old patstr =>
      unfold addLrupatHelper
      refine ensures_bind (makeRoom_served fold lp (by simp)) fun q h hs => ?_
      obtain ⟨up, ok, lps⟩ := q
      obtain ⟨served, rfl, arr, old, patstr, rfl⟩ := hs
      exact ih up (arr (fold c)) h served

end served

def addAllNocase (lp : Lrupat α) :
    List (Key × Pointer α) → Request (Lrupat α × List (Key × Pointer α))
  | [] => pure (lp, [])
  | (key, obj) :: rest => do
    let (ok, lp) ← addLrupatNocase lp key obj
    let (lp, stored) ← addAllNocase lp rest
    pure (lp, if ok then (key, obj) :: stored else stored)

def latestNocase (stored : List (Key × Pointer α)) (key : Key) : Option (Pointer α) :=
  (stored.reverse.find? fun entry => entry.1.map tolower = key.map tolower).map Prod.snd

def foldEntry (entry : Key × Pointer α) : Key × Pointer α := (entry.1.map tolower, entry.2)

theorem latest_fold (stored : List (Key × Pointer α)) (key : Key) :
    latest (stored.map foldEntry) (key.map tolower) = latestNocase stored key := by
  simp only [latest, latestNocase, ← List.map_reverse, List.find?_map, Option.map_map]
  rfl

theorem tolower_tolower (c : UInt8) : tolower (tolower c) = tolower c := by
  unfold tolower
  grind

theorem tolower_eq_zero (c : UInt8) : tolower c = 0 ↔ c = 0 := by
  unfold tolower
  grind

theorem addLrupatNocase_folded (lp : Lrupat α) (folded : Folded tolower lp.nodes) (key : Key)
    (obj : Pointer α) : Ensures (fun _ => True) (addLrupatNocase lp key obj)
      (fun r _ => Folded tolower r.2.nodes) := by
  intro h _
  rw [addLrupatNocase, addLrupatWith_fold lp folded key obj h]
  exact addLrupatHelper_folded tolower_tolower key obj lp.toUpkeep folded h trivial

theorem addAllNocase_eq (adds : List (Key × Pointer α)) (lp : Lrupat α)
    (folded : Folded tolower lp.nodes) (h : Heap) :
    ((addAllNocase lp adds h).1.1, (addAllNocase lp adds h).1.2.map foldEntry) =
        (addAll lp (adds.map foldEntry) h).1 ∧ Folded tolower (addAllNocase lp adds h).1.1.nodes := by
  induction adds generalizing lp h with
  | nil => exact ⟨rfl, folded⟩
  | cons entry rest ih =>
    obtain ⟨key, obj⟩ := entry
    have here := addLrupatWith_fold lp folded key obj h
    have next := addLrupatNocase_folded lp folded key obj h trivial
    simp only [List.map_cons, addAllNocase, addLrupatNocase, addAll, foldEntry, bind_apply, pure_apply]
    rw [← here]
    change Folded tolower (addLrupatWith tolower lp key obj h).1.2.nodes at next
    obtain ⟨same, later⟩ := ih _ next (addLrupatWith tolower lp key obj h).2
    refine ⟨?_, later⟩
    rw [← same]
    cases (addLrupatWith tolower lp key obj h).1.1 <;> rfl

theorem addAllNocase_served (adds : List (Key × Pointer α)) (lp : Lrupat α) :
    Ensures Served (addAllNocase lp adds) (fun r _ => r.2 = adds) := by
  induction adds generalizing lp with
  | nil => exact ensures_pure fun h _ => rfl
  | cons entry rest ih =>
    obtain ⟨key, obj⟩ := entry
    intro h served
    obtain ⟨served, ok⟩ := addLrupatHelper_served tolower key obj lp.toUpkeep lp.nodes h served
    have tail := ih ⟨(addLrupatHelper tolower lp.toUpkeep lp.nodes key obj h).1.toUpkeep,
      (addLrupatHelper tolower lp.toUpkeep lp.nodes key obj h).1.lps⟩ _ served
    simp only [addAllNocase, addLrupatNocase, addLrupatWith, bind_apply, pure_apply, ok, if_true]
    rw [tail]

/-- After any run of adds that ignore case, a lookup that ignores case gives the
object of the latest add to have succeeded whose key differs in letter case at
most. If every request is served all of them succeed. -/
theorem adds_lookup_nocase (nwatchcb : Bool) (adds : List (Key × Pointer α)) (h : Heap) :
    let run := (addAllNocase (createLrupat nwatchcb) adds h).1
    (∀ key, 0 ∉ key → lookupLrupatNocase run.1 key = latestNocase run.2 key) ∧
      (Served h → run.2 = adds) := by
  obtain ⟨same, folded⟩ := addAllNocase_eq adds (createLrupat nwatchcb : Lrupat α) trivial h
  have rep := addAll_represents (adds.map foldEntry) [] (createLrupat nwatchcb)
    (createLrupat_represents nwatchcb) h trivial
  rw [← same] at rep
  refine ⟨fun key nul => ?_, addAllNocase_served adds _ h⟩
  have nul' : 0 ∉ key.map tolower := fun mem => by
    obtain ⟨c, there, zero⟩ := List.mem_map.mp mem
    exact nul ((tolower_eq_zero c).mp zero ▸ there)
  rw [← latest_fold, lookupLrupatNocase, lookupLrupatHelper_fold tolower_eq_zero key folded]
  exact rep.2 _ nul'

/-- The tail of "aB" decayed by "A", which "a" overwrites. -/
theorem adds_lookup_nocase_mixed :
    let run := (addAllNocase (createLrupat true)
      [([97, 66], some 1), ([65], some 2), ([97], some 3)] ⟨[], false⟩).1
    lookupLrupatNocase run.1 [65] = some (some 3) ∧ lookupLrupatNocase run.1 [65, 98] = some (some 1) := by
  have run := adds_lookup_nocase true [([97, 66], some 1), ([65], some 2), ([97], some 3)] ⟨[], false⟩
  exact ⟨(run.1 [65] (by decide)).trans (by decide), (run.1 [65, 98] (by decide)).trans (by decide)⟩

end Libdank.PatriciaTrie
