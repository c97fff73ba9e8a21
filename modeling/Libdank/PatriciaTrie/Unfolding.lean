import Libdank.PatriciaTrie.Callbacks

/-! The tree that the pointers spell. Read from the root on, the nodes at their
addresses are a trie of the model without addresses, and it is read as a map from
keys to what was last stored under them. -/
namespace Libdank.PatriciaTrie.Pointers
open Requests Buffers SlabAllocator Walks

variable {w : ℕ} {α : Type} {place : ℕ → ℕ+} {fold : UInt8 → UInt8}
  {lp : Lrupat w α} {A : List ℕ} {path : ℕ → Key} {stored : List (Key × Pointer α)}

/-- From the pointer hangs this trie. -/
inductive Spells (lpatnodes : ℕ → Lpatnode α) : Pointer ℕ → PatriciaTrie.Lpatnode α → Prop
  | null : Spells lpatnodes none .null
  | node {a : ℕ} {arr : UInt8 → PatriciaTrie.Lpatnode α}
      (children : ∀ c, Spells lpatnodes ((lpatnodes a).arr c) (arr c)) :
      Spells lpatnodes (some a) (.node arr (lpatnodes a).obj (lpatnodes a).patstr)

theorem Linked.spells (linked : Linked lp A path) : ∃ t, Spells lp.lpatnodes lp.nodes t := by
  have below : ∀ n, ∀ a ∈ A, (A.map fun b => (path b).length).sum < (path a).length + n →
      ∃ t, Spells lp.lpatnodes (some a) t := by
    intro n
    induction n with
    | zero =>
      intro a ha short
      have longest := List.single_le_sum (by simp) _ (List.mem_map_of_mem ha (f := fun b => (path b).length))
      omega
    | succ n ih =>
      intro a ha short
      have children : ∀ c, ∃ t, Spells lp.lpatnodes ((lp.lpatnodes a).arr c) t := by
        intro c
        cases next : (lp.lpatnodes a).arr c with
        | none => exact ⟨.null, .null⟩
        | some b =>
          obtain ⟨hb, way⟩ := linked.child a ha c b next
          refine ih b hb ?_
          rw [way, List.length_append, List.length_singleton]
          omega
      choose arr spelled using children
      exact ⟨_, .node spelled⟩
  cases root : lp.nodes with
  | none => exact ⟨.null, .null⟩
  | some a => exact below ((A.map fun b => (path b).length).sum + 1) a (linked.root a root).1 (by omega)

theorem Spells.leaf (holders : Holders lp A path) {a : ℕ} (ha : a ∈ A) {c : UInt8} {p : Key}
    (held : (lp.lpatnodes a).patstr = some (c :: p)) {arr : UInt8 → PatriciaTrie.Lpatnode α}
    (children : ∀ x, Spells lp.lpatnodes ((lp.lpatnodes a).arr x) (arr x)) : arr = noChildren := by
  funext x
  have none : (lp.lpatnodes a).arr x = .none := holders.leaf a ha c p held x
  have child := children x
  rw [none] at child
  generalize arr x = t at child
  cases child
  rfl

theorem Spells.wellFormed (linked : Linked lp A path) (holders : Holders lp A path)
    {p : Pointer ℕ} {t : PatriciaTrie.Lpatnode α} (spelled : Spells lp.lpatnodes p t)
    (start : ∀ a ∈ p, a ∈ A) : WellFormed t := by
  induction spelled with
  | null => trivial
  | @node a arr children ih =>
    have ha := start a rfl
    exact ⟨fun c p held => Spells.leaf holders ha held children,
      fun x => ih x fun b hb => (linked.child a ha x b hb).1⟩

theorem Filed.at_tail (filed : Filed fold lp A path stored) (holders : Holders lp A path)
    {slot : Slot} {q : Key} (located : At lp A path slot q) {a : ℕ} (ha : a ∈ A) (way : path a = q)
    {c : UInt8} {p : Key} (held : (lp.lpatnodes a).patstr = some (c :: p)) (s : Key) :
    latest stored (q ++ s) = if s = c :: p then some (lp.lpatnodes a).obj else none := by
  split_ifs with own
  · rw [own, ← way]
    exact filed.entry a ha _ held
  · by_contra known
    obtain ⟨b, hb, r, held', same⟩ := filed.found _ known
    obtain ⟨u, below, rest⟩ := located.below holders hb held' same
    have reached := holders.reached b hb (by simp [held'])
    rw [below, ← way] at reached
    obtain ⟨rfl, rfl⟩ := holders.reach_leaf ha held (List.cons_ne_nil _ _) reached
    rw [held] at held'
    cases held'
    exact own rest.symm

theorem Spells.ends_or_inner (filed : Filed fold lp A path stored) (linked : Linked lp A path)
    (holders : Holders lp A path) {slot : Slot} {q : Key} (located : At lp A path slot q)
    {t : PatriciaTrie.Lpatnode α} (spelled : Spells lp.lpatnodes (lp.follow slot) t) :
    (∀ s, 0 ∉ s → lookup s t = latest stored (q ++ s)) ∨
      ∃ a arr, Inner lp A path a ∧ path a = q ∧
        t = .node arr (lp.lpatnodes a).obj (lp.lpatnodes a).patstr ∧
          ∀ c, Spells lp.lpatnodes ((lp.lpatnodes a).arr c) (arr c) := by
  generalize here : lp.follow slot = p at spelled
  cases spelled with
  | null => exact .inl fun s _ => by rw [lookup_null, filed.none_below holders located here]
  | @node a arr children =>
    obtain ⟨ha, way⟩ := located.label linked here
    have reached : lp.reach (path a) = some a := by rw [way, located.reach, here]
    match held : (lp.lpatnodes a).patstr with
    | none => exact .inr ⟨a, arr, ⟨ha, reached, .inl held⟩, way, by rw [held], children⟩
    | some [] => exact .inr ⟨a, arr, ⟨ha, reached, .inr held⟩, way, by rw [held], children⟩
    | some (c :: p) =>
      refine .inl fun s nul => ?_
      rw [Spells.leaf holders ha held children, lookup_tail nul,
        filed.at_tail holders located ha way held]

theorem Kept.lookup_spelled (kept : Kept place fold lp A path stored) {s : Key} (nul : 0 ∉ s)
    {slot : Slot} {q : Key} (located : At lp A path slot q) {t : PatriciaTrie.Lpatnode α}
    (spelled : Spells lp.lpatnodes (lp.follow slot) t) : lookup s t = latest stored (q ++ s) := by
  induction s generalizing slot q t with
  | nil =>
    rcases spelled.ends_or_inner kept.filed kept.linked kept.holders located with
      ends | ⟨a, arr, inner, rfl, rfl, -⟩
    · exact ends [] nul
    · rw [lookup_nil, List.append_nil, kept.filed.at_inner kept.holders inner]
  | cons c s ih =>
    rcases spelled.ends_or_inner kept.filed kept.linked kept.holders located with
      ends | ⟨a, arr, inner, rfl, rfl, children⟩
    · exact ends (c :: s) nul
    · have below : At lp A path (.arr a c) (path a ++ [c]) := ⟨inner, rfl⟩
      have rest := ih (fun mem => nul (List.mem_cons_of_mem c mem)) below (children c)
      rw [lookup_open nul arr _ inner.shallow, rest, List.append_assoc, List.singleton_append]

theorem Kept.represents (kept : Kept place fold lp A path stored) (upkeep : Upkeep α) :
    ∃ t, Spells lp.lpatnodes lp.nodes t ∧ PatriciaTrie.Represents stored ⟨upkeep, t⟩ := by
  obtain ⟨t, spelled⟩ := kept.linked.spells
  have root : At lp A path .nodes [] := rfl
  refine ⟨t, spelled, ?_, fun key nul => kept.lookup_spelled nul root spelled⟩
  exact spelled.wellFormed kept.linked kept.holders fun a ha => (kept.linked.root a ha).1

theorem Spells.lookupHelper {p : Pointer ℕ} {t : PatriciaTrie.Lpatnode α}
    (spelled : Spells lp.lpatnodes p t) (term : UInt8) (key : Key) :
    lookupLrupatHelper lp fold term key p = PatriciaTrie.lookupLrupatHelper fold term key t := by
  induction key generalizing p t with
  | nil => cases spelled <;> rfl
  | cons c rest ih =>
    cases spelled with
    | null => rfl
    | @node a arr children =>
      rw [lookupLrupatHelper, PatriciaTrie.lookupLrupatHelper, ih (children (fold c))]

theorem Kept.lookup (kept : Kept place id lp A path stored) {key : Key} (nul : 0 ∉ key) :
    lookupLrupat lp key = latest stored key := by
  obtain ⟨t, spelled⟩ := kept.linked.spells
  have root : At lp A path .nodes [] := rfl
  have found : PatriciaTrie.lookup key t = latest ([] ++ stored) key := by
    exact kept.lookup_spelled nul root spelled
  rw [lookupLrupat, spelled.lookupHelper]
  exact found

section Runs
variable [Leftover ℕ] {word : 32 ≤ w ∧ w ≤ 64} {pgsiz : Int32} {bytes : Bytes}
  {lpatnodes : ℕ → Lpatnode α} {nwatchcb : Bool} {h₀ : Heap}
  (created : (createLrupat word pgsiz bytes lpatnodes nwatchcb h₀).1 = some lp) (place : ℕ → ℕ+)
  (apart : ∀ b c, b ≠ c → place b + lp.sl.blockBytes ≤ place c ∨
    place c + lp.sl.blockBytes ≤ place b)
  (adds : List (Key × Pointer α)) (h : Heap) (granted : (addAll place adds lp h).1.2.Clear)
include created apart granted

theorem adds_spelled :
    let run := addAll place adds lp h
    ∃ t, Spells run.1.2.lpatnodes run.1.2.nodes t ∧
      ∀ nwatchcb entries h',
        let other := (PatriciaTrie.addAll (PatriciaTrie.createLrupat nwatchcb) entries h').1
        other.2 = succeeded adds run.1.1 →
          ∀ key, 0 ∉ key → lookup key t = PatriciaTrie.lookupLrupat other.1 key := by
  intro run
  obtain ⟨⟨A, path, kept⟩, -⟩ := addAll_kept created place apart adds h granted
  obtain ⟨t, spelled, -, reads⟩ := kept.represents ⟨true, [], 0⟩
  refine ⟨t, spelled, fun nwatchcb entries h' => ?_⟩
  intro other same key nul
  have rep := addAll_represents entries [] _ (createLrupat_represents nwatchcb) h' trivial
  have found : PatriciaTrie.lookupLrupat other.1 key = latest other.2 key := rep.2 key nul
  have stored : lookup key t = latest (succeeded adds run.1.1) key := reads key nul
  rw [stored, found, same]

/-- After any run of adds that was not refused the pages of a block, whatever other
requests failed, a lookup gives the object of the latest add of exactly its key to
have succeeded. One more such add changes no lookup if it fails, and otherwise at
most that of its own key. -/
theorem adds_found :
    let run := addAll place adds lp h
    (∀ key, 0 ∉ key → lookupLrupat run.1.2 key = latest (succeeded adds run.1.1) key) ∧
      ∀ key obj h', (addLrupat place key obj run.1.2 h').1.2.Clear → ∀ q, 0 ∉ q →
        (addLrupat place key obj run.1.2 h').1.1 = false ∨ q ≠ key →
          lookupLrupat (addLrupat place key obj run.1.2 h').1.2 q = lookupLrupat run.1.2 q := by
  obtain ⟨⟨A, path, kept⟩, -⟩ := addAll_kept created place apart adds h granted
  refine ⟨fun key nul => kept.lookup nul, fun key obj h' granted' q nul untouched => ?_⟩
  obtain ⟨A', path', kept', -⟩ := (addLrupat_guarded key obj _ h' granted').2 A path _ kept
  rw [kept'.lookup nul, kept.lookup nul]
  cases ok : (addLrupat place key obj _ h').1.1 with
  | false => simp
  | true =>
    rw [if_pos rfl, latest_append, if_neg]
    exact untouched.resolve_left (by simp [ok])

end Runs

open scoped Unset

/-- A tail decayed by its own prefix, with one add refused in between. -/
theorem adds_found_prefix :
    let run := addAll (fun b => 1048576 * b.succPNat)
      [([97, 98], some 1), ([97], some 2), ([97], some 3)]
      pageTrie ⟨[true, true, true, true, true, true, false], false⟩
    lookupLrupat run.1.2 [97] = some (some 3) ∧ lookupLrupat run.1.2 [97, 98] = some (some 1) := by
  have size : pageTrie.sl.blockBytes = 262144 := by decide +kernel
  obtain ⟨found, -⟩ := adds_found pageTrie_created (fun b => 1048576 * b.succPNat)
    (fun b c ne => by
      rw [size]
      simp only [PNat.mul_coe, Nat.succPNat_coe, PNat.val_ofNat]
      omega)
    [([97, 98], some 1), ([97], some 2), ([97], some 3)]
    ⟨[true, true, true, true, true, true, false], false⟩ (by decide +kernel)
  exact ⟨(found [97] (by decide)).trans (by decide +kernel),
    (found [97, 98] (by decide)).trans (by decide +kernel)⟩

/-- The first add is refused the pages of a block, and the second is given a node in
what was never mapped: whatever lies there counts as its children, and a key that
was never added is found. -/
theorem refused_pages_find_another :
    let run := addAll (fun b => 1048576 * b.succPNat) [([97], some 1), ([98], some 2)] pageTrie
      ⟨[true, true, true, false], false⟩
    (createLrupat pageTrie.sl.layout.word 4096 (fun _ => 0) pageTrie.lpatnodes true ⟨[], false⟩).1 =
        some pageTrie ∧
      succeeded [([97], some 1), ([98], some 2)] run.1.1 = [([98], some 2)] ∧
      lookupLrupat run.1.2 [99] = some (some 7) :=
  ⟨rfl, by decide +kernel, by decide +kernel⟩

end Libdank.PatriciaTrie.Pointers
