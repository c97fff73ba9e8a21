import Libdank.PatriciaTrie.Blob
import Mathlib.Data.List.TakeWhile

/-! Looking up a key that ends at a terminator. The walk down the trie stops at
the terminator, but a tail is compared as a whole and may run past it, so a key
that holds the terminator can be found under a part of it. -/
namespace Libdank.PatriciaTrie
open Requests

variable {α : Type} {term : UInt8}

def before (term : UInt8) (text : Key) : Key := text.takeWhile (· ≠ term)

/-- `s` is stored, or no tail on its path goes on past the terminator to where the
text has the next one. -/
def Stops (held : Key → Prop) (lps : Lpatnode α) (term : UInt8) (s text : Key) : Prop :=
  held s ∨ ∀ u v w, s = u ++ v → tailAt u lps = some (v ++ term :: w) →
    ¬ s ++ term :: w ++ [term] <+: text

theorem tailMatches_term (live : term ≠ 0) (key p : Key) :
    tailMatches id term key (some p) = true ↔ p ++ [term] <+: key := by
  simp only [tailMatches, List.map_id, Bool.and_eq_true, beq_iff_eq]
  constructor
  · rintro ⟨front, stop⟩
    have inside : p.length < key.length := by
      by_contra short
      rw [List.getD_eq_default _ _ (not_lt.mp short)] at stop
      exact live stop.symm
    rw [List.getD_eq_getElem _ _ inside] at stop
    have both := List.take_succ_eq_append_getElem inside
    rw [front, stop] at both
    exact both ▸ List.take_prefix _ _
  · rintro ⟨rest, rfl⟩
    simp

/-- A tail that matches is the rest of the key, or goes on past the terminator. -/
theorem tailMatches_iff_past (live : term ≠ 0) {s : Key} (clear : term ∉ s) (t p : Key) :
    tailMatches id term (s ++ term :: t) (some p) = true ↔
      p = s ∨ ∃ w, p = s ++ term :: w ∧ w ++ [term] <+: t := by
  rw [tailMatches_term live]
  induction s generalizing p with
  | nil =>
    cases p with
    | nil => simp
    | cons d p =>
      simp only [List.nil_append, List.cons_append, List.cons_prefix_cons, List.cons.injEq, reduceCtorEq,
        false_or]
      constructor
      · rintro ⟨rfl, front⟩
        exact ⟨p, ⟨rfl, rfl⟩, front⟩
      · rintro ⟨w, ⟨rfl, rfl⟩, front⟩
        exact ⟨rfl, front⟩
  | cons c s ih =>
    obtain ⟨other, clear'⟩ := not_or.mp (mt List.mem_cons.mpr clear)
    cases p with
    | nil => simp [other]
    | cons d p =>
      simp only [List.cons_append, List.cons_prefix_cons, List.cons.injEq, ih clear']
      constructor
      · rintro ⟨rfl, same | ⟨w, shape, front⟩⟩
        · exact .inl ⟨rfl, same⟩
        · exact .inr ⟨w, ⟨rfl, shape⟩, front⟩
      · rintro (⟨rfl, same⟩ | ⟨w, ⟨rfl, shape⟩, front⟩)
        · exact ⟨rfl, .inl same⟩
        · exact ⟨rfl, .inr ⟨w, shape, front⟩⟩

theorem past_prefix_iff {s w t : Key} :
    s ++ term :: w ++ [term] <+: s ++ term :: t ↔ w ++ [term] <+: t := by
  rw [List.append_assoc, List.prefix_append_right_inj, List.cons_append, List.cons_prefix_cons,
    and_iff_right rfl]

theorem term_tail_iff (live : term ≠ 0) {s : Key} (clear : term ∉ s) (nul : 0 ∉ s) (t p : Key)
    (obj : Pointer α) :
    (if tailMatches id term (s ++ term :: t) (some p) = true then some obj else none) =
        lookup s (.node noChildren obj (some p)) ↔
      Stops (Held (.node noChildren obj (some p))) (.node noChildren obj (some p)) term s
        (s ++ term :: t) := by
  have held : Held (.node noChildren obj (some p)) s ↔ s = p := by simp [Held, lookup_tail nul]
  have deeper : ∀ c u, tailAt (c :: u) (.node noChildren obj (some p)) = none := fun c u => tailAt_null u
  have past := tailMatches_iff_past live clear t p
  rw [lookup_tail nul, Stops, held]
  by_cases own : s = p
  · rw [if_pos own, if_pos (past.mpr (.inl own.symm))]
    exact iff_of_true rfl (.inl own)
  · rw [if_neg own, or_iff_right own]
    constructor
    · intro miss u v w split hit front
      cases u with
      | nil =>
        obtain rfl : s = v := split
        have shape : p = s ++ term :: w := Option.some.inj hit
        rw [if_pos (past.mpr (.inr ⟨w, shape, past_prefix_iff.mp front⟩))] at miss
        exact Option.some_ne_none _ miss
      | cons c u =>
        rw [deeper] at hit
        exact Option.some_ne_none _ hit.symm
    · intro apart
      refine if_neg fun hit => ?_
      rcases past.mp hit with same | ⟨w, shape, front⟩
      · exact own same.symm
      · exact apart [] s w rfl (congrArg some shape) (past_prefix_iff.mpr front)

theorem stops_child {c : UInt8} {s : Key} (nul : 0 ∉ c :: s) (arr : UInt8 → Lpatnode α) (obj : Pointer α)
    {patstr : Option Key} (shallow : Shallow patstr) (text : Key) :
    Stops (Held (.node arr obj patstr)) (.node arr obj patstr) term (c :: s) (c :: text) ↔
      Stops (Held (arr c)) (arr c) term s text := by
  have here : ∀ v w, tailAt [] (.node arr obj patstr) ≠ some (v ++ term :: w) := by
    intro v w
    rcases shallow with rfl | rfl <;> simp [tailAt]
  rw [Stops, Stops, Held, Held, lookup_open nul _ _ shallow]
  refine or_congr_right ⟨fun apart u v w split hit front => ?_, fun apart u v w split hit => ?_⟩
  · refine apart (c :: u) v w (by rw [split, List.cons_append]) hit ?_
    rw [List.cons_append, List.cons_append]
    exact List.cons_prefix_cons.mpr ⟨rfl, front⟩
  · cases u with
    | nil => exact absurd hit (here v w)
    | cons x u =>
      obtain ⟨rfl, rest⟩ := List.cons.inj split
      rw [List.cons_append, List.cons_append, List.cons_prefix_cons, and_iff_right rfl]
      exact apart u v w rest hit

theorem shallow_mismatch (live : term ≠ 0) {patstr : Option Key} (shallow : Shallow patstr) {c : UInt8}
    (other : c ≠ term) (text : Key) : tailMatches id term (c :: text) patstr = false := by
  rcases shallow with rfl | rfl
  · rfl
  · rw [Bool.eq_false_iff, ne_eq, tailMatches_term live]
    simp [other.symm]

theorem term_iff (live : term ≠ 0) {s : Key} (clear : term ∉ s) (nul : 0 ∉ s) (t : Key) {lps : Lpatnode α}
    (wf : WellFormed lps) :
    lookupLrupatHelper id term (s ++ term :: t) lps = lookup s lps ↔
      Stops (Held lps) lps term s (s ++ term :: t) := by
  induction s generalizing lps with
  | nil =>
    cases lps with
    | null => simp [Stops, lookupLrupatHelper]
    | node arr obj patstr =>
      rw [List.nil_append, lookupLrupatHelper, if_neg (not_not.mpr rfl), lookup_nil]
      cases patstr with
      | none =>
        refine iff_of_true rfl (.inr fun u v w split hit => ?_)
        obtain ⟨rfl, rfl⟩ := List.append_eq_nil_iff.mp split.symm
        exact absurd hit.symm (Option.some_ne_none _)
      | some p =>
        have leaf := term_tail_iff live clear nul t p obj
        rw [lookup_nil, List.nil_append] at leaf
        rw [leaf, Stops, Stops, Held, Held, lookup_nil, lookup_nil]
        refine or_congr_right (forall₃_congr fun u v w => imp_congr_right fun split => ?_)
        obtain ⟨rfl, rfl⟩ := List.append_eq_nil_iff.mp split.symm
        rfl
  | cons c s ih =>
    obtain ⟨other, clear'⟩ := not_or.mp (mt List.mem_cons.mpr clear)
    have nul' : 0 ∉ s := fun mem => nul (List.mem_cons_of_mem _ mem)
    have child : ∀ (arr : UInt8 → Lpatnode α) (obj : Pointer α) (patstr : Option Key),
        Shallow patstr → WellFormed (arr c) →
        (lookupLrupatHelper id term (c :: s ++ term :: t) (.node arr obj patstr) =
            lookup (c :: s) (.node arr obj patstr) ↔
          Stops (Held (.node arr obj patstr)) (.node arr obj patstr) term (c :: s) (c :: s ++ term :: t)) := by
      intro arr obj patstr shallow wf
      rw [List.cons_append, lookupLrupatHelper, shallow_mismatch live shallow (Ne.symm other),
        if_neg Bool.false_ne_true, if_pos (Ne.symm other), lookup_open nul _ _ shallow,
        stops_child nul _ _ shallow]
      exact ih clear' nul' wf
    cases lps with
    | null => simp [Stops, lookupLrupatHelper]
    | node arr obj patstr =>
      rcases patstr with _ | _ | ⟨d, p⟩
      · exact child arr obj none (.inl rfl) (wf.2 c)
      · exact child arr obj (some []) (.inr rfl) (wf.2 c)
      · obtain rfl : arr = noChildren := wf.1 d p rfl
        rw [← term_tail_iff live clear nul t (d :: p) obj, List.cons_append, lookupLrupatHelper,
          if_pos (Ne.symm other)]
        cases s <;> rfl

theorem term_missing (live : term ≠ 0) {text : Key} (missing : term ∉ text) (lps : Lpatnode α) :
    lookupLrupatHelper id term text lps = none := by
  have mismatch : ∀ text : Key, term ∉ text → ∀ patstr, tailMatches id term text patstr = false := by
    intro text missing patstr
    cases patstr with
    | none => rfl
    | some p =>
      rw [Bool.eq_false_iff, ne_eq, tailMatches_term live]
      exact fun front => missing (front.subset (by simp))
  induction text generalizing lps with
  | nil => cases lps <;> simp [lookupLrupatHelper, mismatch [] missing]
  | cons c text ih =>
    cases lps with
    | null => rfl
    | node arr obj patstr =>
      have rest := ih (fun mem => missing (List.mem_cons_of_mem _ mem)) (arr (id c))
      rw [lookupLrupatHelper, mismatch _ missing, if_neg Bool.false_ne_true, rest, ite_self]

theorem before_split {text : Key} (there : term ∈ text) :
    term ∉ before term text ∧ ∃ t, text = before term text ++ term :: t := by
  have clear : term ∉ before term text := fun mem => by
    simpa using List.mem_takeWhile_imp mem
  refine ⟨clear, ?_⟩
  have some_ : text.dropWhile (· ≠ term) ≠ [] := by
    intro none_
    have whole : before term text ++ text.dropWhile (· ≠ term) = text :=
      List.takeWhile_append_dropWhile
    rw [none_, List.append_nil] at whole
    rw [whole] at clear
    exact clear there
  have first : (text.dropWhile (· ≠ term)).head some_ = term := by
    simpa using List.head_dropWhile_not (· ≠ term) some_
  have shape := (List.cons_head_tail some_).symm.trans (congrArg (· :: _) first)
  refine ⟨(text.dropWhile (· ≠ term)).tail, ?_⟩
  rw [before, ← shape, List.takeWhile_append_dropWhile]

/-- The object stored under what comes before the terminator, if there is one. -/
def TermExact (stored : List (Key × Pointer α)) (lp : Lrupat α) (text : Key) (term : UInt8) : Prop :=
  lookupLrupatTerm lp text term = if term ∈ text then latest stored (before term text) else none

end Libdank.PatriciaTrie
