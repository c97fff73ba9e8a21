import Libdank.PatriciaTrie.Lookup

/-! Looking up a key that is a part of a buffer. The walk compares the first
tail it meets with the whole rest of the buffer and goes no further, so it
agrees with the plain lookup only under conditions on the stored keys and on
the bytes that follow. -/
namespace Libdank.PatriciaTrie
open Requests

variable {α : Type}

def tailAt : Key → Lpatnode α → Option Key
  | _, .null => none
  | [], .node _ _ patstr => patstr
  | c :: path, .node arr _ _ => tailAt path (arr c)

/-- `s`, followed in its buffer by `t`, when the keys `held` are stored. If `s`
is one of them then nothing follows and no shorter key is a prefix of it. If it
is not, then nothing follows, or a stored key is a prefix of `s`, or no node on
the path of `s` has the rest of `s` and then `t` for its tail. -/
def Distinct (held : Key → Prop) (lps : Lpatnode α) (s t : Key) : Prop :=
  (held s → t = [] ∧ ∀ u, u <+: s → u ≠ s → ¬ held u) ∧
    (¬ held s → t = [] ∨ (∃ u, u <+: s ∧ held u) ∨
      ∀ u v, s = u ++ v → tailAt u lps ≠ some (v ++ t))

def Held (lps : Lpatnode α) (key : Key) : Prop := lookup key lps ≠ none

@[simp] theorem tailAt_null (path : Key) : tailAt path (.null : Lpatnode α) = none := by
  cases path <;> rfl

@[simp] theorem blob_null (len : ℕ) (key : Key) :
    lookupLrupatBlobHelper len key (.null : Lpatnode α) = none := by
  cases len <;> rfl

theorem blob_stop (len : ℕ) (key : Key) (arr : UInt8 → Lpatnode α) (obj : Pointer α) (p : Key) :
    lookupLrupatBlobHelper len key (.node arr obj (some p)) = if p = key then some obj else none := by
  cases len <;> rfl

theorem nul_notMem_of_front {u s : Key} (front : u <+: s) (nul : 0 ∉ s) : 0 ∉ u :=
  fun mem => nul (front.subset mem)

theorem blob_tail_iff (s t p : Key) (nul : 0 ∉ s) (obj : Pointer α) :
    lookupLrupatBlobHelper s.length (s ++ t) (.node noChildren obj (some p)) =
        lookup s (.node noChildren obj (some p)) ↔
      Distinct (Held (.node noChildren obj (some p))) (.node noChildren obj (some p)) s t := by
  have held : ∀ u, 0 ∉ u → (Held (.node noChildren obj (some p)) u ↔ u = p) := fun u nul => by
    simp [Held, lookup_tail nul]
  rw [blob_stop, lookup_tail nul, Distinct, held s nul]
  by_cases own : s = p
  · subst own
    simp only [List.self_eq_append_right, if_true, forall_true_left, not_true_eq_false,
      false_implies, and_true]
    constructor
    · intro same
      have ends : t = [] := by
        by_contra more
        simp [more] at same
      refine ⟨ends, fun u front other => ?_⟩
      rwa [held u (nul_notMem_of_front front nul)]
    · rintro ⟨rfl, -⟩
      rfl
  · simp only [own, if_false, false_implies, not_false_eq_true, true_and, forall_true_left]
    constructor
    · intro miss
      refine .inr (.inr fun u v split hit => ?_)
      cases u with
      | nil =>
        obtain rfl : s = v := split
        have whole : p = s ++ t := by simpa [tailAt] using hit
        simp [whole] at miss
      | cons c u => simp [tailAt, noChildren] at hit
    · intro apart
      refine if_neg fun whole => ?_
      rcases apart with rfl | ⟨u, front, stored⟩ | apart
      · exact own (by simpa using whole.symm)
      · rw [held u (nul_notMem_of_front front nul)] at stored
        subst stored
        exact own (front.eq_of_length_le (by simp [whole])).symm
      · exact apart [] s rfl (congrArg some whole)

theorem blob_empty_iff (s t : Key) (arr : UInt8 → Lpatnode α) (obj : Pointer α) :
    lookupLrupatBlobHelper s.length (s ++ t) (.node arr obj (some [])) =
        lookup s (.node arr obj (some [])) ↔
      Distinct (Held (.node arr obj (some []))) (.node arr obj (some [])) s t := by
  have here : Held (.node arr obj (some [])) [] := by simp [Held, lookup_nil]
  rw [blob_stop]
  cases s with
  | nil =>
    simp only [List.nil_append, lookup_nil, if_true, Distinct, here, List.prefix_nil]
    constructor
    · intro same
      refine ⟨fun _ => ⟨?_, fun u empty other => absurd empty other⟩, nofun⟩
      by_contra more
      simp [Ne.symm more] at same
    · rintro ⟨ends, -⟩
      simp [(ends trivial).1]
  | cons c s =>
    rw [if_neg (by simp)]
    constructor
    · intro same
      exact ⟨fun held => absurd same.symm held, fun _ => .inr (.inl ⟨[], by simp, here⟩)⟩
    · rintro ⟨alone, -⟩
      by_contra held
      exact (alone fun none => held none.symm).2 [] (by simp) (by simp) here

theorem distinct_child {c : UInt8} {s : Key} (t : Key) (nul : 0 ∉ c :: s)
    (arr : UInt8 → Lpatnode α) (obj : Pointer α) :
    Distinct (Held (.node arr obj none)) (.node arr obj none) (c :: s) t ↔
      Distinct (Held (arr c)) (arr c) s t := by
  have none_here : ¬ Held (.node arr obj none) [] := by simp [Held, lookup_nil]
  have step : ∀ u, u <+: s → (Held (.node arr obj none) (c :: u) ↔ Held (arr c) u) := by
    intro u front
    have nul' : 0 ∉ c :: u := nul_notMem_of_front (List.cons_prefix_cons.mpr ⟨rfl, front⟩) nul
    rw [Held, Held, lookup_open nul' _ _ (.inl rfl)]
  have shorter : (∀ u, u <+: c :: s → u ≠ c :: s → ¬ Held (.node arr obj none) u) ↔
      ∀ u, u <+: s → u ≠ s → ¬ Held (arr c) u := by
    constructor
    · intro h u front other
      rw [← step u front]
      exact h _ (List.cons_prefix_cons.mpr ⟨rfl, front⟩) (by simpa using other)
    · rintro h (_ | ⟨x, u⟩) front other
      · exact none_here
      · obtain ⟨rfl, below⟩ := List.cons_prefix_cons.mp front
        rw [step u below]
        exact h u below (by simpa using other)
  have some_shorter : (∃ u, u <+: c :: s ∧ Held (.node arr obj none) u) ↔
      ∃ u, u <+: s ∧ Held (arr c) u := by
    constructor
    · rintro ⟨_ | ⟨x, u⟩, front, held⟩
      · exact absurd held none_here
      · obtain ⟨rfl, below⟩ := List.cons_prefix_cons.mp front
        exact ⟨u, below, (step u below).mp held⟩
    · rintro ⟨u, front, held⟩
      exact ⟨c :: u, List.cons_prefix_cons.mpr ⟨rfl, front⟩, (step u front).mpr held⟩
  have tails : (∀ u v, c :: s = u ++ v → tailAt u (.node arr obj none) ≠ some (v ++ t)) ↔
      ∀ u v, s = u ++ v → tailAt u (arr c) ≠ some (v ++ t) := by
    constructor
    · intro h u v split
      exact h (c :: u) v (by rw [split, List.cons_append])
    · rintro h (_ | ⟨x, u⟩) v split
      · nofun
      · obtain ⟨rfl, rest⟩ := List.cons.inj split
        exact h u v rest
  rw [Distinct, Distinct, step s (List.prefix_refl s), shorter, some_shorter, tails]

theorem blob_iff (s t : Key) (nul : 0 ∉ s) (lps : Lpatnode α) (wf : WellFormed lps) :
    lookupLrupatBlobHelper s.length (s ++ t) lps = lookup s lps ↔ Distinct (Held lps) lps s t := by
  induction s generalizing lps with
  | nil =>
    match lps, wf with
    | .null, _ => simp [Distinct, Held]
    | .node arr obj none, _ =>
      simp [lookupLrupatBlobHelper, Distinct, Held, lookup_nil, tailAt]
    | .node arr obj (some []), _ => exact blob_empty_iff [] t arr obj
    | .node arr obj (some (d :: p)), wf =>
      obtain rfl := wf.1 d p rfl
      exact blob_tail_iff [] t _ nul obj
  | cons c s ih =>
    match lps, wf with
    | .null, _ => simp [Distinct, Held]
    | .node arr obj none, wf =>
      rw [distinct_child t nul, lookup_open nul _ _ (.inl rfl)]
      exact ih (fun mem => nul (List.mem_cons_of_mem _ mem)) (arr c) (wf.2 c)
    | .node arr obj (some []), _ => exact blob_empty_iff (c :: s) t arr obj
    | .node arr obj (some (d :: p)), wf =>
      obtain rfl := wf.1 d p rfl
      exact blob_tail_iff (c :: s) t _ nul obj

theorem latest_ne_none (stored : List (Key × Pointer α)) (key : Key) :
    latest stored key ≠ none ↔ key ∈ stored.map Prod.fst := by
  simp [latest]

theorem Distinct.congr {held held' : Key → Prop} {lps : Lpatnode α} {s t : Key}
    (same : ∀ u, u <+: s → (held u ↔ held' u)) : Distinct held lps s t ↔ Distinct held' lps s t := by
  have shorter : (∀ u, u <+: s → u ≠ s → ¬ held u) ↔ ∀ u, u <+: s → u ≠ s → ¬ held' u :=
    forall_congr' fun u => imp_congr_right fun front => by rw [same u front]
  have some_shorter : (∃ u, u <+: s ∧ held u) ↔ ∃ u, u <+: s ∧ held' u :=
    exists_congr fun u => and_congr_right fun front => same u front
  rw [Distinct, Distinct, same s (List.prefix_refl s), shorter, some_shorter]

end Libdank.PatriciaTrie
