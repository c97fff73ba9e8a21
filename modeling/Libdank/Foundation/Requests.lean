import Mathlib.Data.List.Basic
import Mathlib.Tactic

/-! Programs that ask an allocator for memory, and the rules for reasoning
about them. The answers come from a list of outcomes fixed in advance, so a
statement over all lists ranges over every pattern of failures; once the list
is used up every further request is served. A store past the end of its block
is kept and only recorded: the values computed do not depend on the record. -/
namespace Libdank.Requests

abbrev Pointer (α : Type) := Option α

structure Heap where
  outcomes : List Bool
  wild : Bool
deriving DecidableEq, Repr

abbrev Request := StateM Heap

def request : Request Bool := fun h =>
  match h.outcomes with
  | [] => (true, h)
  | served :: rest => (served, { h with outcomes := rest })

/-- Requests of no bytes at all are refused before the allocator is asked. -/
def allocate (bytes : ℕ) : Request Bool :=
  if bytes = 0 then pure false else request

def store (index cells : ℕ) : Request Unit :=
  modify fun h => { h with wild := h.wild || decide (cells ≤ index) }

/-- Follow a pointer; `good` says whether what it points at is still there. -/
def visit (good : Bool) : Request Unit :=
  modify fun h => { h with wild := h.wild || !good }

/-- `Ensures pre m post`: started in a state satisfying `pre`, the program `m`
ends with a result and a state related by `post`. -/
def Ensures {σ α : Type} (pre : σ → Prop) (m : StateM σ α) (post : α → σ → Prop) : Prop :=
  ∀ s, pre s → post (m s).1 (m s).2

variable {σ α β : Type} {pre : σ → Prop}

theorem pure_apply (a : α) (s : σ) : (pure a : StateM σ α) s = (a, s) := rfl

theorem bind_apply (m : StateM σ α) (f : α → StateM σ β) (s : σ) :
    (m >>= f) s = f (m s).1 (m s).2 := rfl

theorem ensures_pure {post : α → σ → Prop} {a : α} (h : ∀ s, pre s → post a s) :
    Ensures pre (pure a : StateM σ α) post := h

theorem ensures_bind {m : StateM σ α} {f : α → StateM σ β} {mid : α → σ → Prop}
    {post : β → σ → Prop} (first : Ensures pre m mid)
    (rest : ∀ a, Ensures (mid a) (f a) post) : Ensures pre (m >>= f) post :=
  fun s hs => rest _ _ (first s hs)

theorem ensures_true (m : StateM σ α) : Ensures pre m (fun _ _ => True) := fun _ _ => trivial

theorem Ensures.mono {m : StateM σ α} {pre' : σ → Prop} {post post' : α → σ → Prop}
    (h : Ensures pre m post) (weak : ∀ s, pre' s → pre s)
    (strong : ∀ a s, post a s → post' a s) : Ensures pre' m post' :=
  fun s hs => strong _ _ (h s (weak s hs))

theorem ensures_ite {c : Prop} [Decidable c] {m n : StateM σ α} {post : α → σ → Prop}
    (yes : c → Ensures pre m post) (no : ¬ c → Ensures pre n post) :
    Ensures pre (if c then m else n) post := by
  by_cases h : c
  · simpa only [if_pos h] using yes h
  · simpa only [if_neg h] using no h

/-- Apply `step` for each item in turn and stop at the first that fails. -/
def untilFailure {ρ ι : Type} (step : ρ → ι → Request (Bool × ρ)) (r : ρ) :
    List ι → Request (Bool × ρ)
  | [] => pure (true, r)
  | i :: rest => do
    let (ok, r) ← step r i
    if ok then untilFailure step r rest else pure (false, r)

def runAll {ρ ι : Type} (step : ρ → ι → Request (Bool × ρ)) (r : ρ) : List ι → Request ρ
  | [] => pure r
  | i :: rest => do
    let (_, r) ← step r i
    runAll step r rest

def Along {ρ ι : Type} (cond : ρ → ι → Heap → Prop) (step : ρ → ι → Request (Bool × ρ)) (r : ρ)
    (h : Heap) : List ι → Prop
  | [] => True
  | i :: rest => cond r i h ∧ Along cond step (step r i h).1.2 (step r i h).2 rest

instance decidableAlong {ρ ι : Type} (cond : ρ → ι → Heap → Prop)
    [∀ r i h, Decidable (cond r i h)] (step : ρ → ι → Request (Bool × ρ)) (r : ρ) (h : Heap) :
    (items : List ι) → Decidable (Along cond step r h items)
  | [] => inferInstanceAs (Decidable True)
  | i :: rest =>
    have := decidableAlong cond step (step r i h).1.2 (step r i h).2 rest
    inferInstanceAs (Decidable (cond r i h ∧ Along cond step _ _ rest))

theorem untilFailure_cons {ρ ι : Type} (step : ρ → ι → Request (Bool × ρ)) (r : ρ) (i : ι)
    (rest : List ι) (h : Heap) :
    untilFailure step r (i :: rest) h =
      (if (step r i h).1.1 = true then untilFailure step (step r i h).1.2 rest
        else pure (false, (step r i h).1.2)) (step r i h).2 := rfl

theorem untilFailure_append {ρ ι : Type} (step : ρ → ι → Request (Bool × ρ)) (r : ρ) (items rest : List ι)
    (h : Heap) : untilFailure step r (items ++ rest) h =
      if (untilFailure step r items h).1.1 = true then
        untilFailure step (untilFailure step r items h).1.2 rest (untilFailure step r items h).2
      else untilFailure step r items h := by
  induction items generalizing r h with
  | nil => rfl
  | cons i items ih =>
    rw [List.cons_append, untilFailure_cons, untilFailure_cons]
    by_cases ok : (step r i h).1.1 = true
    · simp only [if_pos ok]
      exact ih _ _
    · simp only [if_neg ok]
      exact (if_neg Bool.false_ne_true).symm

theorem untilFailure_map {ρ ι κ : Type} (step : ρ → ι → Request (Bool × ρ)) (f : κ → ι) (r : ρ)
    (items : List κ) (h : Heap) :
    untilFailure step r (items.map f) h = untilFailure (fun r i => step r (f i)) r items h := by
  induction items generalizing r h with
  | nil => rfl
  | cons i items ih =>
    rw [List.map_cons, untilFailure_cons, untilFailure_cons]
    split_ifs with ok
    · exact ih _ _
    · rfl

/-- Simulation: if every step that meets `cond` succeeds and follows `f` on an
abstract value, so does a loop whose steps all meet it. -/
theorem untilFailure_along {ρ ι κ : Type} {step : ρ → ι → Request (Bool × ρ)}
    {cond : ρ → ι → Heap → Prop} {f : κ → ι → κ} {sim : κ → ρ → Heap → Prop} (items : List ι)
    (each : ∀ i ∈ items, ∀ k r, Ensures (fun h => cond r i h ∧ sim k r h) (step r i)
      (fun q h => q.1 = true ∧ sim (f k i) q.2 h)) (k : κ) (r : ρ) (h : Heap)
    (start : sim k r h) (along : Along cond step r h items) :
    (untilFailure step r items h).1.1 = true ∧
      sim (items.foldl f k) (untilFailure step r items h).1.2 (untilFailure step r items h).2 := by
  induction items generalizing k r h with
  | nil => exact ⟨rfl, start⟩
  | cons i rest ih =>
    obtain ⟨now, later⟩ := along
    obtain ⟨ok, next⟩ := each i (by simp) k r h ⟨now, start⟩
    have tail := ih (fun j hj => each j (by simp [hj])) _ _ _ next later
    rw [untilFailure_cons, if_pos ok]
    exact tail

theorem along_trivial {ρ ι : Type} (step : ρ → ι → Request (Bool × ρ)) (r : ρ) (h : Heap)
    (items : List ι) : Along (fun _ _ _ => True) step r h items := by
  induction items generalizing r h with
  | nil => trivial
  | cons i rest ih => exact ⟨trivial, ih _ _⟩

theorem untilFailure_simulates {ρ ι κ : Type} {step : ρ → ι → Request (Bool × ρ)}
    {f : κ → ι → κ} {sim : κ → ρ → Heap → Prop} (items : List ι)
    (each : ∀ i ∈ items, ∀ k r, Ensures (sim k r) (step r i)
      (fun q h => q.1 = true ∧ sim (f k i) q.2 h)) (k : κ) (r : ρ) :
    Ensures (sim k r) (untilFailure step r items)
      (fun q h => q.1 = true ∧ sim (items.foldl f k) q.2 h) :=
  fun h start => untilFailure_along items (fun i hi k r h now => each i hi k r h now.2) k r h start
    (along_trivial step r h items)

/-- Invariants: what every step that meets `cond` preserves, a run whose steps
all meet it preserves. -/
theorem runAll_along {ρ ι : Type} {step : ρ → ι → Request (Bool × ρ)}
    {cond : ρ → ι → Heap → Prop} {inv : ρ → Heap → Prop}
    (each : ∀ i r, Ensures (fun h => cond r i h ∧ inv r h) (step r i) (fun q h => inv q.2 h))
    (items : List ι) (r : ρ) (h : Heap) (start : inv r h) (along : Along cond step r h items) :
    inv (runAll step r items h).1 (runAll step r items h).2 := by
  induction items generalizing r h with
  | nil => exact start
  | cons i rest ih => exact ih _ _ (each i r h ⟨along.1, start⟩) along.2

/-- Whatever one step preserves, successful or not, the loop preserves. -/
theorem untilFailure_preserves {ρ ι : Type} {step : ρ → ι → Request (Bool × ρ)}
    {inv : ρ → Heap → Prop} (items : List ι)
    (each : ∀ i ∈ items, ∀ r, Ensures (inv r) (step r i) (fun q h => inv q.2 h)) (r : ρ) :
    Ensures (inv r) (untilFailure step r items) (fun q h => inv q.2 h) := by
  induction items generalizing r with
  | nil => exact ensures_pure fun h hs => hs
  | cons i rest ih =>
    refine ensures_bind (each i (by simp) r) fun ⟨ok, q⟩ => ?_
    cases ok with
    | false => exact ensures_pure fun h hs => hs
    | true => exact ih (fun j hj => each j (by simp [hj])) q

/-- The answer to the request after the next `i`, and the heap after `n` of them. -/
def Heap.answer (h : Heap) (i : ℕ) : Bool := h.outcomes.getD i true

def Heap.later (h : Heap) (n : ℕ) : Heap := { h with outcomes := h.outcomes.drop n }

@[simp] theorem answer_later (h : Heap) (n i : ℕ) : (h.later n).answer i = h.answer (n + i) := by
  simp [Heap.answer, Heap.later, List.getD_eq_getElem?_getD]

@[simp] theorem later_later (h : Heap) (m n : ℕ) : (h.later m).later n = h.later (m + n) := by
  simp [Heap.later]

theorem request_eq (h : Heap) : request h = (h.answer 0, h.later 1) := by
  obtain ⟨outcomes, wild⟩ := h
  cases outcomes <;> rfl

theorem allocate_eq {bytes : ℕ} (pos : bytes ≠ 0) (h : Heap) :
    allocate bytes h = (h.answer 0, h.later 1) := by
  rw [allocate, if_neg pos, request_eq]

theorem visit_eq {good : Bool} (there : good = true) (h : Heap) : visit good h = ((), h) := by
  subst there
  simp [visit, modify, modifyGet, MonadStateOf.modifyGet, StateT.modifyGet, pure]

def Served (h : Heap) : Prop := h.outcomes = []

theorem request_served : Ensures Served request (fun ok h => ok = true ∧ Served h) := by
  intro h hs
  unfold Served at hs ⊢
  simp only [request, hs, and_self]

theorem allocate_served {bytes : ℕ} (pos : bytes ≠ 0) :
    Ensures Served (allocate bytes) (fun ok h => ok = true ∧ Served h) := by
  rw [allocate, if_neg pos]
  exact request_served

theorem ensures_granted {m : Request Bool} {yes no : Request β} {post : β → Heap → Prop}
    (granted : Ensures Served m (fun ok h => ok = true ∧ Served h)) (goes : Ensures Served yes post) :
    Ensures Served (do if ← m then yes else no) post :=
  ensures_bind granted fun _ =>
    ensures_ite (fun _ h hs => goes h hs.2) fun refused _ hs => absurd hs.1 refused

section Steady

/-- Run where every request is served, `m` ends as it does under any outcomes
under which it ends `ok`. -/
def Steady (ok : α → Prop) (m : Request α) : Prop :=
  ∀ h h', Served h' → Served (m h').2 ∧ (ok (m h).1 → (m h').1 = (m h).1)

variable {ok : α → Prop} {ok' : β → Prop}

theorem steady_pure (a : α) : Steady ok (pure a) := fun _ _ served => ⟨served, fun _ => rfl⟩

/-- A failure must not be mended later. -/
theorem steady_bind {m : Request α} {f : α → Request β} (first : Steady ok m)
    (rest : ∀ a, Steady ok' (f a)) (fails : ∀ a, ¬ ok a → ∀ h, ¬ ok' (f a h).1) :
    Steady ok' (m >>= f) := by
  intro h h' served
  obtain ⟨served₁, same₁⟩ := first h h' served
  refine ⟨(rest _ h _ served₁).1, fun well => ?_⟩
  have well₁ : ok (m h).1 := by_contra fun ill => fails _ ill _ well
  rw [bind_apply, same₁ well₁]
  exact (rest _ (m h).2 _ served₁).2 well

theorem steady_ite {c : Prop} [Decidable c] {m n : Request α} (yes : Steady ok m) (no : Steady ok n) :
    Steady ok (if c then m else n) := by
  split_ifs
  · exact yes
  · exact no

theorem steady_request : Steady (· = true) request := by
  intro h h' served
  obtain ⟨yes, served'⟩ := request_served h' served
  exact ⟨served', fun well => yes.trans well.symm⟩

theorem steady_allocate (bytes : ℕ) : Steady (· = true) (allocate bytes) :=
  steady_ite (steady_pure _) steady_request

theorem steady_store (index cells : ℕ) : Steady (fun _ => True) (store index cells) :=
  fun _ _ served => ⟨served, fun _ => rfl⟩

theorem steady_then {ρ κ : Type} {m : Request (Bool × ρ)} {f : Bool × ρ → Request (Bool × κ)}
    (first : Steady (fun q => q.1 = true) m)
    (rest : ∀ r, Steady (fun q => q.1 = true) (f (true, r)))
    (fails : ∀ r, ∃ k, f (false, r) = pure (false, k)) : Steady (fun q => q.1 = true) (m >>= f) := by
  refine steady_bind first (fun q => ?_) fun q ill h => ?_
  · obtain ⟨_ | _, r⟩ := q
    · obtain ⟨k, gives_up⟩ := fails r
      rw [gives_up]
      exact steady_pure _
    · exact rest r
  · obtain ⟨_ | _, r⟩ := q
    · obtain ⟨k, gives_up⟩ := fails r
      rw [gives_up]
      exact Bool.false_ne_true
    · exact absurd rfl ill

theorem steady_granted {ρ : Type} (bytes : ℕ) (x y : ρ) : Steady (fun q : Bool × ρ => q.1 = true) (do
    if ← allocate bytes then pure (true, x) else pure (false, y)) := by
  refine steady_bind (steady_allocate bytes) (fun ok => steady_ite (steady_pure _) (steady_pure _))
    fun ok refused h => ?_
  rw [if_neg refused]
  exact Bool.false_ne_true

theorem steady_untilFailure {ρ ι : Type} {step : ρ → ι → Request (Bool × ρ)}
    (each : ∀ r i, Steady (fun q => q.1 = true) (step r i)) (r : ρ) (items : List ι) :
    Steady (fun q => q.1 = true) (untilFailure step r items) := by
  induction items generalizing r with
  | nil => exact steady_pure _
  | cons i rest ih => exact steady_then (each r i) ih fun r => ⟨r, rfl⟩

end Steady

section Mirroring

/-- `m` makes the requests of `n` and, seen through `f`, ends as it does. -/
def Mirrors (f : α → β) (m : Request α) (n : Request β) : Prop := ∀ h, (f (m h).1, (m h).2) = n h

variable {α' β' : Type} {f : α → β} {g : α' → β'}

theorem mirrors_pure (a : α) : Mirrors f (pure a) (pure (f a)) := fun _ => rfl

theorem mirrors_bind {m : Request α} {n : Request β} {k : α → Request α'} {l : β → Request β'}
    (first : Mirrors f m n) (rest : ∀ a, Mirrors g (k a) (l (f a))) :
    Mirrors g (m >>= k) (n >>= l) := by
  intro h
  rw [bind_apply, bind_apply, ← first h]
  exact rest _ _

theorem mirrors_ite {c : Prop} [Decidable c] {m m' : Request α} {n n' : Request β}
    (yes : Mirrors f m n) (no : Mirrors f m' n') :
    Mirrors f (if c then m else m') (if c then n else n') := by
  split_ifs
  · exact yes
  · exact no

end Mirroring

/-- No store has missed its block so far. -/
def Tame (h : Heap) : Prop := h.wild = false

theorem request_tame : Ensures Tame request (fun _ => Tame) := by
  intro h hs
  unfold request
  split <;> exact hs

theorem allocate_tame (bytes : ℕ) : Ensures Tame (allocate bytes) (fun _ => Tame) :=
  ensures_ite (fun _ => ensures_pure fun _ hs => hs) (fun _ => request_tame)

theorem store_tame {index cells : ℕ} (inside : index < cells) :
    Ensures Tame (store index cells) (fun _ => Tame) := by
  intro h hs
  change (h.wild || decide (cells ≤ index)) = false
  simp only [Tame] at hs
  simp [hs, inside]

section Remembering

/-- A store that has missed its block is not forgotten. -/
def Remembers (m : Request α) : Prop := ∀ h, h.wild = true → (m h).2.wild = true

theorem remembers_pure (a : α) : Remembers (pure a) := fun _ wild => wild

theorem remembers_bind {m : Request α} {f : α → Request β} (first : Remembers m)
    (rest : ∀ a, Remembers (f a)) : Remembers (m >>= f) :=
  fun h wild => rest _ _ (first h wild)

theorem remembers_ite {c : Prop} [Decidable c] {m n : Request α} (yes : Remembers m)
    (no : Remembers n) : Remembers (if c then m else n) := by
  split_ifs
  · exact yes
  · exact no

theorem remembers_request : Remembers request := by
  intro h wild
  rw [request_eq]
  exact wild

theorem remembers_allocate (bytes : ℕ) : Remembers (allocate bytes) :=
  remembers_ite (remembers_pure _) remembers_request

theorem remembers_store (index cells : ℕ) : Remembers (store index cells) := by
  intro h wild
  change (h.wild || _) = true
  rw [wild, Bool.true_or]

theorem remembers_untilFailure {ρ ι : Type} {step : ρ → ι → Request (Bool × ρ)}
    (each : ∀ r i, Remembers (step r i)) (r : ρ) (items : List ι) :
    Remembers (untilFailure step r items) := by
  induction items generalizing r with
  | nil => exact remembers_pure _
  | cons i rest ih =>
    exact remembers_bind (each r i) fun _ => remembers_ite (ih _) (remembers_pure _)

end Remembering

end Libdank.Requests
