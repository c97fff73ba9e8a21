import Libdank.Foundation.Requests

/-! Rules for programs on a state that remembers whether something has gone
wrong for good. What is claimed of them is claimed of the runs that are clear at
their end, which were clear all along. -/
namespace Libdank.Requests

variable {σ β γ : Type} {clear : σ → Prop}

/-- A run that ends clear was clear at its start, and `rel` relates the state
before it to the result and the state after it. -/
def Guarded (clear : σ → Prop) (m : StateT σ Request β) (rel : σ → β → σ → Prop) : Prop :=
  ∀ s h, clear (m s h).1.2 → clear s ∧ rel s (m s h).1.1 (m s h).1.2

theorem run_bind (m : StateT σ Request β) (f : β → StateT σ Request γ) (s : σ) (h : Heap) :
    (m >>= f) s h = f (m s h).1.1 (m s h).1.2 (m s h).2 := rfl

theorem guarded_pure {b : β} {rel : σ → β → σ → Prop} (now : ∀ s, rel s b s) :
    Guarded clear (pure b) rel := fun s _ here => ⟨here, now s⟩

theorem guarded_bind {m : StateT σ Request β} {f : β → StateT σ Request γ}
    {mid : σ → β → σ → Prop} {rel : σ → γ → σ → Prop} (first : Guarded clear m mid)
    (rest : ∀ s b, Guarded clear (f b) fun t c u => mid s b t → rel s c u) :
    Guarded clear (m >>= f) rel := by
  intro s h here
  obtain ⟨between, second⟩ := rest s _ _ _ here
  obtain ⟨before, now⟩ := first s h between
  exact ⟨before, second now⟩

theorem guarded_get {f : σ → StateT σ Request β} {rel : σ → β → σ → Prop}
    (rest : ∀ s, Guarded clear (f s) fun t c u => t = s → rel s c u) :
    Guarded clear (get >>= f) rel := by
  intro s h here
  obtain ⟨before, now⟩ := rest s s h here
  exact ⟨before, now rfl⟩

theorem guarded_modify {f : σ → σ} (same : ∀ s, clear (f s) → clear s) :
    Guarded clear (modify f : StateT σ Request Unit) fun s _ t => t = f s :=
  fun s _ here => ⟨same s here, rfl⟩

theorem guarded_request (m : Request β) :
    Guarded clear (liftM m : StateT σ Request β) fun s _ t => t = s :=
  fun _ _ here => ⟨here, rfl⟩

theorem Guarded.imp {m : StateT σ Request β} {rel rel' : σ → β → σ → Prop}
    (h : Guarded clear m rel) (weaker : ∀ s b t, rel s b t → rel' s b t) :
    Guarded clear m rel' := fun s h' here =>
  ⟨(h s h' here).1, weaker _ _ _ (h s h' here).2⟩

end Libdank.Requests
