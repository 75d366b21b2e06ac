import Mathlib.Tactic.Basic

/-! What holds when a call comes to an end. A call that fails promises nothing. -/
namespace CandyFs.Triple

section
variable {σ ε α β : Type}

/-- If the call comes to an end from `s`, with a value and a state, `post` holds of them. -/
def Yields (x : StateT σ (Except ε) α) (s : σ) (post : α → σ → Prop) : Prop :=
  ∀ value s', x s = .ok (value,s') → post value s'

variable {x : StateT σ (Except ε) α} {next : α → StateT σ (Except ε) β} {s : σ} {value : α}
  {mid post : α → σ → Prop} {final : β → σ → Prop} {condition : Prop} [Decidable condition]

theorem Yields.mono (yields : Yields x s mid) (weaker : ∀ value s', mid value s' → post value s') :
    Yields x s post := fun value s' ran => weaker value s' (yields value s' ran)

theorem Yields.pure (holds : post value s) : Yields (pure value : StateT σ (Except ε) α) s post := by
  intro value' s' ran
  cases ran
  exact holds

theorem Yields.done {s' : σ} (ran : x s = .ok (value,s')) (holds : post value s') : Yields x s post := by
  intro value' s'' ran'
  rw [ran] at ran'
  cases ran'
  exact holds

theorem Yields.fails {fault : ε} (ran : x s = .error fault) : Yields x s post := by
  intro value s' ran'
  rw [ran] at ran'
  cases ran'

theorem Yields.bind (first : Yields x s mid)
    (then' : ∀ value s', mid value s' → Yields (next value) s' final) : Yields (x >>= next) s final := by
  intro value s' ran
  change (x s >>= fun result => next result.1 result.2) = _ at ran
  cases called : x s with
  | error fault =>
    rw [called] at ran
    cases ran
  | ok result =>
    rw [called] at ran
    exact then' result.1 result.2 (first result.1 result.2 called) value s' ran

theorem Yields.follow {s' : σ} (ran : x s = .ok (value,s')) (then' : Yields (next value) s' final) :
    Yields (x >>= next) s final := by
  have first : Yields x s fun found s'' => found = value ∧ s'' = s' := .done ran ⟨rfl,rfl⟩
  refine first.bind ?_
  rintro _ _ ⟨rfl,rfl⟩
  exact then'

theorem Yields.ite {y : StateT σ (Except ε) α} (yes : condition → Yields x s post)
    (no : ¬condition → Yields y s post) : Yields (if condition then x else y) s post := by
  split
  · exact yes ‹_›
  · exact no ‹_›

end

end CandyFs.Triple
