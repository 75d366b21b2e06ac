import CandyFs.Fault

/-! Runs with a count of certain calls, and what a run has to pay for them. The rules are those of the
potential of a run: what it has at first covers the calls it makes and what it leaves.
-/
namespace CandyFs

/-- A run over a state that returns or stops; the number counts the calls made before that. -/
def Tally (σ ε α : Type) := σ → Nat → Except ε (α × σ) × Nat

namespace Tally
variable {σ ε α β : Type}

instance : Monad (Tally σ ε) where
  pure value := fun state count => (.ok (value,state),count)
  bind first next := fun state count => match first state count with
    | (.ok (value,state),count) => next value state count
    | (.error fault,count) => (.error fault,count)

/-- A run that is not counted. -/
def lift (run : StateT σ (Except ε) α) : Tally σ ε α := fun state count => (run state,count)

/-- A run that counts as a call. -/
def call (run : StateT σ (Except ε) α) : Tally σ ε α := fun state count => (run state,count + 1)

/-- But for the count the one is the other. -/
def Tells (tally : Tally σ ε α) (run : StateT σ (Except ε) α) : Prop :=
  ∀ state count, (tally state count).1 = run state

/-- With `budget` in hand the calls are paid for, and `left` of it is left with a result, of which
`fact` is true. A run that stops does so for one of the reasons in `stops`. -/
structure Pays (stops : ε → Prop) (budget : Nat) (tally : Tally σ ε α) (fact : α → Prop)
    (left : α → Nat) : Prop where
  ok : ∀ state count value state', (tally state count).1 = .ok (value,state') →
    fact value ∧ (tally state count).2 + left value ≤ count + budget
  error : ∀ state count fault, (tally state count).1 = .error fault →
    stops fault ∧ (tally state count).2 ≤ count + budget

section
variable {tally : Tally σ ε α} {run : StateT σ (Except ε) α} {next : α → Tally σ ε β}
  {after : α → StateT σ (Except ε) β} {stops : ε → Prop} {budget budget' : Nat}
  {fact fact' : α → Prop} {left left' : α → Nat} {final : β → Prop} {rest : β → Nat}

theorem bind_apply (state : σ) (count : Nat) : (tally >>= next) state count =
    match tally state count with
    | (.ok (value,state),count) => next value state count
    | (.error fault,count) => (.error fault,count) := rfl

theorem tells_pure (value : α) : Tells (pure value : Tally σ ε α) (pure value) := fun _ _ => rfl

theorem tells_lift (run : StateT σ (Except ε) α) : Tells (lift run) run := fun _ _ => rfl

theorem tells_call (run : StateT σ (Except ε) α) : Tells (call run) run := fun _ _ => rfl

theorem Tells.bind (first : Tells tally run) (second : ∀ value, Tells (next value) (after value)) :
    Tells (tally >>= next) (run >>= after) := by
  intro state count
  rw [bind_apply]
  have same := first state count
  change _ = (run state >>= fun result => after result.1 result.2)
  rw [← same]
  generalize tally state count = out
  rcases out with ⟨fault | ⟨value,state'⟩,count'⟩
  · rfl
  · exact second value state' count'

theorem pays_pure {value : α} (holds : fact value) (enough : left value ≤ budget) :
    Pays stops budget (pure value : Tally σ ε α) fact left where
  ok := by
    rintro state count value' state' ⟨⟩
    exact ⟨holds,Nat.add_le_add_left enough count⟩
  error := fun _ _ _ same => nomatch same

theorem pays_lift (facts : ∀ state value state', run state = .ok (value,state') → fact value)
    (stopped : ∀ state fault, run state = .error fault → stops fault) :
    Pays stops budget (lift run) fact (fun _ => budget) where
  ok := fun state _ value state' ran => ⟨facts state value state' ran,Nat.le_refl _⟩
  error := fun state count fault ran => ⟨stopped state fault ran,Nat.le_add_right count budget⟩

theorem pays_call (stopped : ∀ state fault, run state = .error fault → stops fault) :
    Pays stops (budget + 1) (call run) (fun _ => True) (fun _ => budget) where
  ok := fun _ count _ _ _ => ⟨trivial,by
    change count + 1 + budget ≤ count + (budget + 1)
    omega⟩
  error := fun state count fault ran => ⟨stopped state fault ran,by
    change count + 1 ≤ count + (budget + 1)
    omega⟩

theorem Pays.weaken (pays : Pays stops budget tally fact left) (enough : budget ≤ budget')
    (facts : ∀ value, fact value → fact' value) (less : ∀ value, fact value → left' value ≤ left value) :
    Pays stops budget' tally fact' left' where
  ok := fun state count value state' ran => by
    obtain ⟨holds,covered⟩ := pays.ok state count value state' ran
    have := less value holds
    exact ⟨facts value holds,by omega⟩
  error := fun state count fault ran => by
    obtain ⟨holds,covered⟩ := pays.error state count fault ran
    exact ⟨holds,by omega⟩

theorem Pays.frame (pays : Pays stops budget tally fact left) (more : Nat) :
    Pays stops (budget + more) tally fact (fun value => left value + more) where
  ok := fun state count value state' ran => by
    obtain ⟨holds,covered⟩ := pays.ok state count value state' ran
    exact ⟨holds,by omega⟩
  error := fun state count fault ran => by
    obtain ⟨holds,covered⟩ := pays.error state count fault ran
    exact ⟨holds,by omega⟩

theorem Pays.bind (first : Pays stops budget tally fact left)
    (second : ∀ value, fact value → Pays stops (left value) (next value) final rest) :
    Pays stops budget (tally >>= next) final rest where
  ok := by
    intro state count value state' ran
    rw [bind_apply] at ran ⊢
    have one := first.ok state count
    generalize tally state count = out at ran one ⊢
    rcases out with ⟨_ | ⟨middle,state1⟩,count1⟩
    · cases ran
    · obtain ⟨holds,covered⟩ := one middle state1 rfl
      obtain ⟨final,covered'⟩ := (second middle holds).ok state1 count1 value state' ran
      exact ⟨final,by dsimp only at *; omega⟩
  error := by
    intro state count fault ran
    rw [bind_apply] at ran ⊢
    have one := first.ok state count
    have stopped := first.error state count
    generalize tally state count = out at ran one stopped ⊢
    rcases out with ⟨fault' | ⟨middle,state1⟩,count1⟩
    · cases ran
      exact stopped fault rfl
    · obtain ⟨holds,covered⟩ := one middle state1 rfl
      obtain ⟨final,covered'⟩ := (second middle holds).error state1 count1 fault ran
      exact ⟨final,by dsimp only at *; omega⟩

end

end Tally

end CandyFs
