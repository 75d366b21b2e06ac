import Mathlib.Tactic.Common

/-! Programs that reach a state only through the calls of an interface, and the machines the
calls run on. Two machines whose answers agree in related states cannot be told apart by a
program.
-/
namespace CandyFs.Client

/-- Two runs that end alike: with the same value, in states that `R` relates, or with no value. -/
inductive Alike {σ τ ε δ α : Type} (R : σ → τ → Prop) :
    Except ε (α × σ) → Except δ (α × τ) → Prop where
  | ok {value : α} {s : σ} {t : τ} (related : R s t) : Alike R (.ok (value,s)) (.ok (value,t))
  | error {one : ε} {two : δ} : Alike R (.error one) (.error two)

section
variable {σ τ υ ε δ ζ α β : Type} {R : σ → τ → Prop} {first : Except ε (α × σ)} {second : Except δ (α × τ)}

theorem Alike.bind (one : Alike R first second) {next : α × σ → Except ε (β × σ)}
    {next' : α × τ → Except δ (β × τ)}
    (two : ∀ value s t, second = .ok (value,t) → R s t → Alike R (next (value,s)) (next' (value,t))) :
    Alike R (first >>= next) (second >>= next') := by
  cases one with
  | ok related => exact two _ _ _ rfl related
  | error => exact .error

theorem Alike.mono {R' : σ → τ → Prop} (one : Alike R first second)
    (weaker : ∀ s t, R s t → R' s t) : Alike R' first second := by
  cases one with
  | ok related => exact .ok (weaker _ _ related)
  | error => exact .error

theorem Alike.ok_right {value : α} {t : τ} (one : Alike R first (.ok (value,t) : Except δ (α × τ))) :
    ∃ s, first = .ok (value,s) ∧ R s t := by
  cases one with
  | ok related => exact ⟨_,rfl,related⟩

theorem Alike.twin {R' : υ → τ → Prop} {third : Except ζ (α × υ)} (one : Alike R first second)
    (two : Alike R' third second) : Alike (fun s u => ∃ t, R s t ∧ R' u t) first third := by
  cases one with
  | ok related =>
    obtain ⟨u,same,related'⟩ := two.ok_right
    rw [same]
    exact .ok ⟨_,related,related'⟩
  | error =>
    cases two with
    | error => exact .error

end

variable {Call : Type} (Reply : Call → Type)

/-- A program is its next call with what it does for each reply. -/
inductive Program (α : Type) where
  | done (value : α)
  | fail
  | ask (call : Call) (next : Reply call → Program α)

/-- A machine that answers calls; `stop` is its way to end without a value. -/
structure Machine (σ ε : Type) where
  answer : σ → (call : Call) → Except ε (Reply call × σ)
  stop : σ → ε

variable {Reply} {σ τ υ ε δ ζ α β : Type}

namespace Program

def run (machine : Machine Reply σ ε) : Program Reply α → σ → Except ε (α × σ)
  | .done value,s => .ok (value,s)
  | .fail,s => .error (machine.stop s)
  | .ask call next,s => do
    let (reply,s) ← machine.answer s call
    (next reply).run machine s

def bind : Program Reply α → (α → Program Reply β) → Program Reply β
  | .done value,after => after value
  | .fail,_ => .fail
  | .ask call next,after => .ask call fun reply => (next reply).bind after

theorem run_bind (machine : Machine Reply σ ε) (program : Program Reply α)
    (after : α → Program Reply β) : ∀ s, (program.bind after).run machine s =
      program.run machine s >>= fun r => (after r.1).run machine r.2 := by
  induction program with
  | done value => exact fun s => rfl
  | fail => exact fun s => rfl
  | ask call next ih =>
    intro s
    simp only [bind,run]
    cases machine.answer s call with
    | error fault => rfl
    | ok r => exact ih r.1 r.2

/-- Every call the program makes on the machine is admitted in the state it is made in. -/
def Admitted (machine : Machine Reply σ ε) (admits : σ → Call → Prop) : Program Reply α → σ → Prop
  | .done _,_ => True
  | .fail,_ => True
  | .ask call next,s => admits s call ∧
      ∀ reply s', machine.answer s call = .ok (reply,s') → (next reply).Admitted machine admits s'

section
variable {machine : Machine Reply σ ε} {model : Machine Reply τ δ} {other : Machine Reply υ ζ}
  {R : σ → τ → Prop} {R' : υ → τ → Prop} {admits : τ → Call → Prop}

/-- A machine that answers every admitted call as its model does runs every program as its model
does. -/
theorem run_alike (refines : ∀ s t call, R s t → admits t call →
      Alike R (machine.answer s call) (model.answer t call)) (program : Program Reply α) :
    ∀ s t, R s t → program.Admitted model admits t →
      Alike R (program.run machine s) (program.run model t) := by
  induction program with
  | done value => exact fun s t related _ => .ok related
  | fail => exact fun s t _ _ => .error
  | ask call next ih =>
    intro s t related admitted
    refine (refines s t call related admitted.1).bind fun reply s' t' answered related' => ?_
    exact ih reply s' t' related' (admitted.2 reply t' answered)

theorem run_twin (refines : ∀ s t call, R s t → admits t call →
      Alike R (machine.answer s call) (model.answer t call))
    (refines' : ∀ u t call, R' u t → admits t call →
      Alike R' (other.answer u call) (model.answer t call)) (program : Program Reply α)
    {s : σ} {t : τ} {u : υ} (related : R s t) (related' : R' u t)
    (admitted : program.Admitted model admits t) :
    Alike (fun s u => ∃ t, R s t ∧ R' u t) (program.run machine s) (program.run other u) :=
  (run_alike refines program s t related admitted).twin
    (run_alike refines' program u t related' admitted)

end

end Program

end CandyFs.Client
