import Mathlib.Tactic.Common

/-! Runs that may stop. A C function that can fail an assertion returns in `Except (Fault η)`;
a loop without a bound in its text runs on fuel and stops with `stuck` when it is spent.
-/
namespace CandyFs

inductive Fault (η : Type) where
  /-- An `assert` failed or `abort` was called; `note` tells of the state it happened in. -/
  | abort (note : η)
  /-- A loop used up its fuel. -/
  | stuck
  deriving DecidableEq, Repr

def check {η : Type} (note : η) (condition : Prop) [Decidable condition] : Except (Fault η) Unit :=
  if condition then .ok () else .error (.abort note)

section
variable {ε α β : Type}

@[simp] theorem ok_bind (value : α) (next : α → Except ε β) :
    ((Except.ok value : Except ε α) >>= next) = next value := rfl

@[simp] theorem error_bind (fault : ε) (next : α → Except ε β) :
    ((Except.error fault : Except ε α) >>= next) = .error fault := rfl

theorem bind_ok {first : Except ε α} {next : α → Except ε β} {result : β} :
    (first >>= next) = .ok result ↔ ∃ value, first = .ok value ∧ next value = .ok result := by
  cases first <;> simp

end

section
variable {η : Type} {note : η} {condition : Prop} [Decidable condition]

theorem check_ok {result : Unit} : check note condition = .ok result ↔ condition := by
  unfold check
  split <;> simp [*]

theorem check_true (holds : condition) : check note condition = .ok () := check_ok.mpr holds

end

theorem was_down {before after : Bool} (grows : before = true → after = true)
    (down : after = false) : before = false := by
  cases before with
  | false => rfl
  | true => exact absurd (grows rfl) (by simp [down])

abbrev Run := Except (Fault Bool)

section
variable {α β : Type} {flag : Bool} {middle : α → Bool} {after : β → Bool}

/-- The run stops for nothing but a failed assertion, and what it notes only grows. -/
structure Orderly (flag : Bool) (after : α → Bool) (run : Run α) : Prop where
  grows : ∀ result, run = .ok result → flag = true → after result = true
  fault : ∀ fault, run = .error fault → ∃ note, fault = .abort note ∧ (flag = true → note = true)

theorem Orderly.ok {result : α} (grows : flag = true → middle result = true) :
    Orderly flag middle (.ok result) :=
  ⟨fun _ same => Except.ok.inj same ▸ grows,nofun⟩

theorem Orderly.abort {note : Bool} (grows : flag = true → note = true) :
    Orderly flag middle (.error (.abort note)) :=
  ⟨nofun,fun _ same => Except.error.inj same ▸ ⟨note,rfl,grows⟩⟩

theorem Orderly.bind {first : Run α} {next : α → Run β} (one : Orderly flag middle first)
    (two : ∀ value, first = .ok value → Orderly (middle value) after (next value)) :
    Orderly flag after (first >>= next) := by
  cases first with
  | error fault => exact ⟨nofun,fun _ same => Except.error.inj same ▸ one.fault fault rfl⟩
  | ok value =>
    have rest := two value rfl
    rw [ok_bind]
    refine ⟨fun result ran raised => rest.grows result ran (one.grows value rfl raised),
      fun fault ran => ?_⟩
    obtain ⟨note,stopped,grows⟩ := rest.fault fault ran
    exact ⟨note,stopped,fun raised => grows (one.grows value rfl raised)⟩

theorem Orderly.check {condition : Prop} [Decidable condition] :
    Orderly flag (fun _ => flag) (CandyFs.check flag condition) := by
  unfold CandyFs.check
  split
  · exact Orderly.ok id
  · exact Orderly.abort id

theorem Orderly.from {earlier : Bool} {run : Run α} (h : Orderly flag middle run)
    (grows : earlier = true → flag = true) : Orderly earlier middle run where
  grows := fun result ran raised => h.grows result ran (grows raised)
  fault := fun fault ran =>
    (h.fault fault ran).imp fun _ part => ⟨part.1,fun raised => part.2 (grows raised)⟩

/-- The run returns a result with the property, unless what it notes is raised. -/
structure Delivers (after : α → Bool) (good : α → Prop) (run : Run α) : Prop where
  result : ∀ result, run = .ok result → after result = false → good result
  fault : ∀ fault, run = .error fault → fault = .abort true

variable {after' : α → Bool} {good : α → Prop} {good' : β → Prop}

theorem Delivers.ok {result : α} (holds : after' result = false → good result) :
    Delivers after' good (.ok result) :=
  ⟨fun _ same => Except.ok.inj same ▸ holds,nofun⟩

theorem Delivers.start {run : Run α} (total : ∃ result, run = .ok result) :
    Delivers after' (fun _ => True) run := by
  obtain ⟨_,rfl⟩ := total
  exact Delivers.ok fun _ => trivial

theorem Delivers.bind {first : Run α} {next : α → Run β} (one : Delivers middle good first)
    (order : ∀ value, first = .ok value → Orderly (middle value) after (next value))
    (two : ∀ value, first = .ok value → middle value = false → good value →
      Delivers after good' (next value)) : Delivers after good' (first >>= next) := by
  cases first with
  | error fault => exact ⟨nofun,fun _ same => Except.error.inj same ▸ one.fault fault rfl⟩
  | ok value =>
    rw [ok_bind]
    have order := order value rfl
    cases calm : middle value with
    | false => exact two value rfl calm (one.result value rfl calm)
    | true =>
      refine ⟨fun result ran fine => ?_,fun fault ran => ?_⟩
      · rw [order.grows result ran calm] at fine
        cases fine
      · obtain ⟨note,stopped,raised⟩ := order.fault fault ran
        rw [stopped,raised calm]

end

end CandyFs
