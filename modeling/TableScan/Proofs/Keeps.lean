import TableScan.Step

/-!
# What steps keep

An invariant of a component is kept by a step if every state of which it holds is left as such a
state, also where the step fails (`Step.Keeps`). A sequence of steps keeps what its parts keep, so
the invariants of a call are found by going through its steps.
-/

namespace TableScan.Step

variable {σ τ α β : Type} {P : σ → Prop}

/-- A look at the state changes nothing. -/
theorem run_bind_get (next : σ → Step σ β) (s : σ) : (get >>= next).run s = (next s).run s := rfl

/-- A step that starts where `P` holds ends where `P` holds, whatever it answers. -/
def Keeps (P : σ → Prop) (step : Step σ α) : Prop := ∀ s, P s → P (step.run s).state

namespace Keeps

/-- A step that ends where `P` holds may be followed by steps that keep it. -/
theorem bind_of_state {step : Step σ α} {next : α → Step σ β} {s : σ}
    (h : P (step.run s).state) (hnext : ∀ a, Keeps P (next a)) :
    P ((step >>= next).run s).state := by
  rcases hrun : step.run s with ⟨result, s', log⟩
  rw [hrun] at h
  -- a failure ends the sequence where the first step has left it
  cases result with
  | error e =>
    rw [run_bind_error hrun]
    exact h
  | ok a =>
    rw [run_bind_ok hrun]
    exact hnext a s' h

/-- Steps in a row keep what each of them keeps. -/
theorem bind {step : Step σ α} {next : α → Step σ β} (h : Keeps P step)
    (hnext : ∀ a, Keeps P (next a)) : Keeps P (step >>= next) :=
  fun s hs => bind_of_state (h s hs) hnext

/-- What follows a look at the state may use what holds of it. -/
theorem bind_get {next : σ → Step σ β} (h : ∀ s, P s → P ((next s).run s).state) :
    Keeps P (get >>= next) := by
  intro s hs
  rw [run_bind_get]
  exact h s hs

/-- What follows a step that changes nothing starts where that step did. -/
theorem bind_still {step : Step σ α} {next : α → Step σ β} {s : σ}
    (hstill : (step.run s).state = s) (hs : P s)
    (hnext : ∀ a, (step.run s).result = .ok a → P ((next a).run s).state) :
    P ((step >>= next).run s).state := by
  rcases hrun : step.run s with ⟨result, s', log⟩
  obtain rfl : s' = s := by rw [← hstill, hrun]
  -- either way the second step starts where the first one did
  cases result with
  | error e =>
    rw [run_bind_error hrun]
    exact hs
  | ok a =>
    rw [run_bind_ok hrun]
    exact hnext a (by rw [hrun])

theorem pure (a : α) : Keeps P (Pure.pure a : Step σ α) := fun _ hs => hs

theorem ofResult (r : LoadResult α) : Keeps P (Step.ofResult r : Step σ α) := fun _ hs => hs

theorem fail (e : LoadError) : Keeps P (Step.fail e : Step σ α) := fun _ hs => hs

theorem event (e : Log.Event) (fields : List (String × String)) :
    Keeps P (Step.event e fields : Step σ Unit) := fun _ hs => hs

/-- A change keeps what holds behind it. -/
theorem update {change : σ → σ} (h : ∀ s, P s → P (change s)) : Keeps P (Step.update change) := h

end Keeps

end TableScan.Step
