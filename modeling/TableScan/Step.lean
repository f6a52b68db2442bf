import TableScan.Error
import TableScan.Log

/-!
# Steps

One call of a component that holds state. A step either answers or fails; in both cases it leaves
the component in some state and reports what the log shall tell. Changes made before a failure
stay: where a failing call leaves no trace, that is a property of the call.

`Step σ` is the monad of such calls. `Step.run` performs one, `Step.zoom` lets a component call a
part of itself.
-/

namespace TableScan

/-- What a step leaves behind. -/
structure Outcome (σ α : Type) where
  result : LoadResult α
  state : σ
  log : List Log.Entry

/-- A call of a component with state `σ` that answers `α` or fails. -/
def Step (σ α : Type) : Type := σ → Outcome σ α

namespace Step

variable {σ τ α β : Type}

def run (step : Step σ α) (state : σ) : Outcome σ α := step state

/-- Answers without touching the state. -/
def done (a : α) : Step σ α := fun s => ⟨.ok a, s, []⟩

/-- Goes on with the answer of a step; a failure ends the call, the state as it is then. -/
def andThen (step : Step σ α) (next : α → Step σ β) : Step σ β := fun s =>
  match step s with
  | ⟨.ok a, s', log⟩ =>
    let r := next a s'
    ⟨r.result, r.state, log ++ r.log⟩
  | ⟨.error e, s', log⟩ => ⟨.error e, s', log⟩

instance : Monad (Step σ) where
  pure := done
  bind := andThen

/-- Answers or fails as a result says. -/
def ofResult (r : LoadResult α) : Step σ α := fun s => ⟨r, s, []⟩

/-- Fails and leaves the state. -/
def fail (e : LoadError) : Step σ α := fun s => ⟨.error e, s, []⟩

/-- Answers the state. -/
def get : Step σ σ := fun s => ⟨.ok s, s, []⟩

/-- Changes the state. -/
def update (change : σ → σ) : Step σ Unit := fun s => ⟨.ok (), change s, []⟩

/-- Tells the log one entry. -/
def report (entry : Log.Entry) : Step σ Unit := fun s => ⟨.ok (), s, [entry]⟩

def event (e : Log.Event) (fields : List (String × String)) : Step σ Unit :=
  report (.ofEvent e fields)

/-- A step of a part as one of the whole. -/
def zoom (part : σ → τ) (put : τ → σ → σ) (step : Step τ α) : Step σ α := fun s =>
  let r := step (part s)
  ⟨r.result, put r.state s, r.log⟩

@[simp] theorem run_pure (a : α) (s : σ) : (pure a : Step σ α).run s = ⟨.ok a, s, []⟩ := rfl

@[simp] theorem run_ofResult (r : LoadResult α) (s : σ) :
    (ofResult r : Step σ α).run s = ⟨r, s, []⟩ := rfl

@[simp] theorem run_update (change : σ → σ) (s : σ) :
    (update change).run s = ⟨.ok (), change s, []⟩ := rfl

@[simp] theorem run_report (entry : Log.Entry) (s : σ) :
    (report entry).run s = ⟨.ok (), s, [entry]⟩ := rfl

/-- A step that answers is followed by the next one, in the state it left. -/
theorem run_bind_ok {step : Step σ α} {next : α → Step σ β} {s s' : σ} {a : α}
    {log : List Log.Entry} (h : step.run s = ⟨.ok a, s', log⟩) :
    (step >>= next).run s =
      ⟨((next a).run s').result, ((next a).run s').state, log ++ ((next a).run s').log⟩ := by
  have h' : step s = ⟨.ok a, s', log⟩ := h
  simp only [run, bind, andThen, h']

/-- A step that fails ends the call. -/
theorem run_bind_error {step : Step σ α} {next : α → Step σ β} {s s' : σ} {e : LoadError}
    {log : List Log.Entry} (h : step.run s = ⟨.error e, s', log⟩) :
    (step >>= next).run s = ⟨.error e, s', log⟩ := by
  have h' : step s = ⟨.error e, s', log⟩ := h
  simp only [run, bind, andThen, h']

/-- A call that answers went through all of its steps. -/
theorem exists_of_run_bind {step : Step σ α} {next : α → Step σ β} {s s'' : σ} {b : β}
    {log : List Log.Entry} (h : (step >>= next).run s = ⟨.ok b, s'', log⟩) :
    ∃ a s' log₁ log₂, step.run s = ⟨.ok a, s', log₁⟩ ∧ (next a).run s' = ⟨.ok b, s'', log₂⟩ := by
  cases hstep : step.run s with
  | mk result s' log₁ =>
    cases result with
    | error e =>
      rw [run_bind_error hstep] at h
      cases h
    | ok a =>
      rw [run_bind_ok hstep] at h
      cases hnext : (next a).run s' with
      | mk result s₂ log₂ =>
        rw [hnext] at h
        obtain ⟨rfl, rfl, -⟩ := Outcome.mk.inj h
        exact ⟨a, s', log₁, log₂, rfl, hnext⟩

end Step

end TableScan
