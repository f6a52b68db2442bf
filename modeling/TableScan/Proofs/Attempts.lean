import TableScan.Proofs.Keeps

/-!
# Calls that may fail, one after another

A component that goes on after a failed call (`Step.runEach`). Where a failing call leaves no trace,
the run comes to the same as the one of the calls that answered alone (`Step.runEach_answered`): the
other calls answer what they answered, and the state at the end is the same.
-/

namespace TableScan.Step

variable {σ α β : Type} {call : α → Step σ β}

/-- Performs a call on each of some inputs, those behind a failing one as well. -/
def runEach (call : α → Step σ β) : List α → σ → List (LoadResult β) × σ
  | [], s => ([], s)
  | a :: rest, s =>
    let outcome := (call a).run s
    let more := runEach call rest outcome.state
    (outcome.result :: more.1, more.2)

/-- Of the inputs that a call is performed on, one after another, those on which it answers. -/
def answered (call : α → Step σ β) : List α → σ → List α
  | [], _ => []
  | a :: rest, s =>
    let outcome := (call a).run s
    let more := answered call rest outcome.state
    if outcome.result.isOk then a :: more else more

/-- A call that fails leaves the state as it was. -/
def FailsStill (step : Step σ α) (s : σ) : Prop :=
  ∀ e, (step.run s).result = .error e → (step.run s).state = s

theorem answered_cons_of_ok {a : α} {b : β} {s : σ} (h : ((call a).run s).result = .ok b)
    (rest : List α) :
    answered call (a :: rest) s = a :: answered call rest ((call a).run s).state := by
  rw [answered, h]
  rfl

theorem answered_cons_of_error {a : α} {e : LoadError} {s : σ}
    (h : ((call a).run s).result = .error e) (rest : List α) :
    answered call (a :: rest) s = answered call rest ((call a).run s).state := by
  rw [answered, h]
  rfl

/-- What every call keeps holds at the end of a run. -/
theorem state_runEach {P : σ → Prop} {inputs : List α} {s : σ}
    (hkeeps : ∀ a ∈ inputs, Keeps P (call a)) (hs : P s) : P (runEach call inputs s).2 := by
  induction inputs generalizing s with
  | nil => exact hs
  | cons a rest ih =>
    obtain ⟨ha, hrest⟩ := List.forall_mem_cons.1 hkeeps
    exact ih hrest (ha s hs)

/-- Calls that fail and leave no trace may be left out: the others answer as they did, and the run
ends in the same state. -/
theorem runEach_answered {inputs : List α} (hstill : ∀ a ∈ inputs, ∀ s, FailsStill (call a) s)
    (s : σ) :
    runEach call (answered call inputs s) s
      = ((runEach call inputs s).1.filter Except.isOk, (runEach call inputs s).2) := by
  induction inputs generalizing s with
  | nil => rfl
  | cons a rest ih =>
    obtain ⟨ha, hstill⟩ := List.forall_mem_cons.1 hstill
    have hmore := ih hstill ((call a).run s).state
    cases hresult : ((call a).run s).result with
    | error e =>
      have hsame := ha s e hresult
      rw [hsame] at hmore
      rw [answered_cons_of_error hresult, hsame, hmore, runEach, hresult, hsame]
      rfl
    | ok b =>
      rw [answered_cons_of_ok hresult, runEach, hmore, runEach, hresult]
      rfl

end TableScan.Step
