import TableScan.Command.Error
import TableScan.Step

/-!
# The course of a command

What a command leaves behind: its result, what it told the log and from what severity on that is
written, and the lines of its output. `Course` is the monad of commands; steps of components enter
it by `Course.perform`.
-/

namespace TableScan

/-- A command that answers `α` or fails, with what it has told and written. The severity is
missing as long as the command sets none. -/
structure Course (α : Type) where
  result : Except CommandError α
  least : Option Log.Severity
  log : List Log.Entry
  output : List String

namespace Course

variable {σ α β : Type}

/-- Goes on with the answer of a command; a failure ends it. The severity that was set last
counts. -/
def andThen (c : Course α) (next : α → Course β) : Course β :=
  match c.result with
  | .error e => ⟨.error e, c.least, c.log, c.output⟩
  | .ok a =>
    let r := next a
    ⟨r.result, r.least.or c.least, c.log ++ r.log, c.output ++ r.output⟩

instance : Monad Course where
  pure a := ⟨.ok a, none, [], []⟩
  bind := andThen

/-- Answers or fails as a result says, and tells nothing. -/
def ofResult (r : Except CommandError α) : Course α := ⟨r, none, [], []⟩

def ofLoad (r : LoadResult α) : Course α := ofResult (r.mapError .load)

/-- Fails since the command was called in a wrong way. -/
def refuse (fault : UsageFault) : Course α := ofResult (.error (.usage fault))

/-- Sets the least severity that is written. -/
def setLeast (least : Log.Severity) : Course Unit := ⟨.ok (), some least, [], []⟩

/-- Writes one line of output. -/
def write (line : String) : Course Unit := ⟨.ok (), none, [], [line]⟩

/-- Performs a step of a component, and gives its answer and its state. -/
def perform (state : σ) (step : Step σ α) : Course (α × σ) :=
  let r := step.run state
  ⟨(r.result.map (·, r.state)).mapError .load, none, r.log, []⟩

/-- The lines that the course writes to the log; `least` counts unless it sets a severity. -/
def logLines (c : Course α) (least : Log.Severity) : List String :=
  Log.lines (c.least.getD least) c.log

end Course

end TableScan
