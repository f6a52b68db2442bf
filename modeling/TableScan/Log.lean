import TableScan.Json.Basic

/-!
# The log

What a load tells about its course. Components report entries beside their results and never read
them back; which of them are written is decided at the edge by a least `Severity`. `Entry.line` is
the one line of JSON that an entry is written as: event, severity, then the fields in the order of
their keys. `ended` puts the newline behind it.
-/

namespace TableScan.Log

/-- How much an entry matters, the least first. -/
inductive Severity where
  | trace
  | info
  | warn
  | error
  deriving DecidableEq, Repr

namespace Severity

def name : Severity → String
  | .trace => "TRACE"
  | .info => "INFO"
  | .warn => "WARN"
  | .error => "ERROR"

def rank : Severity → Nat
  | .trace => 0
  | .info => 1
  | .warn => 2
  | .error => 3

/-- The severity of a configured name, in any ASCII case. -/
def ofName? (name : String) : Option Severity :=
  match String.ofList (name.toList.map Char.toLower) with
  | "trace" => some .trace
  | "info" => some .info
  | "warn" => some .warn
  | "error" => some .error
  | _ => none

end Severity

/-- What happens in the course of a load. -/
inductive Event where
  | locationResolved
  | patternNoMatch
  | notADirectory
  | schemaResolved
  | projectionPlanned
  | projectionPushed
  | readerInitialized
  | readerBound
  | seekComplete
  | partitionExhausted
  | readerClosed
  deriving DecidableEq, Repr

namespace Event

def all : List Event :=
  [.locationResolved, .patternNoMatch, .notADirectory, .schemaResolved, .projectionPlanned,
    .projectionPushed, .readerInitialized, .readerBound, .seekComplete, .partitionExhausted,
    .readerClosed]

def name : Event → String
  | .locationResolved => "LOCATION_RESOLVED"
  | .patternNoMatch => "PATTERN_NO_MATCH"
  | .notADirectory => "NOT_A_DIRECTORY"
  | .schemaResolved => "SCHEMA_RESOLVED"
  | .projectionPlanned => "PROJECTION_PLANNED"
  | .projectionPushed => "PROJECTION_PUSHED"
  | .readerInitialized => "READER_INITIALIZED"
  | .readerBound => "READER_BOUND"
  | .seekComplete => "SEEK_COMPLETE"
  | .partitionExhausted => "PARTITION_EXHAUSTED"
  | .readerClosed => "READER_CLOSED"

def isWarning : Event → Bool
  | .patternNoMatch => true
  | .notADirectory => true
  | _ => false

/-- The severity that an event is reported with. -/
def severity (e : Event) : Severity := if e.isWarning then .warn else .info

end Event

structure Entry where
  severity : Severity
  event : String
  fields : List (String × String)
  deriving DecidableEq, Repr

namespace Entry

def ofEvent (event : Event) (fields : List (String × String)) : Entry :=
  ⟨event.severity, event.name, fields⟩

def passes (least : Severity) (e : Entry) : Bool := least.rank ≤ e.severity.rank

/-- The entry as a JSON object on one line. Fields of one key keep their order. -/
def line (e : Entry) : String :=
  let sorted := e.fields.mergeSort fun a b => decide (a.1 ≤ b.1)
  let members := ("event", e.event) :: ("severity", e.severity.name) :: sorted
  (Json.object (members.map fun m => (m.1, .string m.2))).render

end Entry

/-- The lines written for some entries at a least severity. -/
def lines (least : Severity) (entries : List Entry) : List String :=
  (entries.filter (·.passes least)).map Entry.line

/-- A line with what ends it, as it is written. -/
def ended (line : String) : String := line ++ "\n"

end TableScan.Log
