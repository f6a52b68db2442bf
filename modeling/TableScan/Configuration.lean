import TableScan.Settings
import TableScan.Files.Disk
import TableScan.Log
import TableScan.Text.Blank

/-!
# Configuration

The configuration file of a loader: JSON with three optional fields. Loading checks the values;
`Configuration.publishIn` puts those that partitions must see into the job settings.
-/

namespace TableScan

structure Configuration where
  strictDirectories : Bool
  consumer : String
  logLevel : String
  deriving DecidableEq, Repr

namespace Configuration

/-- The identity of a loader without a configured one. -/
def defaultConsumer : String := "tableload::TableLoader"

def default : Configuration := ⟨false, defaultConsumer, "info"⟩

/-- The configuration that JSON text holds; absent fields have the default value. -/
def parse? (text : String) : Option Configuration := do
  let tree ← Json.Syntax.parse text.toList
  match ← tree.fields? ["strict_directories", "consumer", "log_level"] with
  | [strict, consumer, level] =>
    return {
      strictDirectories :=
        ← Json.Syntax.withDefault default.strictDirectories Json.Syntax.asBool? strict
      consumer := ← Json.Syntax.withDefault default.consumer Json.Syntax.asString? consumer
      logLevel := ← Json.Syntax.withDefault default.logLevel Json.Syntax.asString? level }
  | _ => none

def toJson (c : Configuration) : Json :=
  .object [("strict_directories", .bool c.strictDirectories), ("consumer", .string c.consumer),
    ("log_level", .string c.logLevel)]

/-- The least severity that is logged. -/
def severity (c : Configuration) : LoadResult Log.Severity :=
  match Log.Severity.ofName? c.logLevel with
  | some severity => .ok severity
  | none => .error (.configuration (.logLevelUnknown c.logLevel))

/-- The configuration, unless a value of it is refused. -/
def checked (c : Configuration) : LoadResult Configuration :=
  if Text.isBlankText c.consumer then .error (.configuration .consumerEmpty)
  else c.severity.map fun _ => c

/-- Loads the configuration file at a path. -/
def load (disk : Disk) (path : String) : LoadResult Configuration :=
  match disk.readText path with
  | .error cause => .error (.configuration (.configUnreadable path cause))
  | .ok text =>
    match parse? text with
    | none => .error (.configuration .configMalformed)
    | some c => c.checked

def publishIn (c : Configuration) (job : JobSettings) : JobSettings :=
  (job.set SettingKey.strictDirectories.name (toString c.strictDirectories)).set
    SettingKey.logLevel.name c.logLevel

end Configuration

end TableScan
