import TableScan.Files.Path
import TableScan.Text.Quoted

/-!
# Load errors

Why a load fails. Errors fall into six groups, and the group alone decides how far a failure
reaches: errors of planning stop the whole load before any partition starts, errors of reading or
of a wrong call fail only the partition that meets them.

Every cause has its constructor; `message` and `details` are the only place that words them.
Causes that a storage engine brings from outside come as `LoadError.reported`.
-/

namespace TableScan

/-- How far a failure reaches. -/
inductive Reach where
  | abort
  | taskFailure
  deriving DecidableEq, Repr

def Reach.name : Reach → String
  | .abort => "ABORT"
  | .taskFailure => "TASK_FAILURE"

inductive ErrorGroup where
  | configuration
  | planning
  | schemaUnion
  | parse
  | io
  | state
  deriving DecidableEq, Repr

namespace ErrorGroup

def code : ErrorGroup → String
  | .configuration => "TABLELOAD_CONFIGURATION_ERROR"
  | .planning => "TABLELOAD_PLANNING_ERROR"
  | .schemaUnion => "TABLELOAD_SCHEMA_UNION_ERROR"
  | .parse => "TABLELOAD_PARSE_ERROR"
  | .io => "TABLELOAD_IO_ERROR"
  | .state => "TABLELOAD_STATE_ERROR"

/-- How far the errors of a group reach. -/
def reach : ErrorGroup → Reach
  | .io => .taskFailure
  | .state => .taskFailure
  | _ => .abort

end ErrorGroup

/-- Stands in error texts for what is wrong with JSON text; callers learn only that it cannot be
read. -/
def unreadableJson : String := "<json>"

/-! ## Causes by group -/

/-- What is wrong with the settings, the inputs or the arguments of a load. -/
inductive ConfigurationFault where
  | noTable (context : Option String)
  | sortOrderEmpty
  | sortColumnUnknown (name schema : String)
  | sortColumnUnprojected (name projection : String)
  | sortColumnRetyped (name declared actual : String)
  | sortTypeUnsupported (type : String)
  | keyLength (given expected : Nat)
  | recordTooShort (fields : Nat) (name : String) (position : Nat)
  | keyType (name expected actual : String)
  | tableUnsorted (path : String)
  | tableSortedOtherwise (path actual expected : String)
  | inputSortedOtherwise (actual required : String)
  | seekInUnsortedTable
  | seekInUnsortedLoad
  | rowOutOfOrder (row : Nat) (table : String)
  | planUnreadable
  | planWithoutOrder
  | loaderArgument (text : String)
  | loaderArgumentCount (given : Nat)
  | projectionEmpty
  | inputPathsUnreadable
  | notTaskKey (key : String)
  | configUnreadable (path : String) (cause : FileFault)
  | configMalformed
  | consumerEmpty
  | logLevelUnknown (level : String)
  | inputNotDirectory (path : String)
  deriving DecidableEq, Repr

def ConfigurationFault.message : ConfigurationFault → String
  | .noTable _ => "no table specified"
  | .sortOrderEmpty => "Sort specification has no columns"
  | .sortColumnUnknown name schema => s!"Sort column '{name}' is not in schema '{schema}'"
  | .sortColumnUnprojected name projection =>
    s!"Sort column '{name}' is not part of the projection '{projection}'"
  | .sortColumnRetyped name declared actual =>
    s!"Sort column '{name}' declared {declared} but projected as {actual}"
  | .sortTypeUnsupported type => s!"Unsupported sort column type '{type}'"
  | .keyLength given expected =>
    s!"Key tuple has {given} values, sort key has {expected} columns"
  | .recordTooShort fields name position =>
    s!"Record has {fields} fields, sort column '{name}' is at position {position}"
  | .keyType name expected actual => s!"Sort column '{name}' expects {expected}, got {actual}"
  | .tableUnsorted path => s!"Input table {path} is not sorted"
  | .tableSortedOtherwise path actual expected =>
    s!"Input table {path} is sorted on '{actual}', expected '{expected}'"
  | .inputSortedOtherwise actual required =>
    s!"Input tables are sorted on '{actual}', required '{required}'"
  | .seekInUnsortedTable => "Seek requires a sorted table"
  | .seekInUnsortedLoad => "Seek requires a sorted table load"
  | .rowOutOfOrder row table => s!"Row {row} of sorted table {table} is out of order"
  | .planUnreadable => s!"Invalid task descriptor: {unreadableJson}"
  | .planWithoutOrder => "Sorted task descriptor carries no sort specification"
  | .loaderArgument text => s!"Invalid argument to the table loader constructor: {text}"
  | .loaderArgumentCount given =>
    "Invalid argument to the table loader constructor: expected at most 2 arguments, got "
      ++ toString given
  | .projectionEmpty => "Cannot determine table projection schema"
  | .inputPathsUnreadable => s!"Invalid tableload.input.paths value: {unreadableJson}"
  | .notTaskKey key => s!"'{key}' is not a task environment key"
  | .configUnreadable path cause => s!"Failed to read config '{path}': {cause.message}"
  | .configMalformed => s!"Invalid config JSON: {unreadableJson}"
  | .consumerEmpty => "consumer must not be empty"
  | .logLevelUnknown level =>
    s!"Invalid log_level: '{level}'. Expected trace, info, warn or error."
  | .inputNotDirectory path => s!"Input path {path} is not a directory"

/-- What is wrong with a projection or with the fields asked for. -/
inductive PlanningFault where
  | columnUnknown (name schema : String)
  | subfieldsOfNonMap (name type : String) (index : Option Nat)
  | columnRepeated (name : String)
  | indexUnknown (index : Nat) (schema : String)
  | indexRepeated (name : String) (index : Nat)
  | keyUnrenderable (key column : String)
  deriving DecidableEq, Repr

def PlanningFault.message : PlanningFault → String
  | .columnUnknown name schema => s!"Projected column '{name}' is not in schema '{schema}'"
  | .subfieldsOfNonMap name type none =>
    s!"Subfields requested on non-map column '{name}' of type {type}"
  | .subfieldsOfNonMap name type (some index) =>
    s!"Subfields requested on non-map column '{name}' of type {type} at index {index}"
  | .columnRepeated name => s!"Invalid projection: Duplicate column name '{name}'"
  | .indexUnknown index schema => s!"No column at index {index} of projection schema '{schema}'"
  | .indexRepeated name index => s!"Column '{name}' at index {index} requested more than once"
  | .keyUnrenderable key column =>
    s!"Subfield {Text.quoted key} of map column '{column}' cannot be expressed in a projection"

/-- What is wrong with a text at one of its positions. -/
inductive TextFault where
  | expectedChar (c : Char)
  | expectedName
  | expectedMapKey
  | unknownType (name : String)
  | repeatedColumn (name : String)
  | trailingInput
  | wildcardRun
  | wildcardComponent
  | rangePattern
  deriving DecidableEq, Repr

def TextFault.message : TextFault → String
  | .expectedChar c => s!"expected '{c}'"
  | .expectedName => "expected a name"
  | .expectedMapKey => "expected a map key"
  | .unknownType name => s!"unknown column type '{name}'"
  | .repeatedColumn name => s!"Duplicate column name '{name}'"
  | .trailingInput => "unexpected trailing input"
  | .wildcardRun =>
    "Invalid location pattern: wildcards are either regular `*` or recursive `**`"
  | .wildcardComponent =>
    "Invalid location pattern: recursive wildcards must form a single path component"
  | .rangePattern => "Invalid location pattern: invalid range pattern"

/-- What is wrong with a text or a value that should have had a given form. -/
inductive ParseFault where
  | text (fault : TextFault) (input : String) (offset : Nat)
  | columnRepeated (name : String)
  | valueMistyped (json type : String)
  | valueNotRecord (json : String)
  | recordWidth (fields : Nat) (schema : String) (columns : Nat)
  deriving DecidableEq, Repr

def ParseFault.message : ParseFault → String
  | .text fault _ _ => fault.message
  | .columnRepeated name => s!"Duplicate column name '{name}'"
  | .valueMistyped json type => s!"JSON value {json} is not a valid {type}"
  | .valueNotRecord json => s!"JSON value {json} is not a record array"
  | .recordWidth fields schema columns =>
    s!"record has {fields} fields, schema '{schema}' has {columns}"

/-- What is wrong with a row frame. -/
inductive FrameFault where
  | tooShort (bytes : Nat)
  | truncated (declared available : Nat)
  | checksumMismatch (computed stored : UInt32)
  | invalidPayload
  deriving DecidableEq, Repr

/-- The wording of a frame fault; checksums are shown in hexadecimal. -/
def FrameFault.message : FrameFault → String
  | .tooShort bytes => s!"Frame too short: {bytes} bytes"
  | .truncated declared available =>
    s!"Frame length {declared} exceeds {available} available bytes"
  | .checksumMismatch computed stored =>
    s!"Checksum mismatch: computed 0x{Text.hex 8 computed.toNat}, "
      ++ s!"stored 0x{Text.hex 8 stored.toNat}"
  | .invalidPayload => s!"Invalid row payload: {unreadableJson}"

/-- What goes wrong with files and their contents. -/
inductive IoFault where
  | schemaUnreadable (path : String) (cause : FileFault)
  | sortInfoUnreadable (table : String) (cause : FileFault)
  | rowsUnopened (path : String) (cause : FileFault)
  | headerUnreadable (path : String) (offset : Nat) (cause : FileFault)
  | frameLength (declared : Nat) (path : String) (offset : Nat)
  | frameUnreadable (path : String) (offset : Nat) (cause : FileFault)
  | frame (fault : FrameFault) (path : String) (offset : Nat)
  | rowMalformed (message path : String)
  | directoryUncreated (path : String) (cause : FileFault)
  | unwritten (path : String) (cause : FileFault)
  deriving DecidableEq, Repr

namespace IoFault

def message : IoFault → String
  | .schemaUnreadable path _ => s!"Failed to read table schema: {path}"
  | .sortInfoUnreadable table _ => s!"Failed to read sort info of {table}"
  | .rowsUnopened path _ => s!"Failed to open row file: {path}"
  | .headerUnreadable _ offset _ => s!"Failed to read frame header at offset {offset}"
  | .frameLength declared _ _ => s!"Invalid frame length {declared}"
  | .frameUnreadable _ offset _ => s!"Failed to read frame at offset {offset}"
  | .frame fault _ _ => fault.message
  | .rowMalformed message _ => s!"Malformed row: {message}"
  | .directoryUncreated path _ => s!"Failed to create table directory: {path}"
  | .unwritten path _ => s!"Failed to write {path}"

/-- Where the fault was met. -/
def details : IoFault → Option String
  | .headerUnreadable path _ _ => some path
  | .frameLength _ path offset => some s!"{path} at offset {offset}"
  | .frameUnreadable path _ _ => some path
  | .frame _ path offset => some s!"{path} at offset {offset}"
  | .rowMalformed _ path => some path
  | _ => none

/-- The refusal of the file system behind the fault. -/
def cause : IoFault → Option FileFault
  | .schemaUnreadable _ cause => some cause
  | .sortInfoUnreadable _ cause => some cause
  | .rowsUnopened _ cause => some cause
  | .headerUnreadable _ _ cause => some cause
  | .frameUnreadable _ _ cause => some cause
  | .directoryUncreated _ cause => some cause
  | .unwritten _ cause => some cause
  | _ => none

end IoFault

/-! ## Errors -/

/-- Why a load fails. -/
inductive LoadError where
  | configuration (fault : ConfigurationFault)
  | planning (fault : PlanningFault)
  /-- One column has two types, in the union with the table at `path` if that is known. -/
  | columnConflict (column left right : String) (path : Option String)
  | parse (fault : ParseFault)
  | io (fault : IoFault)
  /-- An operation was called in a state that does not allow it. -/
  | state (operation current : String)
  /-- An error worded by its reporter. -/
  | reported (group : ErrorGroup) (message : String) (details cause : Option String)
  deriving DecidableEq, Repr

namespace LoadError

def group : LoadError → ErrorGroup
  | .configuration _ => .configuration
  | .planning _ => .planning
  | .columnConflict .. => .schemaUnion
  | .parse _ => .parse
  | .io _ => .io
  | .state .. => .state
  | .reported group .. => group

def message : LoadError → String
  | .configuration fault => fault.message
  | .planning fault => fault.message
  | .columnConflict column .. => s!"Column '{column}' has conflicting types"
  | .parse fault => fault.message
  | .io fault => fault.message
  | .state operation current => s!"'{operation}' is not valid in state {current}"
  | .reported _ message .. => message

/-- Where a text is at fault, as error texts show it. -/
def position (input : String) (offset : Nat) : String := s!"offset {offset} in '{input}'"

def details : LoadError → Option String
  | .configuration (.noTable context) => context
  | .columnConflict _ left right none => some s!"{left} vs {right}"
  | .columnConflict _ left right (some path) => some s!"{left} vs {right} ({path})"
  | .parse (.text _ input offset) => some (position input offset)
  | .io fault => fault.details
  | .reported _ _ details _ => details
  | _ => none

/-- The wording of the outside failure behind an error. -/
def cause : LoadError → Option String
  | .io fault => fault.cause.map FileFault.message
  | .reported _ _ _ cause => cause
  | _ => none

/-- A parse error in the words of its reporter, at a position of a text. -/
def reportedAt (message input : String) (offset : Nat) : LoadError :=
  .reported .parse message (some (position input offset)) none

/-- The same error with other details. -/
def withDetails (e : LoadError) (details : String) : LoadError :=
  .reported e.group e.message (some details) e.cause

/-- The error of a union as it is told for the table at a path. -/
def inTable (e : LoadError) (path : String) : LoadError :=
  match e with
  | .columnConflict column left right none => .columnConflict column left right (some path)
  | e =>
    let known := e.details.getD ""
    e.withDetails s!"{known} ({path})"

def reach (e : LoadError) : Reach := e.group.reach

/-- Whether an error stops the whole load. -/
def stopsLoad (e : LoadError) : Bool := e.reach == .abort

def text (e : LoadError) : String :=
  let body := s!"[{e.reach.name}] {e.group.code}: {e.message}"
  match e.details with
  | some details => s!"{body} ({details})"
  | none => body

end LoadError

/-- The result of an operation of a load. -/
abbrev LoadResult (α : Type) := Except LoadError α

end TableScan
