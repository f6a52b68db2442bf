import TableScan.Error

/-!
# Command errors

Why a command fails: it was called in a wrong way, its output could not be written, or the loader
refused what it was asked for.
-/

namespace TableScan

/-- What a host can tell the failures of commands apart by. -/
inductive CommandErrorGroup where
  | usage
  | io
  | load
  deriving DecidableEq, Repr

def CommandErrorGroup.code : CommandErrorGroup → String
  | .usage => "TABLELOAD_CLI_USAGE_ERROR"
  | .io => "TABLELOAD_CLI_IO_ERROR"
  | .load => "TABLELOAD_CLI_LOAD_FAILED"

/-- What is wrong with the arguments of a command. -/
inductive UsageFault where
  | fieldRequest (text : String)
  | seekKeyUnreadable (text : String)
  | seekKeyNoArray
  | seekKeyTooLong (values columns : Nat) (order : String)
  | seekUnsorted
  deriving DecidableEq, Repr

/-- What is told of a wrong call. -/
def UsageFault.message : UsageFault → String
  | .fieldRequest text => s!"Invalid required field '{text}'"
  | .seekKeyUnreadable text => s!"Invalid seek key '{text}': {unreadableJson}"
  | .seekKeyNoArray => "Seek key must be a JSON array"
  | .seekKeyTooLong values columns order =>
    s!"Seek key has {values} values but the table is sorted on {columns} columns ({order})"
  | .seekUnsorted => "--seek requires --sorted"

/-- Why a command fails. -/
inductive CommandError where
  | usage (fault : UsageFault)
  | load (error : LoadError)
  /-- JSON text could not be written or read. -/
  | json
  /-- An error worded by its reporter. -/
  | reported (group : CommandErrorGroup) (message : String)
  deriving DecidableEq, Repr

namespace CommandError

def group : CommandError → CommandErrorGroup
  | .usage _ => .usage
  | .load _ => .load
  | .json => .io
  | .reported group _ => group

def message : CommandError → String
  | .usage fault => fault.message
  | .load e => e.text
  | .json => s!"JSON error: {unreadableJson}"
  | .reported _ message => message

/-- The line that a failing command writes. -/
def text (e : CommandError) : String := s!"{e.group.code}: {e.message}"

end CommandError

end TableScan
