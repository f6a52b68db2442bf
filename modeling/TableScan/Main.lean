import TableScan.Command.Run

/-!
# The program

Runs a command on what is below the working directory, which is read before the command starts.
Output goes to the standard output, the log and errors to the standard error.
-/

namespace TableScan

/-- The disk with some directory entries, and all below them, at a path. -/
partial def readEntries (entries : Array IO.FS.DirEntry) (path : String) (disk : Disk) :
    IO Disk := do
  let mut disk := disk
  for e in entries do
    let path := Path.join path e.fileName
    if ← e.path.isDir then disk ← readEntries (← e.path.readDir) path (disk.makeDirs path).2
    else
      let bytes := (← IO.FS.readBinFile e.path).toList
      disk := (disk.write path bytes).toOption.getD disk
  return disk

/-- What is below the working directory. -/
def readWorkingDirectory : IO Disk := do
  readEntries (← (← IO.currentDir).readDir) "" .empty

/-- What is shown of arguments that are not run. -/
def Refusal.text : Refusal → String
  | .missingRequired => "error: a required argument is missing"
  | .missingEverything => "error: a command is missing"
  | .unknownCommand => "error: unrecognized command"
  | .unknownArgument => "error: unexpected argument"
  | .help => "usage: schema|plan|scan <location> [--projection P] [--sorted] [--config F] "
    ++ "[--signature S] [--fields F] [--seek JSON] [--limit N]"
  | .version => "0.1.0"
  | .missingValue => "error: an option lacks its value"
  | .malformedValue => "error: invalid value of an option"
  | .repeated => "error: an argument is given twice"
  | .needlessValue => "error: a switch takes no value"

def Refusal.exitCode : Refusal → UInt32
  | .help => 0
  | .version => 0
  | _ => 2

end TableScan

open TableScan

/-- Runs the command that the arguments ask for. -/
def main (args : List String) : IO UInt32 := do
  match Arguments.parse args with
  | .error refusal =>
    if refusal.exitCode = 0 then IO.println refusal.text else IO.eprintln refusal.text
    return refusal.exitCode
  | .ok command =>
    let course := Command.run (← readWorkingDirectory) command
    for line in course.logLines .info do
      IO.eprint (Log.ended line)
    for line in course.output do
      IO.println line
    match course.result with
    | .ok () => return 0
    | .error e =>
      IO.eprintln e.text
      return 1
