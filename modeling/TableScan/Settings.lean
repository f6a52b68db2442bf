import TableScan.Json.Reader
import TableScan.Error

/-!
# Settings

The settings that a load shares with its host. The job settings hold everything that anyone has
set; the task settings are what a partition sees, the settings under task keys alone, so that
those of an unrelated load in the same job never reach it.

* `JobSettings.set`, `JobSettings.withTables` write job settings,
* `TaskSettings.ofJob` copies the task settings, `TaskSettings.with?` changes one of the copy,
* `Settings.tablePaths` reads the input tables, a JSON array of paths.
-/

namespace TableScan

/-- The names of the settings that a load uses. -/
inductive SettingKey where
  | inputPaths
  | inputProjection
  | inputSorted
  | strictDirectories
  | logLevel
  deriving DecidableEq, Repr

def SettingKey.name : SettingKey → String
  | .inputPaths => "tableload.input.paths"
  | .inputProjection => "tableload.input.projection"
  | .inputSorted => "tableload.input.sorted"
  | .strictDirectories => "tableload.input.strict.dirs"
  | .logLevel => "tableload.log.level"

/-- What the keys of storage engine settings start with. -/
def engineNamespace : String := "tableload.engine."

/-- The settings that are set, in the order of their keys. -/
structure Settings where
  entries : List (String × String)
  deriving DecidableEq, Repr

namespace Settings

def empty : Settings := ⟨[]⟩

def get? (s : Settings) (key : String) : Option String := Keyed.find? key s.entries

def set (s : Settings) (key value : String) : Settings := ⟨Keyed.insert key value s.entries⟩

def erase (s : Settings) (key : String) : Settings := ⟨Keyed.erase key s.entries⟩

/-- Whether the value under a key is `true`, in any ASCII case. -/
def flag (s : Settings) (key : String) : Bool :=
  match s.get? key with
  | some value => value.toList.map Char.toLower == "true".toList
  | none => false

/-- The list of paths that a setting spells. -/
def pathsOfText? (text : String) : Option (List String) :=
  (Json.Syntax.parse text.toList).bind Json.Syntax.asStrings?

/-- The input tables; none without the setting. -/
def tablePaths (s : Settings) : LoadResult (List String) :=
  match s.get? SettingKey.inputPaths.name with
  | none => .ok []
  | some text =>
    match pathsOfText? text with
    | some paths => .ok paths
    | none => .error (.configuration .inputPathsUnreadable)

/-- The setting that spells some input tables. -/
def textOfPaths (paths : List String) : String := (Json.ofStrings paths).render

def withTables (s : Settings) (paths : List String) : Settings :=
  s.set SettingKey.inputPaths.name (textOfPaths paths)

/-- Settings as a host stores them. -/
def toJson (s : Settings) : Json :=
  .object [("entries", .object (s.entries.map fun e => (e.1, .string e.2)))]

/-- The settings that a text stores, if it is the text of some. -/
def parse? (text : String) : Option Settings := do
  let tree ← Json.Syntax.parse text.toList
  match ← tree.fields? ["entries"] with
  | [entries] => return ⟨← Json.Syntax.required Json.Syntax.asStringMap? entries⟩
  | _ => none

end Settings

/-- Whether partitions see the setting under a key. -/
def reachesTasks (key : String) : Bool :=
  key == SettingKey.inputPaths.name || key == SettingKey.inputSorted.name
    || key == SettingKey.strictDirectories.name || key == SettingKey.logLevel.name
    || engineNamespace.toList.isPrefixOf key.toList

/-- The settings of a job, which anyone may change. -/
structure JobSettings where
  settings : Settings
  deriving DecidableEq, Repr

namespace JobSettings

def empty : JobSettings := ⟨.empty⟩

def set (job : JobSettings) (key value : String) : JobSettings := ⟨job.settings.set key value⟩

def erase (job : JobSettings) (key : String) : JobSettings := ⟨job.settings.erase key⟩

def withTables (job : JobSettings) (paths : List String) : JobSettings :=
  ⟨job.settings.withTables paths⟩

end JobSettings

/-- The settings that a partition sees. -/
structure TaskSettings where
  settings : Settings
  deriving DecidableEq, Repr

namespace TaskSettings

/-- The settings of a job under task keys. -/
def ofJob (job : JobSettings) : TaskSettings :=
  ⟨⟨job.settings.entries.filter fun e => reachesTasks e.1⟩⟩

/-- The task settings with one more, which must be under a task key. -/
def with? (task : TaskSettings) (key value : String) : LoadResult TaskSettings :=
  if reachesTasks key then .ok ⟨task.settings.set key value⟩
  else .error (.configuration (.notTaskKey key))

def withTables (task : TaskSettings) (paths : List String) : LoadResult TaskSettings :=
  task.with? SettingKey.inputPaths.name (Settings.textOfPaths paths)

end TaskSettings

end TableScan
