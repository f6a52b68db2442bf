import TableScan.Settings
import TableScan.Location.Glob
import TableScan.Location.Patterns
import TableScan.Step

/-!
# Locations: resolution

A location names the tables of a load. Its patterns are expanded one after another, and the
directories among what they stand for are the tables, repeats kept. Patterns that stand for
nothing, and paths that are no directories, are reported; a strict resolution fails at the latter,
and every resolution fails without a table.
-/

namespace TableScan.Location

/-- The paths that a pattern stands for. -/
abbrev PathSearch := String → LoadResult (List FoundPath)

variable {σ : Type}

/-- The directories among the paths of a pattern. -/
def directories (strict : Bool) (pattern : String) : List FoundPath → Step σ (List String)
  | [] => return []
  | p :: rest => do
    if p.isDir then
      let more ← directories strict pattern rest
      return p.path :: more
    else if strict then
      Step.fail (.configuration (.inputNotDirectory p.path))
    else
      Step.event .notADirectory [("path", p.path), ("pattern", pattern)]
      directories strict pattern rest

def tablesOf (files : PathSearch) (strict : Bool) (pattern : String) :
    Step σ (List String) := do
  let found ← Step.ofResult (files pattern)
  if found.isEmpty then
    Step.event .patternNoMatch [("pattern", pattern)]
    return []
  else directories strict pattern found

/-- The tables of patterns, in their order. -/
def tablesOfAll (files : PathSearch) (strict : Bool) : List String → Step σ (List String)
  | [] => return []
  | pattern :: rest => do
    let tables ← tablesOf files strict pattern
    let more ← tablesOfAll files strict rest
    return tables ++ more

/-- The tables of a location. The resolution is strict if either the caller or the settings
ask for it. -/
def resolve (files : PathSearch) (strict : Bool) (location : String) (settings : Settings) :
    Step σ (List String) := do
  let strict := strict || settings.flag SettingKey.strictDirectories.name
  let tables ← tablesOfAll files strict (patterns location)
  if tables.isEmpty then Step.fail (.configuration (.noTable (some location)))
  else
    Step.event .locationResolved
      [("location", location), ("tables", toString tables.length)]
    return tables

end TableScan.Location
