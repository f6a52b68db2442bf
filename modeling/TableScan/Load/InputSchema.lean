import TableScan.Table.Engine

/-!
# The logical schema

The one schema that a load shows for all its tables: that of the first table, with the columns of
the others merged in one after another.
-/

namespace TableScan.Load

variable {σ ρ : Type}

/-- The schema with those of more tables merged in. -/
def mergeTables (engine : StorageEngine ρ) (settings : Settings) (schema : Schema) :
    List String → LoadResult Schema
  | [] => .ok schema
  | path :: rest => do
    let next ← engine.schemaOf path settings
    match schema.union next with
    | .ok merged => mergeTables engine settings merged rest
    | .error e => .error (e.inTable path)

def mergedSchema (engine : StorageEngine ρ) (paths : List String) (settings : Settings) :
    LoadResult Schema :=
  match paths with
  | [] => .error (.configuration (.noTable none))
  | first :: rest => do
    let schema ← engine.schemaOf first settings
    mergeTables engine settings schema rest

/-- Looks up the logical schema of the tables at some paths, and reports it. -/
def inputSchema (engine : StorageEngine ρ) (paths : List String) (settings : Settings) :
    Step σ Schema := do
  let schema ← Step.ofResult (mergedSchema engine paths settings)
  Step.event .schemaResolved [("schema", schema.text), ("tables", toString paths.length)]
  return schema

end TableScan.Load
