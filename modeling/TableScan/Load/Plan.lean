import TableScan.Json.Reader
import TableScan.Schema.Grammar
import TableScan.RowKey.Basic

/-!
# Plans

What planning hands to every partition: the tables, the projection, the schema and the sort
columns of one load. Plans travel as JSON; reading one refuses a plan without tables, and a sorted
one without sort columns.
-/

namespace TableScan

/-- The plan of one load. Without a projection text all columns are read. -/
structure LoadPlan where
  consumer : String
  signature : String
  paths : List String
  projection : Option String
  sorted : Bool
  schema : Schema
  sortOrder : Option SortOrder
  deriving DecidableEq, Repr

namespace LoadPlan

/-- What a plan belongs to: the loader and the load. -/
def key (d : LoadPlan) : String × String := (d.consumer, d.signature)

def projectionText (d : LoadPlan) : String := d.projection.getD ""

/-- The plan as JSON; what is not there is left out. -/
def toJson (d : LoadPlan) : Json :=
  let projection := match d.projection with
    | some text => [("projection", Json.string text)]
    | none => []
  let sortOrder := match d.sortOrder with
    | some order => [("sort_spec", Json.string order.text)]
    | none => []
  .object ([("consumer", .string d.consumer), ("signature", .string d.signature),
      ("paths", .ofStrings d.paths)] ++ projection
    ++ [("sorted", .bool d.sorted), ("schema", .string d.schema.text)] ++ sortOrder)

def asSchema? (s : Json.Syntax) : Option Schema :=
  s.asString?.bind fun text => (Schema.parse text).toOption

def ofSyntax? (tree : Json.Syntax) : Option LoadPlan := do
  match ← tree.fields?
      ["consumer", "signature", "paths", "projection", "sorted", "schema", "sort_spec"] with
  | [consumer, signature, paths, projection, sorted, schema, sortOrder] =>
    return {
      consumer := ← Json.Syntax.required Json.Syntax.asString? consumer
      signature := ← Json.Syntax.required Json.Syntax.asString? signature
      paths := ← Json.Syntax.required Json.Syntax.asStrings? paths
      projection :=
        ← Json.Syntax.withDefault none (Json.Syntax.asOptional? Json.Syntax.asString?) projection
      sorted := ← Json.Syntax.required Json.Syntax.asBool? sorted
      schema := ← Json.Syntax.required asSchema? schema
      sortOrder :=
        (← Json.Syntax.withDefault none (Json.Syntax.asOptional? asSchema?) sortOrder).map
          SortOrder.mk }
  | _ => none

/-- Refuses a plan that no partition can run with. -/
def checked (d : LoadPlan) : LoadResult LoadPlan :=
  if d.paths.isEmpty then .error (.configuration (.noTable (some "task descriptor")))
  else if d.sorted && d.sortOrder.isNone then .error (.configuration .planWithoutOrder)
  else .ok d

def parse (text : String) : LoadResult LoadPlan :=
  match (Json.Syntax.parse text.toList).bind ofSyntax? with
  | some d => d.checked
  | none => .error (.configuration .planUnreadable)

end LoadPlan

def Schema.ofJsonText? (text : String) : Option Schema :=
  (Json.Syntax.parse text.toList).bind LoadPlan.asSchema?

/-- The sort order that JSON text holds as a string. Its columns are not checked. -/
def SortOrder.ofJsonText? (text : String) : Option SortOrder :=
  (Schema.ofJsonText? text).map SortOrder.mk

end TableScan
