import TableScan.Files.Disk
import TableScan.Schema.Grammar
import TableScan.RowKey.Basic

/-!
# Tables

A table is a directory with three files: the schema as text, the row frames, and for a sorted
table the names of its sort columns between commas.
-/

namespace TableScan

/-- What a table says about itself. -/
structure Table where
  path : String
  schema : Schema
  sortOrder : Option SortOrder
  deriving DecidableEq, Repr

namespace Table

def schemaPath (dir : String) : String := Path.join dir ".schema"

/-- The file of the sort columns of a table directory. -/
def sortInfoPath (dir : String) : String := Path.join dir ".sortinfo"

def rowFilePath (dir : String) : String := Path.join dir "records.dat"

/-- The names in a list between commas; blank ones are dropped. -/
def namesOfList (text : String) : List String :=
  ((Text.split ',' text).map Text.trimmed).filter (!·.isEmpty)

/-- The sort order that the file of sort columns holds; none without the file. -/
def readSortOrder (disk : Disk) (dir : String) (schema : Schema) :
    LoadResult (Option SortOrder) :=
  match disk.readText (sortInfoPath dir) with
  | .error .notFound => .ok none
  | .error cause => .error (.io (.sortInfoUnreadable dir cause))
  | .ok text => do
    let order ← SortOrder.ofNames (namesOfList text) schema
    -- the columns are only tried out: a type without an order is found here
    let _ ← KeyLayout.forTuples order
    return some order

def openAt (disk : Disk) (dir : String) : LoadResult Table :=
  match disk.readText (schemaPath dir) with
  | .error cause => .error (.io (.schemaUnreadable (schemaPath dir) cause))
  | .ok text => do
    let schema ← Schema.parse text
    let sortOrder ← readSortOrder disk dir schema
    return ⟨dir, schema, sortOrder⟩

def isSorted (t : Table) : Bool := t.sortOrder.isSome

/-- Fails unless a table is sorted by a given order. -/
def checkOrder (order : SortOrder) (t : Table) : LoadResult Unit :=
  match t.sortOrder with
  | none => .error (.configuration (.tableUnsorted t.path))
  | some own =>
    if own = order then .ok ()
    else .error (.configuration (.tableSortedOtherwise t.path own.text order.text))

/-- The sort order that tables share. The first table that is not sorted, or sorted on other columns
than the first one, is the error. -/
def commonOrder : List Table → LoadResult SortOrder
  | [] => .error (.configuration (.noTable none))
  | first :: rest =>
    match first.sortOrder with
    | none => .error (.configuration (.tableUnsorted first.path))
    | some order => do
      rest.forM (checkOrder order)
      return order

end Table

end TableScan
