import TableScan.RowKey.Encoding

/-!
# Row keys

What a table is sorted by, and the keys by which its rows are ordered and found.

* `SortOrder` lists the sort columns, the most significant first,
* `KeyLayout` is an order held against the layout of the records that keys are made of: every sort
  column has a position there and the type that the order says,
* `RowKey` is a key, compared byte by byte.
-/

namespace TableScan

/-- The columns that a table is sorted by, the most significant first. -/
structure SortOrder where
  schema : Schema
  deriving DecidableEq, Repr

namespace SortOrder

/-- The order by some columns, at least one and no name twice. -/
def ofColumns (columns : List Column) : LoadResult SortOrder :=
  if columns.isEmpty then .error (.configuration .sortOrderEmpty)
  else (Schema.ofColumns columns).map SortOrder.mk

/-- The order by the columns of a schema with the given names. -/
def ofNames (names : List String) (schema : Schema) : LoadResult SortOrder := do
  let columns ← names.mapM fun name =>
    match schema.find? name with
    | some c => .ok c
    | none => .error (.configuration (.sortColumnUnknown name schema.text))
  ofColumns columns

def columns (s : SortOrder) : List Column := s.schema.columns

def names (s : SortOrder) : List String := s.schema.names

/-- The written form, that of the columns as a schema. -/
def text (s : SortOrder) : String := s.schema.text

end SortOrder

structure RowKey where
  bytes : List UInt8
  deriving DecidableEq, Repr

/-- Keys are compared byte by byte; a key that another one starts with comes first. -/
instance : LT RowKey := ⟨fun a b => a.bytes < b.bytes⟩

instance (a b : RowKey) : Decidable (a < b) := inferInstanceAs (Decidable (a.bytes < b.bytes))

/-- One column of a key layout: where its value stands in a record, and what type the value has. -/
structure KeyField where
  name : String
  type : Primitive
  position : Nat
  deriving DecidableEq, Repr

namespace KeyField

/-- The part for a sort column of records laid out by `layout`. -/
def ofColumn (layout : Schema) (column : Column) : LoadResult KeyField :=
  match column.type.primitive? with
  | none => .error (.configuration (.sortTypeUnsupported column.type.text))
  | some p =>
    match layout.indexOf? column.name, layout.find? column.name with
    | some position, some actual =>
      if actual.type = column.type then .ok ⟨column.name, p, position⟩
      else .error (.configuration
        (.sortColumnRetyped column.name column.type.text actual.type.text))
    | _, _ => .error (.configuration (.sortColumnUnprojected column.name layout.text))

def encode (part : KeyField) (v : Value) : LoadResult (List UInt8) :=
  match RowKey.encodeField? part.type v with
  | some bytes => .ok bytes
  | none => .error (.configuration (.keyType part.name part.type.name v.kind))

end KeyField

/-- Where the parts of a key stand in a record. -/
structure KeyLayout where
  parts : List KeyField
  deriving DecidableEq, Repr

namespace KeyLayout

/-- The layout of an order's keys in records of a schema. -/
def ofOrder (order : SortOrder) (layout : Schema) : LoadResult KeyLayout :=
  (order.columns.mapM (KeyField.ofColumn layout)).map KeyLayout.mk

/-- The layout of an order's keys in tuples that hold just the values of the sort columns. -/
def forTuples (order : SortOrder) : LoadResult KeyLayout := do
  let layout ← Schema.ofColumns order.columns
  ofOrder order layout

def types (g : KeyLayout) : List Primitive := g.parts.map KeyField.type

def keyOfRecord (g : KeyLayout) (record : Record) : LoadResult RowKey := do
  let fields ← g.parts.mapM fun part =>
    match record[part.position]? with
    | some v => part.encode v
    | none =>
      .error (.configuration (.recordTooShort record.length part.name part.position))
  return ⟨fields.flatten⟩

/-- The key of a tuple of values, one for each part. -/
def keyOfTuple (g : KeyLayout) (values : List Value) : LoadResult RowKey :=
  if values.length = g.parts.length then do
    let fields ← (g.parts.zip values).mapM fun (part, v) => part.encode v
    return ⟨fields.flatten⟩
  else .error (.configuration (.keyLength values.length g.parts.length))

end KeyLayout

/-- Whether a table may be sorted by a column of a type. -/
def ColumnType.isSortable (t : ColumnType) : Bool := t.primitive?.isSome

end TableScan
