import TableScan.Projection.Selector

/-!
# Projections

A projection is a list of selectors that is resolved against a logical schema: every selected
column is there, none twice, and only maps are narrowed to keys. Its own schema has one column for
each selector, in their order.
-/

namespace TableScan

/-- Selectors with the schema that they make of a logical one. -/
structure Projection where
  selectors : List Selector
  schema : Schema
  deriving DecidableEq, Repr

namespace Projection

/-- The projection that selects every column as it is. -/
def identity (logical : Schema) : Projection := ⟨logical.names.map Selector.column, logical⟩

def select (logical : Schema) (selector : Selector) : LoadResult Column :=
  match logical.find? selector.name with
  | none => .error (.planning (.columnUnknown selector.name logical.text))
  | some c =>
    if !selector.subfields.isEmpty && !c.type.isMap then
      .error (.planning (.subfieldsOfNonMap c.name c.type.text none))
    else .ok c

/-- The schema of the selected columns, which must have different names. -/
def schemaOf (columns : List Column) : LoadResult Schema :=
  match Schema.ofColumns columns with
  | .ok schema => .ok schema
  | .error (.parse (.columnRepeated name)) => .error (.planning (.columnRepeated name))
  | .error e => .error e

def resolve (logical : Schema) (selectors : List Selector) : LoadResult Projection := do
  let columns ← selectors.mapM (select logical)
  let schema ← schemaOf columns
  return ⟨selectors, schema⟩

/-- Resolves projection text; text without a selector selects every column. -/
def parse (logical : Schema) (text : String) : LoadResult Projection := do
  let selectors ← Selector.parseAll text
  if selectors.isEmpty then return identity logical
  else resolve logical selectors

def text (p : Projection) : String := Selector.renderAll p.selectors

end Projection

end TableScan
