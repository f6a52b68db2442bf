import TableScan.Schema.Basic
import TableScan.Step

/-!
# Schema union

Schemas merge by column name: a name of both sides must have one type, and the columns of either
side alone are kept, in the order in which they are first seen.

* `union` gives the schema that two schemas make,
* `absorb` merges another schema into the one that is held, column after column.
-/

namespace TableScan.Schema

/-- The columns of `other` that `s` lacks; fails at the first one that `s` has with another
type. -/
def additions (s : Schema) : List Column → LoadResult (List Column)
  | [] => .ok []
  | c :: rest =>
    match s.find? c.name with
    | some old =>
      -- the column is there already, and its place is that of its first appearance
      if old.type = c.type then additions s rest
      else .error (.columnConflict c.name old.type.text c.type.text none)
    | none =>
      match additions s rest with
      | .ok cs => .ok (c :: cs)
      | .error e => .error e

/-- The schema with the columns of another one merged in. -/
def union (s other : Schema) : LoadResult Schema :=
  match s.additions other.columns with
  | .ok cs => cs.foldlM push s
  | .error e => .error e

def unionOf (schemas : List Schema) : LoadResult Schema := schemas.foldlM union empty

/-! ## Merging in place -/

def add (c : Column) : Step Schema Unit := fun s =>
  match s.push c with
  | .ok s => ⟨.ok (), s, []⟩
  | .error e => ⟨.error e, s, []⟩

/-- Adds columns one after another; those in front of one that is refused stay. -/
def addAll : List Column → Step Schema Unit
  | [] => pure ()
  | c :: rest => do
    add c
    addAll rest

/-- Merges another schema in. Its columns are compared with those that are there before the first
one is added. -/
def absorb (other : Schema) : Step Schema Unit := do
  let s ← Step.get
  let new ← Step.ofResult (s.additions other.columns)
  addAll new

end TableScan.Schema
