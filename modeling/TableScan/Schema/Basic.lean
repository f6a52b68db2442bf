import TableScan.Error

/-!
# Schemas

The shape of a table: its columns in order, each with a name and a type. Types are the seven
primitives, maps from strings to values of one type, and nested records.

`Schema.text` is the written form, such as `id:int, tags:map(string)`. A schema that is used has
no column name twice; `Schema.push` is the one way to add a column and keeps this.
-/

namespace TableScan

/-- The types without parts, which are also the types that a table can be sorted by. -/
inductive Primitive where
  | int
  | long
  | float
  | double
  | string
  | bytes
  | bool
  deriving DecidableEq, Repr

namespace Primitive

def all : List Primitive := [.int, .long, .float, .double, .string, .bytes, .bool]

def name : Primitive → String
  | .int => "int"
  | .long => "long"
  | .float => "float"
  | .double => "double"
  | .string => "string"
  | .bytes => "bytes"
  | .bool => "bool"

end Primitive

/-- A name and what stands under it. -/
structure ColumnOf (τ : Type) where
  name : String
  type : τ
  deriving DecidableEq, Repr

/-- The type of a column. -/
inductive ColumnType where
  | primitive (p : Primitive)
  | map (value : ColumnType)
  | record (columns : List (ColumnOf ColumnType))
  deriving Repr

abbrev Column := ColumnOf ColumnType

namespace ColumnType

mutual

/-- Equality of types is decided by their structure. -/
def decEq : (a b : ColumnType) → Decidable (a = b)
  | .primitive p, .primitive q => decidable_of_iff (p = q) (by simp)
  | .map a, .map b =>
    match decEq a b with
    | isTrue h => isTrue (by rw [h])
    | isFalse h => isFalse (by simpa using h)
  | .record as, .record bs =>
    match decEqColumns as bs with
    | isTrue h => isTrue (by rw [h])
    | isFalse h => isFalse (by simpa using h)
  | .primitive _, .map _ => isFalse (by simp)
  | .primitive _, .record _ => isFalse (by simp)
  | .map _, .primitive _ => isFalse (by simp)
  | .map _, .record _ => isFalse (by simp)
  | .record _, .primitive _ => isFalse (by simp)
  | .record _, .map _ => isFalse (by simp)

def decEqColumns : (as bs : List (ColumnOf ColumnType)) → Decidable (as = bs)
  | [], [] => isTrue rfl
  | [], _ :: _ => isFalse (by simp)
  | _ :: _, [] => isFalse (by simp)
  | ⟨n, a⟩ :: as, ⟨m, b⟩ :: bs =>
    match decEq a b, decEqColumns as bs with
    | isTrue ha, isTrue hs =>
      decidable_of_iff (n = m) (by simp [ha, hs])
    | isFalse ha, _ => isFalse (by simp [ha])
    | _, isFalse hs => isFalse (by simp [hs])

end

instance : DecidableEq ColumnType := decEq

/-- The word that the written form of a type starts with. -/
def kind : ColumnType → String
  | .primitive p => p.name
  | .map _ => "map"
  | .record _ => "record"

def isMap : ColumnType → Bool
  | .map _ => true
  | _ => false

def primitive? : ColumnType → Option Primitive
  | .primitive p => some p
  | _ => none

mutual

def chars : ColumnType → List Char
  | .primitive p => p.name.toList
  | .map value => "map(".toList ++ chars value ++ [')']
  | .record columns => "record(".toList ++ columnsChars columns ++ [')']

/-- The written form of columns: name and type with a colon, a comma and a space between two. -/
def columnsChars : List (ColumnOf ColumnType) → List Char
  | [] => []
  | [⟨name, type⟩] => name.toList ++ ':' :: chars type
  | ⟨name, type⟩ :: rest => name.toList ++ ':' :: chars type ++ ", ".toList ++ columnsChars rest

end

def text (t : ColumnType) : String := String.ofList t.chars

end ColumnType

def Column.text (c : Column) : String := String.ofList (ColumnType.columnsChars [c])

/-- The columns of a table, in order. -/
structure Schema where
  columns : List Column
  deriving DecidableEq, Repr

namespace Schema

def empty : Schema := ⟨[]⟩

def text (s : Schema) : String := String.ofList (ColumnType.columnsChars s.columns)

def names (s : Schema) : List String := s.columns.map ColumnOf.name

/-- The first column of a name. -/
def find? (s : Schema) (name : String) : Option Column := s.columns.find? (·.name == name)

def indexOf? (s : Schema) (name : String) : Option Nat := s.columns.findIdx? (·.name == name)

/-- Adds a column at the end, under a name that is not taken. -/
def push (s : Schema) (c : Column) : LoadResult Schema :=
  if (s.indexOf? c.name).isSome then .error (.parse (.columnRepeated c.name))
  else .ok ⟨s.columns ++ [c]⟩

/-- The schema of some columns, which must have different names. -/
def ofColumns (columns : List Column) : LoadResult Schema := columns.foldlM push empty

/-- No name is there twice. -/
def NamesDistinct (s : Schema) : Prop := s.names.Nodup

end Schema

end TableScan
