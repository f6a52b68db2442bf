import TableScan.Json.Reader
import TableScan.Schema.Basic

/-!
# Values and records

The values of table fields. A record is the list of a row's field values, in the order of the
columns of some schema. JSON is the form in which rows are stored and shown: it has fewer kinds of
values, so reading it back takes the column types.

* `Value.toJson` and `Record.toJson` write values as JSON; bytes become numbers, records arrays,
  and floating-point values that JSON cannot spell become null,
* `Value.ofJson` and `Record.ofJson` read JSON as values of given types.
-/

namespace TableScan

/-- The value of a field. Floating-point values are held as their bits; the entries of a map stand
in key order. -/
inductive Value where
  | null
  | bool (value : Bool)
  | int (value : Int32)
  | long (value : Int64)
  | float (bits : UInt32)
  | double (bits : UInt64)
  | string (value : String)
  | bytes (value : List UInt8)
  | map (entries : List (String × Value))
  | record (fields : List Value)
  deriving Repr

abbrev Record := List Value

namespace Value

/-- The kind of a value, as error texts name it. -/
def kind : Value → String
  | .null => "null"
  | .bool _ => "bool"
  | .int _ => "int"
  | .long _ => "long"
  | .float _ => "float"
  | .double _ => "double"
  | .string _ => "string"
  | .bytes _ => "bytes"
  | .map _ => "map"
  | .record _ => "record"

def isNull : Value → Bool
  | .null => true
  | _ => false

mutual

def toJson : Value → Json
  | .null => .null
  | .bool b => .bool b
  | .int v => .ofInt v.toInt
  | .long v => .ofInt v.toInt
  | .float bits => .ofDouble (Binary.widen bits)
  | .double bits => .ofDouble bits
  | .string s => .string s
  | .bytes bs => .array (bs.map fun b => .ofNat b.toNat)
  | .map entries => .object (entriesToJson entries)
  | .record fields => .array (fieldsToJson fields)

def entriesToJson : List (String × Value) → List (String × Json)
  | [] => []
  | (k, v) :: rest => (k, toJson v) :: entriesToJson rest

def fieldsToJson : List Value → List Json
  | [] => []
  | v :: rest => toJson v :: fieldsToJson rest

end

/-- The byte that a JSON value spells. -/
def byteOfJson? (j : Json) : Option UInt8 :=
  j.asNat?.bind fun n => if n < 256 then some (UInt8.ofNat n) else none

/-- JSON other than null as a value of a primitive type. Integers count as floating-point values
where such are wanted, and text as its bytes. -/
def primitiveOfJson? : Primitive → Json → Option Value
  | .bool, .bool b => some (.bool b)
  | .int, j =>
    j.asInt64?.bind fun n =>
      if -(2 ^ 31) ≤ n && n < 2 ^ 31 then some (.int (Int32.ofInt n)) else none
  | .long, j => j.asInt64?.map fun n => .long (Int64.ofInt n)
  | .float, j => j.asDouble?.map fun bits => .float (Binary.narrow bits)
  | .double, j => j.asDouble?.map .double
  | .string, .string s => some (.string s)
  | .bytes, .string s => some (.bytes (Text.utf8Bytes s))
  | .bytes, .array items => (items.mapM byteOfJson?).map .bytes
  | _, _ => none

/-- The error of JSON that is no value of a type. -/
def mistyped (j : Json) (type : ColumnType) : LoadError :=
  .parse (.valueMistyped j.render type.kind)

/-- The error of a row with more or fewer fields than there are columns. -/
def wrongWidth (items : List Json) (columns : List Column) : LoadError :=
  .parse (.recordWidth items.length (Schema.text ⟨columns⟩) columns.length)

mutual

/-- JSON as a value of a type; null is a value of every type. -/
def ofJson : ColumnType → Json → LoadResult Value
  | _, .null => .ok .null
  | .primitive p, j =>
    match primitiveOfJson? p j with
    | some v => .ok v
    | none => .error (mistyped j (.primitive p))
  | .map type, .object members =>
    (members.mapM fun ((k, j) : String × Json) => (ofJson type j).map (k, ·)).map .map
  | .map type, j => .error (mistyped j (.map type))
  | .record columns, .array items =>
    if items.length = columns.length then (fieldsOfJson columns items).map .record
    else .error (wrongWidth items columns)
  | .record _, j => .error (.parse (.valueNotRecord j.render))

/-- The items of an array as values of the columns' types, as long as there are both. -/
def fieldsOfJson : List (ColumnOf ColumnType) → List Json → LoadResult (List Value)
  | ⟨_, type⟩ :: columns, j :: items =>
    match ofJson type j with
    | .error e => .error e
    | .ok v => (fieldsOfJson columns items).map (v :: ·)
  | _, _ => .ok []

end

end Value

namespace Record

def toJson (r : Record) : Json := .array (Value.fieldsToJson r)

def ofJson (schema : Schema) (j : Json) : LoadResult Record :=
  match j with
  | .array items =>
    if items.length = schema.columns.length then Value.fieldsOfJson schema.columns items
    else .error (Value.wrongWidth items schema.columns)
  | j => .error (.parse (.valueNotRecord j.render))

end Record

end TableScan
