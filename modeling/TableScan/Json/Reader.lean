import TableScan.Json.Syntax
import TableScan.Keyed

/-!
# Reading JSON

Values from the trees of JSON text. Free values come from `Json.parse?`: numbers and strings are
judged, of repeated keys the last stays, and members stand in key order. Records with fixed fields
are read by `Syntax.fields?`, and their fields by the `as` functions: a repeated field is an
error, members under other names are skipped unjudged, and an array stands for its fields in
order.

Numbers without a fraction and an exponent are integers while they fit 64 bits; all others are
read by `Binary.ofScientific` from as many leading digits as fit 64 bits.

`Json.sortKeys` brings the members of all objects of a value into key order.
-/

namespace TableScan.Json

def wordBound : Nat := 2 ^ 64

namespace Numeral

/-- Extends a number by digits while it stays below `wordBound`; gives also the digits left. -/
def extend (n : Nat) : List Nat → Nat × List Nat
  | [] => (n, [])
  | d :: ds => if n * 10 + d < wordBound then extend (n * 10 + d) ds else (n, d :: ds)

/-- The floating-point value of a numeral; `none` above the range. Digits that no longer fit are
dropped; those before the point count in the exponent. -/
def toDouble? (n : Numeral) : Option Number :=
  let whole := extend 0 n.integer
  let all := extend whole.1 n.fraction
  -- digits behind the point lower the exponent as far as they are used
  let used := n.fraction.length - all.2.length
  let exponent : Int := whole.2.length - used + n.exponent.getD 0
  (Binary.ofScientific all.1 exponent).map fun m =>
    .double (UInt64.ofNat (Binary.double.withSign n.negative m))

/-- The number of a numeral. An integer is one that fits an unsigned word, or a signed word if
it is negative; a negative zero is not an integer. -/
def toNumber? (n : Numeral) : Option Number :=
  let whole := extend 0 n.integer
  if n.fraction.isEmpty && n.exponent.isNone && whole.2.isEmpty then
    if !n.negative then some (.int whole.1)
    else if whole.1 != 0 && whole.1 ≤ 2 ^ 63 then some (.int (-whole.1))
    else n.toDouble?
  else n.toDouble?

end Numeral

/-- One more than the number of arrays and objects that may enclose a value. -/
def depthLimit : Nat := 128

namespace Syntax

mutual

/-- The free value of a tree, inside less than `room` more arrays and objects. -/
def toValue? (room : Nat) : Syntax → Option Json
  | .null => some .null
  | .bool b => some (.bool b)
  | .number n => n.toNumber?.map .number
  | .string content => content.map .string
  | .array items => if room ≤ 1 then none else (toValues? (room - 1) items).map .array
  | .object members =>
    if room ≤ 1 then none
    else (toMembers? (room - 1) members).map fun ms => .object (Keyed.ofList ms)

def toValues? (room : Nat) : List Syntax → Option (List Json)
  | [] => some []
  | s :: rest => do
    let j ← toValue? room s
    let js ← toValues? room rest
    return j :: js

/-- The members of an object, in the order of the text. -/
def toMembers? (room : Nat) : List (Option String × Syntax) → Option (List (String × Json))
  | [] => some []
  | (key, s) :: rest => do
    let k ← key
    let j ← toValue? room s
    let ms ← toMembers? room rest
    return (k, j) :: ms

end

/-! ## Fields of fixed records -/

def asString? : Syntax → Option String
  | .string content => content
  | _ => none

def asBool? : Syntax → Option Bool
  | .bool b => some b
  | _ => none

def asNat? : Syntax → Option Nat
  | .number n => match n.toNumber? with
    | some (.int (.ofNat k)) => some k
    | _ => none
  | _ => none

def asStrings? : Syntax → Option (List String)
  | .array items => items.mapM asString?
  | _ => none

/-- Null as nothing, any other tree by its reader. -/
def asOptional? {α : Type} (read : Syntax → Option α) : Syntax → Option (Option α)
  | .null => some none
  | s => (read s).map some

/-- The tree as settings: an object whose values are strings. -/
def asStringMap? : Syntax → Option (List (String × String))
  | .object members =>
    (members.mapM fun ((key, s) : Option String × Syntax) => do
      let k ← key
      let v ← s.asString?
      return (k, v)).map Keyed.ofList
  | _ => none

/-- The trees of the named fields, in the order of the names; a field may be missing. -/
def fields? (names : List String) : Syntax → Option (List (Option Syntax))
  | .object members => do
    let named ← members.mapM fun ((key, s) : Option String × Syntax) => key.map (·, s)
    names.mapM fun name =>
      match named.filter (·.1 == name) with
      | [] => some none
      | [m] => some (some m.2)
      | _ => none
  | .array items =>
    if items.length ≤ names.length then
      some (items.map some ++ List.replicate (names.length - items.length) none)
    else none
  | _ => none

/-- A field that must be there. -/
def required {α : Type} (read : Syntax → Option α) (field : Option Syntax) : Option α :=
  field.bind read

/-- A field with a value for its absence. -/
def withDefault {α : Type} (absent : α) (read : Syntax → Option α) :
    Option Syntax → Option α
  | none => some absent
  | some s => read s

end Syntax

def parse? (text : String) : Option Json :=
  (Syntax.parse text.toList).bind (Syntax.toValue? depthLimit)

def parseBytes? (bytes : List UInt8) : Option Json := (Text.ofUtf8Bytes? bytes).bind parse?

/-! ## Access to values -/

def asInt64? : Json → Option Int
  | .number (.int n) => if -(2 ^ 63) ≤ n && n < 2 ^ 63 then some n else none
  | _ => none

def asNat? : Json → Option Nat
  | .number (.int (.ofNat n)) => some n
  | _ => none

/-- The value as a floating-point number; integers are rounded to one. -/
def asDouble? : Json → Option UInt64
  | .number (.int n) => some (Binary.ofInt n)
  | .number (.double bits) => some bits
  | _ => none

mutual

/-- The value with the members of all its objects in key order. -/
def sortKeys : Json → Json
  | .array items => .array (sortKeysList items)
  | .object members => .object (Keyed.ofList (sortKeysMembers members))
  | j => j

def sortKeysList : List Json → List Json
  | [] => []
  | j :: rest => sortKeys j :: sortKeysList rest

def sortKeysMembers : List (String × Json) → List (String × Json)
  | [] => []
  | (k, j) :: rest => (k, sortKeys j) :: sortKeysMembers rest

end

end TableScan.Json
