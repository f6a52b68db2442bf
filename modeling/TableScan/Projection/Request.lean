import TableScan.Json.Reader
import TableScan.Text.Blank
import TableScan.Text.Split

/-!
# Field requests

What a host asks for: fields of the current projection by position, maps narrowed to some keys if
it likes. A request is exchanged as JSON and typed in a shorthand, `3` or `1#x|y`.
-/

namespace TableScan

/-- A field that the host asks for. The label is what the host calls it and changes nothing. -/
structure FieldRequest where
  index : Nat
  label : Option String
  subfields : List String
  deriving DecidableEq, Repr

namespace FieldRequest

def ofIndex (index : Nat) (subfields : List String) : FieldRequest := ⟨index, none, subfields⟩

def withLabel (field : FieldRequest) (label : String) : FieldRequest :=
  { field with label := some label }

/-- What follows a leading plus, if there is one. -/
def dropPlus (cs : List Char) : List Char :=
  match cs with
  | '+' :: r => r
  | r => r

/-- The number below `Json.wordBound` that a text spells, a leading plus allowed. -/
def parseIndex? (text : String) : Option Nat :=
  let ds := dropPlus text.toList
  if ds.isEmpty || !ds.all Char.isDigit then none
  else
    let n := Json.Syntax.natOfDigits (ds.map fun c => c.toNat - 48)
    if n < Json.wordBound then some n else none

/-- The request that the shorthand `index#key|key` asks for. No key may be empty once trimmed. -/
def parseShorthand? (text : String) : Option FieldRequest := do
  let (front, keys) := Text.splitFirst '#' text
  let index ← parseIndex? (Text.trimmed front)
  let subfields := match keys with
    | some keys => (Text.split '|' keys).map Text.trimmed
    | none => []
  if subfields.any String.isEmpty then none else some (ofIndex index subfields)

/-- The request as JSON; label and keys are left out when there are none. -/
def toJson (field : FieldRequest) : Json :=
  let label := match field.label with
    | some label => [("alias", Json.string label)]
    | none => []
  let subfields := if field.subfields.isEmpty then []
    else [("subfields", Json.ofStrings field.subfields)]
  .object (("index", Json.ofNat field.index) :: label ++ subfields)

def parse? (text : String) : Option FieldRequest := do
  let tree ← Json.Syntax.parse text.toList
  match ← tree.fields? ["index", "alias", "subfields"] with
  | [index, label, subfields] =>
    return {
      index := ← Json.Syntax.required Json.Syntax.asNat? index
      label := ← Json.Syntax.withDefault none (Json.Syntax.asOptional? Json.Syntax.asString?) label
      subfields := ← Json.Syntax.withDefault [] Json.Syntax.asStrings? subfields }
  | _ => none

end FieldRequest

end TableScan
