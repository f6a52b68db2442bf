import TableScan.Projection.Basic
import TableScan.Projection.Request
import TableScan.Step

/-!
# The choice of a projection

Which projection a load reads with. One chosen for the fields that a host asks for goes before an
explicit one, and that before the whole schema. Once a plan has been handed out the choice is sealed
and nothing in it changes any more.

`ProjectionChoice.choose` is the step that chooses; `chosenText` is the pure part of it.
-/

namespace TableScan

/-- Where the projection in force comes from. -/
inductive ProjectionOrigin where
  | pruned
  | explicit
  | full
  deriving DecidableEq, Repr

def ProjectionOrigin.name : ProjectionOrigin → String
  | .pruned => "pruned"
  | .explicit => "explicit"
  | .full => "full"

/-- The projections of one load. -/
structure ProjectionChoice where
  explicit : Option String
  pruned : Option String
  isSealed : Bool
  deriving DecidableEq, Repr

namespace ProjectionChoice

/-- A projection text that selects something; blank text counts as none. -/
def nonBlank (text : Option String) : Option String := text.filter (!Text.isBlankText ·)

/-- The choice before any request. -/
def ofText (explicit : Option String) : ProjectionChoice := ⟨nonBlank explicit, none, false⟩

/-- The sealed choice of a plan that was handed out. -/
def ofPlan (explicit pruned : Option String) : ProjectionChoice :=
  ⟨nonBlank explicit, nonBlank pruned, true⟩

def origin (p : ProjectionChoice) : ProjectionOrigin :=
  if p.pruned.isSome then .pruned else if p.explicit.isSome then .explicit else .full

/-- The projection text in force; none stands for the whole schema. -/
def effective (p : ProjectionChoice) : Option String := p.pruned.or p.explicit

def projectionOf (logical : Schema) : Option String → LoadResult Projection
  | some text => Projection.parse logical text
  | none => .ok (Projection.identity logical)

def current (p : ProjectionChoice) (logical : Schema) : LoadResult Projection :=
  projectionOf logical p.effective

/-- The schema that a host sees through a projection; it may not be empty. -/
def visibleSchema (logical : Schema) (text : Option String) : LoadResult Schema := do
  let projection ← projectionOf logical text
  if projection.schema.columns.isEmpty then .error (.configuration .projectionEmpty)
  else .ok projection.schema

/-- The selector of a requested field of a projection schema, not asked for before. -/
def selectorOf (schema : Schema) (seen : List Nat) (field : FieldRequest) :
    LoadResult Selector :=
  match schema.columns[field.index]? with
  | none => .error (.planning (.indexUnknown field.index schema.text))
  | some c =>
    -- keys of other columns are refused before repeats, and repeats before what the keys are
    if !c.type.isMap && !field.subfields.isEmpty then
      .error (.planning (.subfieldsOfNonMap c.name c.type.text (some field.index)))
    else if seen.contains field.index then
      .error (.planning (.indexRepeated c.name field.index))
    else match field.subfields.find? (!Selector.isRenderableKey ·) with
      | some key => .error (.planning (.keyUnrenderable key c.name))
      | none => .ok ⟨c.name, field.subfields⟩

/-- The selectors of requested fields, after those at the positions `seen`. -/
def selectorsOf (schema : Schema) (seen : List Nat) :
    List FieldRequest → LoadResult (List Selector)
  | [] => .ok []
  | field :: rest =>
    match selectorOf schema seen field with
    | .error e => .error e
    | .ok selector => (selectorsOf schema (field.index :: seen) rest).map (selector :: ·)

/-- The projection text that selects requested fields from the projection in force. -/
def chosenText (p : ProjectionChoice) (logical : Schema) (requests : List FieldRequest) :
    LoadResult String :=
  if p.isSealed then .error (.state "plan_projection" "Sealed")
  else do
    let projection ← p.current logical
    let selectors ← selectorsOf projection.schema [] requests
    return Selector.renderAll selectors

/-- Chooses the projection of requested fields and puts it in force. No request at all makes the
empty text and changes nothing. -/
def choose (logical : Schema) (requests : List FieldRequest) : Step ProjectionChoice String := do
  let p ← Step.get
  let text ← Step.ofResult (p.chosenText logical requests)
  if !text.isEmpty then
    Step.update fun p => { p with pruned := some text }
    Step.event .projectionPlanned [("projection", text)]
  return text

def sealed (p : ProjectionChoice) : ProjectionChoice := { p with isSealed := true }

end ProjectionChoice

end TableScan
