import TableScan.Command.Arguments
import TableScan.Command.Course
import TableScan.Load.Loader

/-!
# Running commands

Each command plays the coordinator: it resolves the location, plans the projection and makes a
plan. `schema` and `plan` show what came of it; `scan` then plays a partition, made from the written
form of the plan, and shows the records, one line of JSON each.
-/

namespace TableScan

namespace Command

/-- The field requests in a list of shorthands between commas. -/
def readFields (text : String) : Except CommandError (List FieldRequest) :=
  let parts := ((Text.split ',' text).map Text.trimmed).filter (!·.isEmpty)
  parts.mapM fun part =>
    match FieldRequest.parseShorthand? part with
    | some field => .ok field
    | none => .error (.usage (.fieldRequest part))

/-- The values of the first sort columns that a JSON array spells. -/
def readSeekValues (text : String) (order : SortOrder) : Except CommandError (List Value) :=
  match Json.parse? text with
  | none => .error (.usage (.seekKeyUnreadable text))
  | some (.array items) =>
    if order.columns.length < items.length then
      .error (.usage (.seekKeyTooLong items.length order.columns.length order.text))
    else
      ((items.zip order.columns).mapM fun ((j, c) : Json × Column) =>
        Value.ofJson c.type j).mapError .load
  | some _ => .error (.usage .seekKeyNoArray)

def response (data : List (String × Json)) : Course Unit :=
  let answer : Json := .object [("status", .string "ok"), ("data", .object data)]
  Course.write answer.sortKeys.render

/-- The loader and the job that the options of a command describe. The configuration decides first
what is logged. -/
def setUp (disk : Disk) (o : CommandOptions) : Course (Loader TableReader × JobSettings) := do
  let config ← match o.config with
    | some path => Course.ofLoad (Configuration.load disk path)
    | none => pure Configuration.default
  let least ← Course.ofLoad config.severity
  Course.setLeast least
  let projection := o.projection.getD ""
  let loader ← if o.sorted then Course.ofLoad (Loader.withSorted projection "sorted")
    else pure (Loader.ofProjection projection)
  return ((loader.configured config).signed o.signature, config.publishIn .empty)

def runSchema (disk : Disk) (o : CommandOptions) : Course Unit := do
  let (loader, job) ← setUp disk o
  let backend := Backend.ofDisk disk
  let (projected, loader) ← Course.perform loader (Loader.schemaAt backend o.location job)
  response [("paths", .ofStrings loader.paths),
    ("schema", .string ((loader.schema.map Schema.text).getD "")),
    ("projection_schema", .string projected.text)]

/-- Resolves the location of a loader for good, and makes the plan. -/
def settle (backend : Backend TableReader) (location : String)
    (loader : Loader TableReader) (job : JobSettings) :
    Course (LoadPlan × Loader TableReader × JobSettings) := do
  let (_, loader, job) ← Course.perform (loader, job) (Loader.locate backend location)
  let (made, loader) ← Course.perform loader (Loader.makePlan backend job)
  return (made, loader, job)

/-- Chooses the projection of requested fields, and shows the plan. -/
def runPlan (disk : Disk) (o : CommandOptions) (fields : String) : Course Unit := do
  let (loader, job) ← setUp disk o
  let backend := Backend.ofDisk disk
  let requests ← Course.ofResult (readFields fields)
  let (_, loader) ← Course.perform loader (Loader.schemaAt backend o.location job)
  let (_, loader) ← Course.perform loader (Loader.requestFields requests)
  let (made, _, _) ← settle backend o.location loader job
  let projection := match made.projection with
    | some text => Json.string text
    | none => Json.null
  response [("projection", projection), ("descriptor", made.toJson)]

/-- The values to seek, which only a sorted plan takes. -/
def valuesToSeek (p : LoadPlan) : Option String → Course (Option (List Value))
  | none => return none
  | some text =>
    match p.sortOrder with
    | some order =>
      if p.sorted then do
        let values ← Course.ofResult (readSeekValues text order)
        return some values
      else Course.refuse .seekUnsorted
    | none => Course.refuse .seekUnsorted

/-- A bound for the records that a loader is still to hand out. -/
def recordBound (disk : Disk) (loader : Loader TableReader) : Nat :=
  let cursors := ((loader.partition.bind Partition.reader).map TableReader.cursors).getD []
  cursors.foldl (fun n s => n + s.pending disk) 0

/-- Shows up to `count` records. A failing read ends the run, and the loader is as it is then. -/
def showRecords (disk : Disk) :
    Nat → Loader TableReader → Course (Option CommandError × Loader TableReader)
  | 0, loader => return (none, loader)
  | count + 1, loader =>
    let r := (Loader.next disk).run loader
    match r.result with
    | .error e => ⟨.ok (some (.load e), r.state), none, r.log, []⟩
    | .ok none => ⟨.ok (none, r.state), none, r.log, []⟩
    | .ok (some record) =>
      Course.andThen ⟨.ok (), none, r.log, [record.toJson.render]⟩ fun _ =>
        showRecords disk count r.state

/-- Reads the records of a location. The partition is closed also after a failing read. -/
def runScan (disk : Disk) (o : CommandOptions) (fields seek : Option String)
    (limit : Option Nat) : Course Unit := do
  let (loader, job) ← setUp disk o
  let backend := Backend.ofDisk disk
  let (_, loader) ← Course.perform loader (Loader.schemaAt backend o.location job)
  let loader ← match fields with
    | some text => do
      let requests ← Course.ofResult (readFields text)
      let (_, loader) ← Course.perform loader (Loader.requestFields requests)
      pure loader
    | none => pure loader
  let (made, _, job) ← settle backend o.location loader job
  let taken ← Course.ofLoad (LoadPlan.parse made.toJson.render)
  let values ← valuesToSeek taken seek
  let (_, partition) ← Course.perform (Loader.ofPlan taken)
    (Loader.start backend job)
  let (_, partition) ← match values with
    | some values => Course.perform partition (Loader.seekValues disk values)
    | none => pure ((), partition)
  let all := recordBound disk partition + 1
  let (failure, partition) ← showRecords disk ((limit.map (min · all)).getD all) partition
  let _ ← Course.perform partition Loader.close
  match failure with
  | some e => Course.ofResult (.error e)
  | none => return ()

def run (disk : Disk) : Command → Course Unit
  | .schema o => runSchema disk o
  | .plan o fields => runPlan disk o fields
  | .scan o fields seek limit => runScan disk o fields seek limit

end Command

end TableScan
