import TableScan.Configuration
import TableScan.Load.Partition
import TableScan.Load.InputSchema
import TableScan.Location.Resolve
import TableScan.Projection.Choice

/-!
# Loaders

A loader is what a host talks to. On the coordinator it resolves a location, shows the schema,
plans the projection of the fields that the host asks for, and hands out the plan. On a partition
it is made from a plan and reads records.

Calls that change the job settings are steps of the loader and the job together; they may leave
changes in both when they fail.
-/

namespace TableScan

/-- What a load runs on: a storage engine and what the patterns of its locations stand for. -/
structure Backend (ρ : Type) where
  engine : StorageEngine ρ
  files : Location.PathSearch

/-- The tables on a disk as what a load runs on. -/
def Backend.ofDisk (disk : Disk) : Backend TableReader :=
  ⟨StorageEngine.ofDisk disk, disk.root.pathsOf⟩

/-- What a loader offers to its host beyond reading records. -/
inductive Capability where
  | projection
  deriving DecidableEq, Repr

def Capability.name : Capability → String
  | .projection => "PROJECTION"

/-- Estimates of the size of an input. -/
structure SizeEstimate where
  records : Nat
  bytes : Nat
  deriving DecidableEq, Repr

structure Loader (ρ : Type) where
  consumer : String
  strictDirectories : Bool
  sorted : Bool
  signature : Option String
  location : Option String
  paths : List String
  schema : Option Schema
  sortOrder : Option SortOrder
  choice : ProjectionChoice
  partition : Option (Partition ρ)
  deriving Repr

namespace Loader

variable {ρ : Type}

/-! ## Making a loader -/

/-- A loader with an explicit projection; blank text selects every column. -/
def ofProjection (projection : String) : Loader ρ where
  consumer := Configuration.defaultConsumer
  strictDirectories := false
  sorted := false
  signature := none
  location := none
  paths := []
  schema := none
  sortOrder := none
  choice := .ofText (some projection)
  partition := none

def whole : Loader ρ := { ofProjection "" with choice := .ofText none }

/-- A loader that merges its input by key; `word` has to be `sorted`, in any ASCII case. -/
def withSorted (projection word : String) : LoadResult (Loader ρ) :=
  if (Text.trim word.toList).map Char.toLower = "sorted".toList then
    .ok { ofProjection projection with sorted := true }
  else .error (.configuration (.loaderArgument word))

/-- The loader of a list of arguments: a projection, then the word `sorted`. -/
def ofArguments : List String → LoadResult (Loader ρ)
  | [] => .ok whole
  | [projection] => .ok (ofProjection projection)
  | [projection, word] => withSorted projection word
  | args => .error (.configuration (.loaderArgumentCount args.length))

/-- The loader of a partition. Its plan can no longer change. -/
def ofPlan (d : LoadPlan) : Loader ρ where
  consumer := d.consumer
  strictDirectories := false
  sorted := d.sorted
  signature := some d.signature
  location := none
  paths := d.paths
  schema := some d.schema
  sortOrder := d.sortOrder
  choice := .ofPlan none d.projection
  partition := some (.ofPlan d)

def configured (l : Loader ρ) (c : Configuration) : Loader ρ :=
  { l with consumer := c.consumer, strictDirectories := c.strictDirectories }

/-- The loader with the identity of a load, which all its instances share. -/
def signed (l : Loader ρ) (signature : String) : Loader ρ :=
  { l with signature := some signature }

/-! ## What a loader tells -/

/-- The projection text in force; none stands for every column. -/
def projection (l : Loader ρ) : Option String := l.choice.effective

/-- Hosts may ask for fields; there is nothing else that a loader offers. -/
def features : List Capability := [.projection]

/-- The size of an input is not estimated, whatever the location. -/
def statistics (_ : Loader ρ) (_ : String) : Option SizeEstimate := none

/-- No location has columns whose values are told by its directories. -/
def partitionKeys (_ : Loader ρ) (_ : String) : Option (List String) := none

/-! ## Planning -/

variable (backend : Backend ρ)

/-- Whether a location needs no resolution: the plan is out, or it is the one resolved last. -/
def isResolved (l : Loader ρ) (location : String) : Bool :=
  !l.paths.isEmpty && (l.choice.isSealed || l.location == some location)

/-- Resolves a location into tables. What is known of the tables before is forgotten. -/
def resolveTables (location : String) (job : JobSettings) : Step (Loader ρ) Unit := do
  let l ← Step.get
  if l.isResolved location then return ()
  else
    -- another location makes what was looked up for the last one void
    let paths ← Location.resolve backend.files l.strictDirectories location job.settings
    Step.update fun l =>
      { l with location := some location, paths := paths, schema := none, sortOrder := none }

/-- The logical schema, looked up once for a location. -/
def inputSchema (job : JobSettings) : Step (Loader ρ) Schema := do
  let l ← Step.get
  match l.schema with
  | some schema => return schema
  | none =>
    let schema ← Load.inputSchema backend.engine l.paths job.settings
    Step.update fun l => { l with schema := some schema }
    return schema

/-- The sort columns of a sorted load, looked up once for a location. -/
def inputOrder (job : JobSettings) : Step (Loader ρ) Unit := do
  let l ← Step.get
  if l.sorted && l.sortOrder.isNone then
    -- the job may not name the tables yet
    let settings := job.settings.withTables l.paths
    let order ← Step.ofResult (backend.engine.agreedOrder settings none)
    Step.update fun l => { l with sortOrder := some order }

/-- Writes what a loader reads into the job. -/
def announce (l : Loader ρ) : Step JobSettings Unit := do
  Step.update (·.withTables l.paths)
  if l.sorted then Step.update (·.set SettingKey.inputSorted.name "true")
  match l.projection with
  | none => return ()
  | some text =>
    let job ← Step.get
    let job ← Step.ofResult (job.withProjection text)
    Step.update fun _ => job

/-- Resolves a location and announces it in the job. -/
def locate (location : String) : Step (Loader ρ × JobSettings) Unit := do
  let (_, job) ← Step.get
  (resolveTables backend location job).zoom Prod.fst fun l s => (l, s.2)
  let (l, _) ← Step.get
  (announce l).zoom Prod.snd fun job s => (s.1, job)

/-- The schema that the host sees at a location. -/
def schemaAt (location : String) (job : JobSettings) : Step (Loader ρ) Schema := do
  resolveTables backend location job
  let schema ← inputSchema backend job
  inputOrder backend job
  let l ← Step.get
  Step.ofResult (ProjectionChoice.visibleSchema schema l.projection)

def requestFields (fields : List FieldRequest) : Step (Loader ρ) Unit := do
  let l ← Step.get
  match l.schema with
  | none => Step.fail (.state "push_projection" "SchemaUnresolved")
  | some schema =>
    let text ← (ProjectionChoice.choose schema fields).zoom choice fun p l =>
      { l with choice := p }
    Step.event .projectionPushed
      [("fields", toString fields.length), ("projection", text)]

/-- The plan, which from then on does not change. The projection has to resolve. -/
def makePlan (job : JobSettings) : Step (Loader ρ) LoadPlan := do
  let l ← Step.get
  match l.signature with
  | none => Step.fail (.state "task_descriptor" "Unsigned")
  | some signature =>
    if l.paths.isEmpty then Step.fail (.state "task_descriptor" "LocationUnset")
    else
      let schema ← inputSchema backend job
      -- a plan whose projection does not resolve is not handed out
      let _ ← Step.ofResult (ProjectionChoice.visibleSchema schema l.projection)
      inputOrder backend job
      Step.update fun l => { l with choice := l.choice.sealed }
      let l ← Step.get
      return {
        consumer := l.consumer
        signature := signature
        paths := l.paths
        projection := l.projection
        sorted := l.sorted
        schema := schema
        sortOrder := l.sortOrder }

/-! ## Reading -/

def onPartition {α : Type} (operation : String) (step : Step (Partition ρ) α) :
    Step (Loader ρ) α := fun l =>
  match l.partition with
  | none => ⟨.error (.state operation "NoTaskDescriptor"), l, []⟩
  | some it =>
    let r := step it
    ⟨r.result, { l with partition := some r.state }, r.log⟩

/-- Opens the input. A coordinator makes its own plan first. -/
def start (job : JobSettings) : Step (Loader ρ) Unit := do
  let l ← Step.get
  if l.partition.isNone then
    let d ← makePlan backend job
    Step.update fun l => { l with partition := some (.ofPlan d) }
  onPartition "initialize" (Partition.start backend.engine job)

/-- Takes over a reader that the host has opened for a share. -/
def attach (reader : ρ) (share : InputShare) : Step (Loader ρ) Unit :=
  onPartition "bind_reader" (Partition.attach reader share)

variable [RecordReader ρ]

def seekRecord (disk : Disk) (target : Record) : Step (Loader ρ) Unit :=
  onPartition "seek_near" (Partition.seekRecord disk target)

def seekValues (disk : Disk) (values : List Value) : Step (Loader ρ) Unit :=
  onPartition "seek_near" (Partition.seekValues disk values)

def next (disk : Disk) : Step (Loader ρ) (Option Record) :=
  onPartition "next" (Partition.next disk)

def close : Step (Loader ρ) Unit := do
  let l ← Step.get
  if l.partition.isSome then onPartition "close" Partition.close

end Loader

end TableScan
