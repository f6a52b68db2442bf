import Mathlib
import TableScan.Load.Partition
import TableScan.Proofs.Reader.Pushdown
import TableScan.Proofs.Settings

/-!
# What a partition takes from its job

A partition is started with the settings of a job that other loads have written to as well. Two
starts are compared here, of one plan under two jobs, and all calls that may follow.

`Alike` is the relation behind it: two steps do the same, up to the task settings that a partition
keeps. Every call of a partition is alike to itself, as none looks at these settings again, and two
starts are alike where the settings of both say the same about the input.

Main statement: sorted plans take nothing from the job; a plan that is not sorted takes from it
whether the input is merged by key, and nothing else (`course_eq_iff`).
-/

namespace TableScan

/-! ## Task settings -/

/-- Two settings that say the same about the input: its tables, and whether it is merged. -/
structure Settings.SameInput (s t : Settings) : Prop where
  tables : s.tablePaths = t.tablePaths
  merged : StorageEngine.wantsSorted s = StorageEngine.wantsSorted t

namespace Partition

/-- Settings that say so want the input merged. -/
theorem wantsSorted_set_true (s : Settings) :
    StorageEngine.wantsSorted (s.set SettingKey.inputSorted.name "true") = true := by
  show Settings.flag _ _ = true
  unfold Settings.flag
  rw [Settings.get?_set_self]
  decide

/-- A partition always has task settings. The tables in them are those of the plan, and the input is
merged if the plan is sorted or the job says so. -/
theorem exists_settingsFor (d : LoadPlan) (job : JobSettings) :
    ∃ task, settingsFor d job = .ok task
      ∧ task.settings.tablePaths = (Settings.empty.withTables d.paths).tablePaths
      ∧ StorageEngine.wantsSorted task.settings
        = (d.sorted || StorageEngine.wantsSorted job.settings) := by
  have hsortedKey : reachesTasks SettingKey.inputSorted.name = true := by decide
  have hkeys : SettingKey.inputSorted.name ≠ SettingKey.inputPaths.name := by decide
  let withPaths : Settings := (TaskSettings.ofJob job).settings.withTables d.paths
  have hput : (TaskSettings.ofJob job).withTables d.paths = .ok ⟨withPaths⟩ :=
    TaskSettings.withTables_eq_ok _ _
  have htables : withPaths.tablePaths = (Settings.empty.withTables d.paths).tablePaths :=
    (Settings.tablePaths_withTables _ _).trans (Settings.tablePaths_withTables _ _).symm
  -- naming the tables leaves what the job said about merging
  have hjob : withPaths.get? SettingKey.inputSorted.name
      = job.settings.get? SettingKey.inputSorted.name := by
    have hset : withPaths.get? SettingKey.inputSorted.name
        = (TaskSettings.ofJob job).settings.get? SettingKey.inputSorted.name :=
      Settings.get?_withTables_of_ne hkeys _ _
    rw [hset, TaskSettings.get?_ofJob hsortedKey]
  cases hsorted : d.sorted with
  | false =>
    refine ⟨⟨withPaths⟩, ?_, ?_, ?_⟩
    · unfold settingsFor
      rw [hput, hsorted]
      rfl
    · exact htables
    · rw [Bool.false_or]
      exact Settings.flag_congr hjob
  | true =>
    refine ⟨⟨withPaths.set SettingKey.inputSorted.name "true"⟩, ?_, ?_, ?_⟩
    · have hflag : TaskSettings.with? ⟨withPaths⟩ SettingKey.inputSorted.name "true"
          = .ok ⟨withPaths.set SettingKey.inputSorted.name "true"⟩ := by
        unfold TaskSettings.with?
        rw [if_pos hsortedKey]
      unfold settingsFor
      rw [hput, hsorted]
      exact hflag
    · have hother : (withPaths.set SettingKey.inputSorted.name "true").get?
          SettingKey.inputPaths.name = withPaths.get? SettingKey.inputPaths.name :=
        Settings.get?_set_of_ne (Ne.symm hkeys) _ _
      exact (Settings.tablePaths_congr hother).trans htables
    · rw [Bool.true_or]
      exact wantsSorted_set_true withPaths

end Partition

namespace StorageEngine

variable {disk : Disk} {s t : Settings}

/-- The engine reads nothing else in the settings than what they say about the input. -/
theorem openInput_congr (h : s.SameInput t) (text : String) :
    (ofDisk disk).openInput s text = (ofDisk disk).openInput t text := by
  show (s.tablePaths >>= fun paths => readerOf disk paths (wantsSorted s) text)
    = (t.tablePaths >>= fun paths => readerOf disk paths (wantsSorted t) text)
  rw [h.tables, h.merged]

/-- Agreeing on an order looks at the tables only. -/
theorem agreedOrder_congr (h : s.SameInput t) (required : Option SortOrder) :
    (ofDisk disk).agreedOrder s required = (ofDisk disk).agreedOrder t required := by
  show agreedOrderIn disk s required = agreedOrderIn disk t required
  unfold agreedOrderIn inputTables
  rw [h.tables]

end StorageEngine

namespace Partition

variable {ρ α β : Type}

/-! ## Steps that are alike -/

/-- The partition with other task settings. -/
def withTask (task : Option TaskSettings) (it : Partition ρ) : Partition ρ :=
  { it with task := task }

@[simp] theorem plan_withTask (it : Partition ρ) (task : Option TaskSettings) :
    (it.withTask task).plan = it.plan := rfl

@[simp] theorem state_withTask (it : Partition ρ) (task : Option TaskSettings) :
    (it.withTask task).state = it.state := rfl

@[simp] theorem reader_withTask (it : Partition ρ) (task : Option TaskSettings) :
    (it.withTask task).reader = it.reader := rfl

@[simp] theorem sortOrder_withTask (it : Partition ρ) (task : Option TaskSettings) :
    (it.withTask task).sortOrder = it.sortOrder := rfl

@[simp] theorem tupleKeys_withTask (it : Partition ρ) (task : Option TaskSettings) :
    (it.withTask task).tupleKeys = it.tupleKeys := rfl

/-- Two steps do the same, from states that differ in the task settings alone, and leave such
states. -/
def Alike (x y : Step (Partition ρ) α) : Prop :=
  ∀ it task, ∃ task', y.run (it.withTask task)
    = ⟨(x.run it).result, (x.run it).state.withTask task', (x.run it).log⟩

namespace Alike

/-- Alike steps followed by alike steps are alike. -/
theorem bind {x y : Step (Partition ρ) α} {f g : α → Step (Partition ρ) β} (h : Alike x y)
    (hf : ∀ a, Alike (f a) (g a)) : Alike (x >>= f) (y >>= g) := by
  intro it task
  obtain ⟨task', hy⟩ := h it task
  rcases hx : x.run it with ⟨result, it', log⟩
  rw [hx] at hy
  cases result with
  | error e =>
    refine ⟨task', ?_⟩
    rw [Step.run_bind_error hx, Step.run_bind_error hy]
  | ok a =>
    obtain ⟨task'', hg⟩ := hf a it' task'
    refine ⟨task'', ?_⟩
    rw [Step.run_bind_ok hx, Step.run_bind_ok hy, hg]

/-- What follows a look at the state may use all of it but the task settings. -/
theorem bind_get {f g : Partition ρ → Step (Partition ρ) β}
    (h : ∀ it task, Alike (f it) (g (it.withTask task))) :
    Alike (Step.get >>= f) (Step.get >>= g) := by
  intro it task
  have hx : (Step.get : Step (Partition ρ) _).run it = ⟨.ok it, it, []⟩ := rfl
  have hy : (Step.get : Step (Partition ρ) _).run (it.withTask task)
      = ⟨.ok (it.withTask task), it.withTask task, []⟩ := rfl
  -- both parts see their own state, and go on from it
  obtain ⟨task', hg⟩ := h it task it task
  refine ⟨task', ?_⟩
  rw [Step.run_bind_ok hx, Step.run_bind_ok hy, hg]

theorem pure (a : α) : Alike (Pure.pure a : Step (Partition ρ) α) (Pure.pure a) :=
  fun _ task => ⟨task, rfl⟩

theorem ofResult (r : LoadResult α) :
    Alike (Step.ofResult r : Step (Partition ρ) α) (Step.ofResult r) :=
  fun _ task => ⟨task, rfl⟩

theorem fail (e : LoadError) : Alike (Step.fail e : Step (Partition ρ) α) (Step.fail e) :=
  fun _ task => ⟨task, rfl⟩

theorem event (e : Log.Event) (fields : List (String × String)) :
    Alike (Step.event e fields : Step (Partition ρ) Unit) (Step.event e fields) :=
  fun _ task => ⟨task, rfl⟩

/-- A change that is the same up to the task settings. -/
theorem update {change change' : Partition ρ → Partition ρ}
    (h : ∀ it task, ∃ task', change' (it.withTask task) = (change it).withTask task') :
    Alike (Step.update change) (Step.update change') := by
  intro it task
  obtain ⟨task', hchange⟩ := h it task
  refine ⟨task', ?_⟩
  rw [Step.run_update, Step.run_update, hchange]

end Alike

/-! ## Calls -/

theorem alike_allowIn (operation : String) (allowed : List PartitionState) :
    Alike (allowIn operation allowed : Step (Partition ρ) Unit) (allowIn operation allowed) := by
  refine Alike.bind_get fun it task => ?_
  rw [state_withTask]
  by_cases hallowed : allowed.contains it.state = true
  · rw [if_pos hallowed]
    exact Alike.pure ()
  · rw [if_neg hallowed]
    exact Alike.fail _

theorem alike_enter (state : PartitionState) :
    Alike (enter state : Step (Partition ρ) Unit) (enter state) :=
  Alike.update fun _ task => ⟨task, rfl⟩

theorem alike_adoptOrder (order : SortOrder) :
    Alike (adoptOrder order : Step (Partition ρ) Unit) (adoptOrder order) :=
  (Alike.ofResult _).bind fun _ => Alike.update fun _ task => ⟨task, rfl⟩

/-- Work on a reader does not see the settings. -/
theorem alike_onReader (reader : ρ) (step : Step ρ α) :
    Alike (onReader reader step) (onReader reader step) :=
  fun _ task => ⟨task, rfl⟩

/-- A seek needs the order and the reader of a partition, and fails alike without them. -/
theorem alike_seekParts :
    Alike (seekParts : Step (Partition ρ) (SortOrder × ρ)) seekParts := by
  refine Alike.bind_get fun it task => ?_
  rw [sortOrder_withTask, reader_withTask, state_withTask]
  cases it.sortOrder with
  | none => exact Alike.fail _
  | some order =>
    cases it.reader with
    | none => exact Alike.fail _
    | some reader => exact Alike.pure _

variable [RecordReader ρ] {disk : Disk}

/-- A seek goes by the key, the reader and the plan. -/
theorem alike_seekTo (reader : ρ) (key : RowKey) :
    Alike (seekTo disk reader key) (seekTo disk reader key) := by
  refine (alike_onReader reader _).bind fun _ => Alike.bind_get fun it task => ?_
  exact (Alike.event _ _).bind fun _ => alike_enter _

theorem alike_seekRecord (target : Record) :
    Alike (seekRecord disk target : Step (Partition ρ) Unit) (seekRecord disk target) := by
  refine (alike_allowIn _ _).bind fun _ => alike_seekParts.bind fun parts => ?_
  refine (Alike.ofResult _).bind fun keys => (Alike.ofResult _).bind fun key => ?_
  exact alike_seekTo parts.2 key

theorem alike_seekValues (values : List Value) :
    Alike (seekValues disk values : Step (Partition ρ) Unit) (seekValues disk values) := by
  refine (alike_allowIn _ _).bind fun _ => alike_seekParts.bind fun parts => ?_
  refine Alike.bind_get fun it task => ?_
  rw [tupleKeys_withTask]
  cases it.tupleKeys with
  | none => exact Alike.fail _
  | some keys => exact (Alike.ofResult _).bind fun key => alike_seekTo parts.2 key

theorem alike_advance (reader : ρ) :
    Alike (advance disk reader) (advance disk reader) := by
  refine (alike_onReader reader _).bind fun record => ?_
  cases record with
  | some record =>
    refine (Alike.update fun _ task => ⟨task, rfl⟩).bind fun _ => ?_
    exact (alike_enter _).bind fun _ => Alike.pure _
  | none =>
    refine Alike.bind_get fun it task => (Alike.event _ _).bind fun _ => ?_
    exact (alike_enter _).bind fun _ => Alike.pure _

/-- Taking a record goes by the state and the reader. -/
theorem alike_next : Alike (next disk : Step (Partition ρ) (Option Record)) (next disk) := by
  refine Alike.bind_get fun it task => ?_
  -- neither is a task setting
  rw [state_withTask, reader_withTask]
  by_cases hend : it.state = .exhausted
  · rw [if_pos hend]
    exact Alike.pure none
  · rw [if_neg hend]
    refine (alike_allowIn _ _).bind fun _ => ?_
    cases it.reader with
    | none => exact Alike.fail _
    | some reader => exact alike_advance reader

theorem alike_release :
    Alike (release : Step (Partition ρ) Unit) (release : Step (Partition ρ) Unit) := by
  intro it task
  refine ⟨task, ?_⟩
  unfold release
  simp only [Step.run, reader_withTask]
  cases it.reader with
  | none => rfl
  | some reader => rfl

/-- Closing releases the reader and keeps the settings as they are. -/
theorem alike_close :
    Alike (close : Step (Partition ρ) Unit) (close : Step (Partition ρ) Unit) := by
  refine Alike.bind_get fun it task => ?_
  rw [state_withTask, plan_withTask]
  by_cases hclosed : it.state = .closed
  · rw [if_pos hclosed]
    exact Alike.pure ()
  · rw [if_neg hclosed]
    exact (alike_enter _).bind fun _ => alike_release.bind fun _ => Alike.event _ _

end Partition

/-! ## Runs -/

/-- A call of a partition after its start. -/
inductive PartitionCall where
  | seekRecord (target : Record)
  | seekValues (values : List Value)
  | next
  | close

namespace Partition

section

variable {ρ : Type} [RecordReader ρ] {disk : Disk}

/-- Performs a call. Only taking a record answers one. -/
def perform (disk : Disk) : PartitionCall → Step (Partition ρ) (Option Record)
  | .seekRecord target => do
    seekRecord disk target
    return none
  | .seekValues values => do
    seekValues disk values
    return none
  | .next => next disk
  | .close => do
    close
    return none

/-- The answers of calls one after another; a call that fails is answered too, and the next one goes
on from there. -/
def answers (disk : Disk) (it : Partition ρ) (calls : List PartitionCall) :
    List (LoadResult (Option Record)) :=
  (Step.runEach (perform disk) calls it).1

/-- No call looks at the task settings again. -/
theorem alike_perform (call : PartitionCall) :
    Alike (perform disk call : Step (Partition ρ) _) (perform disk call) := by
  cases call with
  | seekRecord target => exact (alike_seekRecord target).bind fun _ => Alike.pure none
  | seekValues values => exact (alike_seekValues values).bind fun _ => Alike.pure none
  | next => exact alike_next
  | close => exact alike_close.bind fun _ => Alike.pure none

/-- The task settings that a partition keeps show in no answer. -/
theorem answers_withTask (it : Partition ρ) (task : Option TaskSettings)
    (calls : List PartitionCall) :
    answers disk (it.withTask task) calls = answers disk it calls := by
  induction calls generalizing it task with
  | nil => rfl
  | cons call calls ih =>
    have halike : Alike (perform disk call : Step (Partition ρ) _) (perform disk call) :=
      alike_perform call
    -- the first answer is the same, and the states behind it differ in the settings again
    obtain ⟨task', hcall⟩ := halike it task
    show ((perform disk call).run (it.withTask task)).result
        :: answers disk ((perform disk call).run (it.withTask task)).state calls = _
    rw [hcall, ih]
    rfl

end

/-- A partition of a plan from its start under a job on: what the start answers, and what the calls
after it answer. -/
def course (disk : Disk) (plan : LoadPlan) (job : JobSettings) (calls : List PartitionCall) :
    LoadResult Unit × List (LoadResult (Option Record)) :=
  let started := (start (StorageEngine.ofDisk disk) job).run (ofPlan plan)
  (started.result, answers disk started.state calls)

variable {disk : Disk} {plan : LoadPlan} {job j₁ j₂ : JobSettings}

/-- A start once the task settings are there. -/
def openWith (engine : StorageEngine TableReader) (d : LoadPlan) (task : TaskSettings) :
    Step (Partition TableReader) Unit := do
  if d.sorted then
    let order ← Step.ofResult (engine.agreedOrder task.settings d.sortOrder)
    adoptOrder order
  let reader ← Step.ofResult (engine.openInput task.settings d.projectionText)
  Step.event .readerInitialized
    [("projection", d.projectionText), ("signature", d.signature), ("sorted", word d.sorted),
      ("tables", toString d.paths.length)]
  Step.update fun it => { it with task := some task, reader := some reader }
  enter .initialized

/-- A start fails only behind the task settings, which it always gets. -/
theorem run_start {engine : StorageEngine TableReader} {task : TaskSettings}
    (h : settingsFor plan job = .ok task) :
    (start engine job).run (ofPlan plan) = (openWith engine plan task).run (ofPlan plan) := by
  -- a new partition may start, and nothing is reported so far
  have hallow : (allowIn "initialize" [.created] : Step (Partition TableReader) Unit).run
      (ofPlan plan) = ⟨.ok (), ofPlan plan, []⟩ := rfl
  have hget : (Step.get : Step (Partition TableReader) _).run (ofPlan plan)
      = ⟨.ok (ofPlan plan), ofPlan plan, []⟩ := rfl
  have hsettings : (Step.ofResult (settingsFor (ofPlan plan : Partition TableReader).plan job) :
      Step (Partition TableReader) _).run (ofPlan plan) = ⟨.ok task, ofPlan plan, []⟩ := by
    rw [Step.run_ofResult]
    exact congrArg (fun r => (⟨r, ofPlan plan, []⟩ : Outcome _ _)) h
  unfold start
  rw [Step.run_bind_ok hallow, Step.run_bind_ok hget, Step.run_bind_ok hsettings]
  rfl

/-- Settings that say the same about the input open alike, as the engine reads nothing else. -/
theorem alike_openWith {t₁ t₂ : TaskSettings} (h : t₁.settings.SameInput t₂.settings) :
    Alike (openWith (StorageEngine.ofDisk disk) plan t₁)
      (openWith (StorageEngine.ofDisk disk) plan t₂) := by
  unfold openWith
  rw [StorageEngine.openInput_congr h, StorageEngine.agreedOrder_congr h]
  -- only here do the two starts store what differs
  have hstore : ∀ reader : TableReader, Alike (Step.update fun it => { it with
        task := some t₁, reader := some reader })
      (Step.update fun it => { it with task := some t₂, reader := some reader }) :=
    fun reader => Alike.update fun _ _ => ⟨some t₂, rfl⟩
  cases plan.sorted with
  | false =>
    refine (Alike.ofResult _).bind fun reader => (Alike.event _ _).bind fun _ => ?_
    exact (hstore reader).bind fun _ => alike_enter _
  | true =>
    refine (Alike.ofResult _).bind fun order => (alike_adoptOrder order).bind fun _ => ?_
    refine (Alike.ofResult _).bind fun reader => (Alike.event _ _).bind fun _ => ?_
    exact (hstore reader).bind fun _ => alike_enter _

/-- Two starts of a plan do the same where both jobs make settings that say the same about the
input. -/
theorem run_start_eq (disk : Disk) {t₁ t₂ : TaskSettings} (h₁ : settingsFor plan j₁ = .ok t₁)
    (h₂ : settingsFor plan j₂ = .ok t₂) (h : t₁.settings.SameInput t₂.settings) :
    ∃ task, (start (StorageEngine.ofDisk disk) j₂).run (ofPlan plan)
      = ⟨((start (StorageEngine.ofDisk disk) j₁).run (ofPlan plan)).result,
        ((start (StorageEngine.ofDisk disk) j₁).run (ofPlan plan)).state.withTask task,
        ((start (StorageEngine.ofDisk disk) j₁).run (ofPlan plan)).log⟩ := by
  rw [run_start h₁, run_start h₂]
  exact alike_openWith h (ofPlan plan) none

/-- A plan that is not sorted starts where its reader opens. -/
theorem result_openWith (h : plan.sorted = false) (task : TaskSettings)
    (it : Partition TableReader) :
    ((openWith (StorageEngine.ofDisk disk) plan task).run it).result
      = ((StorageEngine.ofDisk disk).openInput task.settings plan.projectionText).map
        fun _ => () := by
  unfold openWith
  rw [h]
  cases (StorageEngine.ofDisk disk).openInput task.settings plan.projectionText with
  | error e => rfl
  | ok reader => rfl

/-- Two jobs that say the same about the input, or a plan that says it itself, give the same
course. -/
theorem course_eq (h : plan.sorted = true
      ∨ StorageEngine.wantsSorted j₁.settings = StorageEngine.wantsSorted j₂.settings)
    (calls : List PartitionCall) : course disk plan j₁ calls = course disk plan j₂ calls := by
  obtain ⟨t₁, h₁, htables₁, hmerged₁⟩ := exists_settingsFor plan j₁
  obtain ⟨t₂, h₂, htables₂, hmerged₂⟩ := exists_settingsFor plan j₂
  have hmerged : StorageEngine.wantsSorted t₁.settings = StorageEngine.wantsSorted t₂.settings := by
    rw [hmerged₁, hmerged₂]
    -- the plan's own word covers what the jobs say
    cases h with
    | inl hsorted => rw [hsorted, Bool.true_or, Bool.true_or]
    | inr hflags => rw [hflags]
  obtain ⟨task, hstart⟩ := run_start_eq disk h₁ h₂
    ⟨htables₁.trans htables₂.symm, hmerged⟩
  unfold course
  rw [hstart]
  exact congrArg (Prod.mk _) (answers_withTask _ task calls).symm

/-! ## What an unsorted plan takes from its job -/

/-- A plan for all columns of the table `t`, not sorted. -/
def planOfTagged : LoadPlan where
  consumer := "loader"
  signature := "sig"
  paths := ["t"]
  projection := none
  sorted := false
  schema := ⟨[⟨"id", .primitive .int⟩, ⟨"m", .map (.primitive .string)⟩]⟩
  sortOrder := none

/-- The table is not sorted, so it opens exactly where the job does not want the input merged. -/
theorem course_planOfTagged (job : JobSettings) :
    (course taggedTable planOfTagged job []).1
      = if StorageEngine.wantsSorted job.settings
        then .error (.configuration (.tableUnsorted "t")) else .ok () := by
  obtain ⟨task, htask, htables, hmerged⟩ := exists_settingsFor planOfTagged job
  have hpaths : task.settings.tablePaths = .ok ["t"] := htables.trans (by cbv)
  have hopen : ["t"].mapM (Table.openAt taggedTable) = .ok
      [⟨"t", ⟨[⟨"id", .primitive .int⟩, ⟨"m", .map (.primitive .string)⟩]⟩, none⟩] :=
    Results.mapM_eq_ok_iff.2 (.cons openAt_taggedTable .nil)
  have hinput : (StorageEngine.ofDisk taggedTable).openInput task.settings ""
      = StorageEngine.readerOf taggedTable ["t"]
        (StorageEngine.wantsSorted job.settings) "" := by
    show (task.settings.tablePaths >>= fun paths => StorageEngine.readerOf taggedTable paths
      (StorageEngine.wantsSorted task.settings) "") = _
    rw [hpaths, hmerged]
    rfl
  have hresult : (course taggedTable planOfTagged job []).1
      = (StorageEngine.readerOf taggedTable ["t"]
        (StorageEngine.wantsSorted job.settings) "").map fun _ => () := by
    show ((start (StorageEngine.ofDisk taggedTable) job).run (ofPlan planOfTagged)).result = _
    rw [run_start htask, result_openWith rfl]
    exact congrArg (Except.map fun _ => ()) hinput
  obtain ⟨whole, hwhole, -⟩ := delivers_taggedTable
  -- the table has no order, so merging is refused and reading in turn is not
  have hreader : ∀ sorted, StorageEngine.readerOf taggedTable ["t"] sorted ""
      = if sorted then .error (.configuration (.tableUnsorted "t")) else .ok whole := by
    intro sorted
    unfold StorageEngine.readerOf StorageEngine.tablesAt
    rw [if_neg (by decide), hopen]
    cases sorted with
    | true => rfl
    | false => exact hwhole
  rw [hresult, hreader]
  cases StorageEngine.wantsSorted job.settings with
  | true => rfl
  | false => rfl

/-- Over any disk, sorted plans behave alike under every two jobs, whatever other loads have set
there; plans that are not sorted do so exactly for jobs that say the same about merging the input by
key, which no plan of theirs asks for. -/
theorem course_eq_iff (j₁ j₂ : JobSettings) (sorted : Bool) :
    (∀ disk plan calls, plan.sorted = sorted →
        course disk plan j₁ calls = course disk plan j₂ calls)
      ↔ sorted = true
        ∨ StorageEngine.wantsSorted j₁.settings = StorageEngine.wantsSorted j₂.settings := by
  constructor
  · intro h
    cases sorted with
    | true => exact .inl rfl
    | false =>
      right
      have hstarts := congrArg Prod.fst (h taggedTable planOfTagged [] rfl)
      rw [course_planOfTagged, course_planOfTagged] at hstarts
      -- one start fails and the other one does not where the jobs differ
      cases h₁ : StorageEngine.wantsSorted j₁.settings <;>
        cases h₂ : StorageEngine.wantsSorted j₂.settings <;>
        simp [h₁, h₂] at hstarts ⊢
  · intro h disk plan calls hplan
    exact course_eq (hplan.symm ▸ h) calls

/-- Another load's tables in the job, and a setting of its engine, change nothing. -/
theorem course_eq_of_otherTables :
    course taggedTable planOfTagged .empty [.next, .next, .close]
      = course taggedTable planOfTagged
        ((JobSettings.empty.set "tableload.engine.cache" "4").withTables ["x", "y"])
        [.next, .next, .close] := by
  have hflags : StorageEngine.wantsSorted JobSettings.empty.settings
      = StorageEngine.wantsSorted
        ((JobSettings.empty.set "tableload.engine.cache" "4").withTables ["x", "y"]).settings := by
    cbv
  exact (course_eq_iff _ _ false).2 (.inr hflags) taggedTable planOfTagged _ rfl

/-- A sorted load that publishes itself in a job makes a plan that is not sorted fail there. -/
theorem course_ne_of_sortedJob :
    course taggedTable planOfTagged .empty []
      ≠ course taggedTable planOfTagged
        (JobSettings.empty.set SettingKey.inputSorted.name "true") [] := by
  have hempty : StorageEngine.wantsSorted JobSettings.empty.settings = false := by decide
  have hsorted : StorageEngine.wantsSorted
      (JobSettings.empty.set SettingKey.inputSorted.name "true").settings = true :=
    wantsSorted_set_true Settings.empty
  intro h
  have hstarts := congrArg Prod.fst h
  rw [course_planOfTagged, course_planOfTagged, hempty, hsorted] at hstarts
  cases hstarts

end Partition

end TableScan
