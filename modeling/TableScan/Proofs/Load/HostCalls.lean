import TableScan.Load.Loader
import TableScan.Proofs.Location.Resolution

/-!
# Runs of a loader

What a host may call of a loader (`LoaderCall`), in any order, each call in `Surroundings` of its
own: what the tables hold, what the job says and what the disk is may change between two calls.
`Loader.behind` is the loader after a run of calls, and `Loader.plansOf` are the plans that the run
hands out, to the host or to a partition of the loader's own.

Main statements: what the steps of planning keep holds after every run (`Loader.behind_of_isKept`),
and what a loader has settled once a call has handed out a plan (`Loader.carries_of_planOf`).
-/

namespace TableScan

/-- What a loader finds around itself at a call. -/
structure Surroundings (ρ : Type) where
  backend : Backend ρ
  disk : Disk
  job : JobSettings

/-- A call of a host. -/
inductive LoaderCall (ρ : Type) where
  | sign (signature : String)
  | locate (location : String)
  | schemaAt (location : String)
  | requestFields (fields : List FieldRequest)
  | makePlan
  | start
  | attach (reader : ρ) (share : InputShare)
  | seekRecord (target : Record)
  | seekValues (values : List Value)
  | next
  | close

namespace Load

variable {σ ρ : Type} (engine : StorageEngine ρ) (paths : List String) (settings : Settings)

/-- Looking up a schema only reports. -/
theorem state_run_inputSchema (s : σ) : ((inputSchema engine paths settings).run s).state = s := by
  unfold inputSchema
  cases mergedSchema engine paths settings with
  | error e => rfl
  | ok schema => rfl

theorem result_run_inputSchema (s : σ) :
    ((inputSchema engine paths settings).run s).result = mergedSchema engine paths settings := by
  unfold inputSchema
  cases mergedSchema engine paths settings with
  | error e => rfl
  | ok schema => rfl

end Load

namespace Partition

open Step (Keeps)

variable {ρ : Type}

/-- Starting a partition leaves it its plan. -/
theorem keeps_plan_start (engine : StorageEngine ρ) (job : JobSettings) (d : LoadPlan) :
    Keeps (fun it => it.plan = d) (start engine job) := by
  have hallow : Keeps (fun it : Partition ρ => it.plan = d)
      (allowIn "initialize" [.created]) := by
    refine Keeps.bind_get fun it hit => ?_
    split
    · exact hit
    · exact hit
  have hadopt : ∀ order, Keeps (fun it : Partition ρ => it.plan = d)
      (adoptOrder order) := fun order =>
    (Keeps.ofResult _).bind fun _ => Keeps.update fun _ hit => hit
  refine hallow.bind fun _ => Keeps.bind_get fun it hit => ?_
  refine Keeps.bind (P := fun it => it.plan = d) (Keeps.ofResult _) (fun task => ?_) it hit
  -- sorted or not, only the order, the reader and the state are written
  split
  · refine (Keeps.ofResult _).bind fun order => (hadopt order).bind fun _ => ?_
    refine (Keeps.ofResult _).bind fun reader => (Keeps.event _ _).bind fun _ => ?_
    exact (Keeps.update fun _ hit => hit).bind fun _ => Keeps.update fun _ hit => hit
  · refine (Keeps.ofResult _).bind fun reader => (Keeps.event _ _).bind fun _ => ?_
    exact (Keeps.update fun _ hit => hit).bind fun _ => Keeps.update fun _ hit => hit

end Partition

namespace Loader

open Step (Keeps)

variable {ρ : Type}

/-- The loaders that a host makes on a coordinator. -/
inductive IsCoordinator : Loader ρ → Prop where
  | ofArguments {args : List String} {l : Loader ρ} (h : ofArguments args = .ok l) :
    IsCoordinator l
  | configured {l : Loader ρ} (h : IsCoordinator l) (c : Configuration) :
    IsCoordinator (l.configured c)

/-! ## Runs -/

section Runs

variable [RecordReader ρ]

/-- The loader after a call, whether the call fails or not. -/
def after (s : Surroundings ρ) (l : Loader ρ) : LoaderCall ρ → Loader ρ
  | .sign signature => l.signed signature
  | .locate location => ((locate s.backend location).run (l, s.job)).state.1
  | .schemaAt location => ((schemaAt s.backend location s.job).run l).state
  | .requestFields fields => ((requestFields fields).run l).state
  | .makePlan => ((makePlan s.backend s.job).run l).state
  | .start => ((start s.backend s.job).run l).state
  | .attach reader share => ((attach reader share).run l).state
  | .seekRecord target => ((seekRecord s.disk target).run l).state
  | .seekValues values => ((seekValues s.disk values).run l).state
  | .next => ((next s.disk).run l).state
  | .close => (close.run l).state

/-- The plan that a call hands out. A start hands one to the partition that it makes, also where the
partition then fails to open its input. -/
def planOf (s : Surroundings ρ) (l : Loader ρ) : LoaderCall ρ → Option LoadPlan
  | .makePlan => ((makePlan s.backend s.job).run l).result.toOption
  | .start =>
    if l.partition.isSome then none
    else ((start s.backend s.job).run l).state.partition.map Partition.plan
  | _ => none

/-- The loader after calls one after another. -/
def behind (l : Loader ρ) (calls : List (Surroundings ρ × LoaderCall ρ)) : Loader ρ :=
  calls.foldl (fun l c => l.after c.1 c.2) l

/-- The plans that are handed out during calls, the first one first. -/
def plansOf (l : Loader ρ) : List (Surroundings ρ × LoaderCall ρ) → List LoadPlan
  | [] => []
  | (s, call) :: calls => (l.planOf s call).toList ++ plansOf (l.after s call) calls

end Runs

/-- Calls while the disk stays as it is; jobs may change. -/
def onDisk (disk : Disk) (calls : List (JobSettings × LoaderCall TableReader)) :
    List (Surroundings TableReader × LoaderCall TableReader) :=
  calls.map fun c => (⟨.ofDisk disk, disk, c.1⟩, c.2)

/-- Runs compose. -/
theorem behind_append [RecordReader ρ] (l : Loader ρ)
    (first rest : List (Surroundings ρ × LoaderCall ρ)) :
    l.behind (first ++ rest) = (l.behind first).behind rest :=
  List.foldl_append

/-- The plans of a run are those of its parts. -/
theorem plansOf_append [RecordReader ρ] (l : Loader ρ)
    (first rest : List (Surroundings ρ × LoaderCall ρ)) :
    l.plansOf (first ++ rest) = l.plansOf first ++ (l.behind first).plansOf rest := by
  induction first generalizing l with
  | nil => rfl
  | cons c first ih =>
    have hrest := ih (l.after c.1 c.2)
    show (l.planOf c.1 c.2).toList ++ plansOf (l.after c.1 c.2) (first ++ rest) = _
    rw [hrest, ← List.append_assoc]
    rfl

/-- A plan of a run is handed out by one of its calls. -/
theorem exists_planOf_of_mem [RecordReader ρ] {l : Loader ρ}
    {calls : List (Surroundings ρ × LoaderCall ρ)} {d : LoadPlan} (h : d ∈ l.plansOf calls) :
    ∃ first s call rest, calls = first ++ (s, call) :: rest
      ∧ (l.behind first).planOf s call = some d := by
  induction calls generalizing l with
  | nil => cases h
  | cons c calls ih =>
    rcases List.mem_append.1 h with hown | hlater
    -- the first call handed it out, or one of those behind it
    · exact ⟨[], c.1, c.2, calls, rfl, Option.mem_toList.1 hown⟩
    · obtain ⟨first, s, call, rest, rfl, hplan⟩ := ih hlater
      exact ⟨c :: first, s, call, rest, rfl, hplan⟩

/-! ## What planning keeps -/

/-- What holds of a loader through every change that planning makes in it, requests for fields
apart. -/
structure IsKeptByPlanning (backend : Backend ρ) (P : Loader ρ → Prop) : Prop where
  resolved : ∀ l location paths, l.isResolved location = false → P l →
    P { l with location := some location, paths := paths, schema := none, sortOrder := none }
  schemaKnown : ∀ l job schema, l.schema = none →
    Load.mergedSchema backend.engine l.paths job = .ok schema → P l →
    P { l with schema := some schema }
  orderKnown : ∀ l job order, l.sorted = true → l.sortOrder = none →
    backend.engine.agreedOrder (Settings.withTables job l.paths) none = .ok order → P l →
    P { l with sortOrder := some order }
  sealed : ∀ l, P l → P { l with choice := l.choice.sealed }

/-- What holds of a loader through all calls but requests for fields: signatures and partitions have
nothing to do with it either. -/
structure IsKeptBesideRequests (backend : Backend ρ) (P : Loader ρ → Prop) : Prop
    extends IsKeptByPlanning backend P where
  signed : ∀ l signature, P l → P (l.signed signature)
  partition : ∀ l partition, P l → P { l with partition := partition }

/-- What holds of a loader through all of its calls. -/
structure IsKept (backend : Backend ρ) (P : Loader ρ → Prop) : Prop
    extends IsKeptBesideRequests backend P where
  chosen : ∀ l schema fields, l.schema = some schema → P l →
    P { l with choice := ((ProjectionChoice.choose schema fields).run l.choice).state }

variable {backend : Backend ρ} {P : Loader ρ → Prop}

namespace IsKeptByPlanning

theorem resolveTables (h : IsKeptByPlanning backend P) (location : String) (job : JobSettings) :
    Keeps P (resolveTables backend location job) := by
  refine Keeps.bind_get fun l hl => ?_
  cases hresolved : l.isResolved location with
  | true => exact hl
  | false =>
    -- resolving reports, and changes nothing itself
    have hstill : Keeps (· = l) (Location.resolve backend.files l.strictDirectories location
        job.settings) := Location.keeps_resolve _ _ _ _
    exact Keeps.bind_still (hstill l rfl) hl fun paths _ => h.resolved l location paths hresolved hl

theorem inputSchema (h : IsKeptByPlanning backend P) (job : JobSettings) :
    Keeps P (inputSchema backend job) := by
  refine Keeps.bind_get fun l hl => ?_
  cases hschema : l.schema with
  -- a schema that is known is not looked up again
  | some schema => exact hl
  | none =>
    refine Keeps.bind_still (Load.state_run_inputSchema _ _ _ l) hl fun schema hmerged => ?_
    rw [Load.result_run_inputSchema] at hmerged
    exact h.schemaKnown l _ schema hschema hmerged hl

theorem inputOrder (h : IsKeptByPlanning backend P) (job : JobSettings) :
    Keeps P (inputOrder backend job) := by
  refine Keeps.bind_get fun l hl => ?_
  split
  -- only a sorted loader without an order asks for one
  · next hunknown =>
    rw [Bool.and_eq_true, Option.isNone_iff_eq_none] at hunknown
    obtain ⟨hsorted, hnone⟩ := hunknown
    refine Keeps.bind_still rfl hl fun order hagreed => ?_
    exact h.orderKnown l _ order hsorted hnone hagreed hl
  · exact hl

theorem schemaAt (h : IsKeptByPlanning backend P) (location : String) (job : JobSettings) :
    Keeps P (schemaAt backend location job) := by
  refine (h.resolveTables location job).bind fun _ => (h.inputSchema job).bind fun _ => ?_
  exact (h.inputOrder job).bind fun _ => Keeps.bind_get fun _ hl => hl

theorem makePlan (h : IsKeptByPlanning backend P) (job : JobSettings) :
    Keeps P (makePlan backend job) := by
  refine Keeps.bind_get fun l hl => ?_
  cases l.signature with
  | none => exact hl
  | some signature =>
    simp only
    -- planning stops early without a signature or without tables
    split
    · exact hl
    · refine (h.inputSchema job).bind (fun schema => ?_) l hl
      refine (Keeps.ofResult _).bind fun _ => (h.inputOrder job).bind fun _ => ?_
      exact (Keeps.update h.sealed).bind fun _ => Keeps.bind_get fun _ hl => hl

/-- Locating resolves the tables; announcing them changes the job alone. -/
theorem locate (h : IsKeptByPlanning backend P) (location : String) :
    Keeps (fun s => P s.1) (locate backend location) := by
  refine Keeps.bind_get fun s hs => ?_
  have hresolve : Keeps (fun t : Loader ρ × JobSettings => P t.1)
      ((Loader.resolveTables backend location s.2).zoom Prod.fst fun l t => (l, t.2)) :=
    fun t ht => h.resolveTables location s.2 t.1 ht
  refine hresolve.bind (fun _ => ?_) s hs
  exact Keeps.bind_get fun t ht => ht

end IsKeptByPlanning

namespace IsKeptBesideRequests

/-- Working on the partition leaves the rest of a loader alone. -/
theorem onPartition {α : Type} (h : IsKeptBesideRequests backend P) (operation : String)
    (step : Step (Partition ρ) α) : Keeps P (onPartition operation step) := by
  intro l hl
  unfold Step.run Loader.onPartition
  cases l.partition with
  | none => exact hl
  | some it => exact h.partition l _ hl

theorem start (h : IsKeptBesideRequests backend P) (job : JobSettings) :
    Keeps P (start backend job) := by
  refine Keeps.bind_get fun l hl => ?_
  have hopen := h.onPartition "initialize" (Partition.start backend.engine job)
  -- without a partition the loader plans first
  split
  · refine (Keeps.bind (h.makePlan job) fun d => ?_) l hl
    exact (Keeps.update fun l hl => h.partition l _ hl).bind fun _ => hopen
  · exact hopen l hl

/-- What holds through all calls but requests for fields is kept by each of them. -/
theorem after [RecordReader ρ] {s : Surroundings ρ} (h : IsKeptBesideRequests s.backend P)
    {l : Loader ρ} (hl : P l) {call : LoaderCall ρ}
    (hcall : ∀ fields, call ≠ .requestFields fields) : P (l.after s call) := by
  cases call with
  | sign signature => exact h.signed l signature hl
  | locate location => exact h.locate location (l, s.job) hl
  | schemaAt location => exact h.schemaAt location s.job l hl
  | requestFields fields => exact absurd rfl (hcall fields)
  | makePlan => exact h.makePlan s.job l hl
  | start => exact h.start s.job l hl
  | attach reader share => exact h.onPartition "bind_reader" _ l hl
  | seekRecord target => exact h.onPartition "seek_near" _ l hl
  | seekValues values => exact h.onPartition "seek_near" _ l hl
  | next => exact h.onPartition "next" _ l hl
  | close =>
    refine Keeps.bind_get (P := P) (fun l hl => ?_) l hl
    split
    · exact h.onPartition "close" _ l hl
    · exact hl

end IsKeptBesideRequests

namespace IsKept

theorem requestFields (h : IsKept backend P) (fields : List FieldRequest) :
    Keeps P (requestFields fields) := by
  refine Keeps.bind_get fun l hl => ?_
  cases hschema : l.schema with
  | none => exact hl
  | some schema =>
    exact Keeps.bind_of_state (h.chosen l schema fields hschema hl) fun _ => Keeps.event _ _

/-- What all steps of planning keep is kept by every call. -/
theorem after [RecordReader ρ] {s : Surroundings ρ} (h : IsKept s.backend P) {l : Loader ρ}
    (hl : P l) (call : LoaderCall ρ) : P (l.after s call) := by
  cases call with
  | requestFields fields => exact h.requestFields fields l hl
  | _ => exact h.toIsKeptBesideRequests.after hl fun _ hcall => nomatch hcall

end IsKept

/-- What every planning step of a run keeps holds behind the run. -/
theorem behind_of_isKept [RecordReader ρ] {l : Loader ρ}
    {calls : List (Surroundings ρ × LoaderCall ρ)} (h : ∀ c ∈ calls, IsKept c.1.backend P)
    (hl : P l) : P (l.behind calls) :=
  List.foldlRecOn calls _ hl fun _ hl c hc => (h c hc).after hl c.2

/-! ## What a plan settles -/

/-- A loader carries a plan: all that the plan says of the input is settled in the loader, and no
more planning is allowed. -/
structure Carries (l : Loader ρ) (d : LoadPlan) : Prop where
  isSealed : l.choice.isSealed = true
  hasTables : l.paths.isEmpty = false
  hasOrder : l.sorted = true → l.sortOrder.isSome = true
  paths : l.paths = d.paths
  projection : l.projection = d.projection
  sorted : l.sorted = d.sorted
  schema : l.schema = some d.schema
  sortOrder : l.sortOrder = d.sortOrder

variable {job : JobSettings} {l l' : Loader ρ} {log : List Log.Entry}

/-- Looking up the schema changes the schema that is known, and nothing else. -/
theorem inputSchema_eq_ok {schema : Schema}
    (h : (inputSchema backend job).run l = ⟨.ok schema, l', log⟩) :
    l' = { l with schema := some schema } := by
  unfold inputSchema at h
  rw [Step.run_bind_get] at h
  split at h
  -- a schema that is known is answered, and a looked up one is kept
  · next known hknown =>
    rw [Step.run_pure] at h
    obtain ⟨hschema, rfl, -⟩ := Outcome.mk.inj h
    rw [← Except.ok.inj hschema, ← hknown]
  · obtain ⟨found, l₁, _, _, hlookup, h⟩ := Step.exists_of_run_bind h
    have hsame := Load.state_run_inputSchema backend.engine l.paths job.settings l
    rw [hlookup] at hsame
    obtain ⟨hfound, rfl, -⟩ := Outcome.mk.inj h
    obtain rfl := Except.ok.inj hfound
    exact congrArg (fun l₁ : Loader ρ => { l₁ with schema := some found }) hsame

/-- Behind the lookup of the sort columns a sorted load has some; nothing else has changed. -/
theorem inputOrder_eq_ok (h : (inputOrder backend job).run l = ⟨.ok (), l', log⟩) :
    ∃ order, l' = { l with sortOrder := order } ∧ (l.sorted = true → order.isSome = true) := by
  unfold inputOrder at h
  rw [Step.run_bind_get] at h
  split at h
  · obtain ⟨order, l₁, _, _, hagreed, h⟩ := Step.exists_of_run_bind h
    obtain ⟨-, rfl, -⟩ := Outcome.mk.inj hagreed
    obtain ⟨-, rfl, -⟩ := Outcome.mk.inj h
    exact ⟨some order, rfl, fun _ => rfl⟩
  -- nothing was asked: the load is not sorted, or it has its order
  · next hknown =>
    obtain ⟨-, rfl, -⟩ := Outcome.mk.inj h
    refine ⟨l.sortOrder, rfl, fun hsorted => ?_⟩
    rw [hsorted, Bool.true_and] at hknown
    exact Option.isSome_iff_ne_none.2 fun hnone => hknown (Option.isNone_iff_eq_none.2 hnone)

/-- A loader that has made a plan carries it, and the plan shows some columns. -/
theorem makePlan_eq_ok {d : LoadPlan} (h : (makePlan backend job).run l = ⟨.ok d, l', log⟩) :
    l'.Carries d
      ∧ ∃ visible, ProjectionChoice.visibleSchema d.schema d.projection = .ok visible := by
  unfold makePlan at h
  rw [Step.run_bind_get] at h
  split at h
  · cases h
  · split at h
    · cases h
    · next htables =>
      -- the steps of planning: the schema, the check of the projection, the order, the seal
      obtain ⟨schema, l₁, _, _, hschema, h⟩ := Step.exists_of_run_bind h
      obtain ⟨visible, l₂, _, _, hvisible, h⟩ := Step.exists_of_run_bind h
      obtain ⟨_, l₃, _, _, horder, h⟩ := Step.exists_of_run_bind h
      obtain ⟨_, l₄, _, _, hseal, h⟩ := Step.exists_of_run_bind h
      obtain ⟨hresolves, rfl, -⟩ := Outcome.mk.inj hvisible
      obtain rfl := inputSchema_eq_ok hschema
      obtain ⟨order, rfl, hordered⟩ := inputOrder_eq_ok horder
      obtain ⟨-, rfl, -⟩ := Outcome.mk.inj hseal
      rw [Step.run_bind_get] at h
      obtain ⟨hplan, rfl, -⟩ := Outcome.mk.inj h
      obtain rfl := Except.ok.inj hplan
      exact ⟨⟨rfl, Bool.eq_false_iff.2 htables, hordered, rfl, rfl, rfl, rfl, rfl⟩,
        visible, hresolves⟩

/-- A signed loader with tables makes its plan where the schema and the order of the tables are
found and the projection shows some columns. -/
theorem result_makePlan {l₁ l₂ : Loader ρ} {log₁ log₂ : List Log.Entry} {signature : String}
    {schema visible : Schema} (hsigned : l.signature = some signature)
    (htables : l.paths.isEmpty = false)
    (hschema : (inputSchema backend job).run l = ⟨.ok schema, l₁, log₁⟩)
    (hvisible : ProjectionChoice.visibleSchema schema l.projection = .ok visible)
    (horder : (inputOrder backend job).run l₁ = ⟨.ok (), l₂, log₂⟩) :
    ((makePlan backend job).run l).result
      = .ok ⟨l₂.consumer, signature, l₂.paths, l₂.projection, l₂.sorted, schema, l₂.sortOrder⟩ := by
  have hshows : (Step.ofResult (ProjectionChoice.visibleSchema schema l.projection) :
      Step (Loader ρ) Schema).run l₁ = ⟨.ok visible, l₁, []⟩ := by
    rw [hvisible]
    rfl
  unfold makePlan
  rw [Step.run_bind_get, hsigned]
  simp only [htables]
  rw [if_neg Bool.false_ne_true, Step.run_bind_ok hschema, Step.run_bind_ok hshows,
    Step.run_bind_ok horder]
  rfl

/-- Planning leaves the partition as it is. -/
theorem isKeptByPlanning_partition (backend : Backend ρ) (p : Option (Partition ρ)) :
    IsKeptByPlanning backend fun l => l.partition = p where
  resolved := fun _ _ _ _ hl => hl
  schemaKnown := fun _ _ _ _ _ hl => hl
  orderKnown := fun _ _ _ _ _ _ hl => hl
  sealed := fun _ hl => hl

variable [RecordReader ρ] {s : Surroundings ρ} {d : LoadPlan}

/-- A start that hands out a plan has made it, for the partition that is there afterwards. -/
theorem makePlan_of_planOf_start (h : l.planOf s .start = some d) : ∃ l' log it,
    (makePlan s.backend s.job).run l = ⟨.ok d, l', log⟩
      ∧ l.after s .start = { l' with partition := some it } := by
  -- a loader with a partition hands out nothing
  have hnone : l.partition = none := by
    cases hpartition : l.partition with
    | none => rfl
    | some it =>
      unfold planOf at h
      rw [hpartition] at h
      cases h
  have hstart : (start s.backend s.job).run l = (do
      let d ← makePlan s.backend s.job
      Step.update fun l => { l with partition := some (.ofPlan d) }
      onPartition "initialize" (Partition.start s.backend.engine s.job)).run l := by
    unfold start
    rw [Step.run_bind_get, hnone]
    rfl
  have hplan : ((start s.backend s.job).run l).state.partition.map Partition.plan = some d := by
    unfold planOf at h
    rw [hnone] at h
    exact h
  show ∃ l' log it, _ ∧ ((start s.backend s.job).run l).state = _
  rw [hstart] at hplan ⊢
  rcases hmade : (makePlan s.backend s.job).run l with ⟨result, l', log⟩
  cases result with
  -- without a plan there is no partition that could have been given one
  | error e =>
    have hstill := (isKeptByPlanning_partition s.backend none).makePlan s.job l hnone
    rw [Step.run_bind_error hmade] at hplan
    rw [hmade] at hstill
    simp only at hplan hstill
    rw [hstill] at hplan
    cases hplan
  | ok own =>
    rw [Step.run_bind_ok hmade] at hplan ⊢
    have hown := Partition.keeps_plan_start s.backend.engine s.job own (.ofPlan own) rfl
    obtain rfl : own = d := hown.symm.trans (Option.some.inj hplan)
    exact ⟨l', log, _, rfl, rfl⟩

/-- After a call that handed out a plan the loader carries it, and the plan shows some columns. -/
theorem carries_of_planOf {call : LoaderCall ρ} (h : l.planOf s call = some d) :
    (l.after s call).Carries d
      ∧ ∃ visible, ProjectionChoice.visibleSchema d.schema d.projection = .ok visible := by
  cases call with
  | makePlan =>
    rcases hmade : (makePlan s.backend s.job).run l with ⟨result, l', log⟩
    have hresult : result.toOption = some d := by
      unfold planOf at h
      rw [hmade] at h
      exact h
    cases result with
    | error e => cases hresult
    | ok own =>
      obtain rfl := Option.some.inj hresult
      show ((makePlan s.backend s.job).run l).state.Carries _ ∧ _
      rw [hmade]
      exact makePlan_eq_ok hmade
  | start =>
    obtain ⟨l', log, it, hmade, hafter⟩ := makePlan_of_planOf_start h
    obtain ⟨hcarries, hvisible⟩ := makePlan_eq_ok hmade
    rw [hafter]
    exact ⟨{ hcarries with }, hvisible⟩
  | _ => cases h

/-- A loader that carries a plan of a run, of which all that the calls of the run keep holds. -/
theorem exists_carries_of_mem_plansOf {P : Loader ρ → Prop}
    {calls : List (Surroundings ρ × LoaderCall ρ)} (hkept : ∀ c ∈ calls, IsKept c.1.backend P)
    (hl : P l) (hd : d ∈ l.plansOf calls) :
    ∃ l' : Loader ρ, P l' ∧ l'.Carries d
      ∧ ∃ visible, ProjectionChoice.visibleSchema d.schema d.projection = .ok visible := by
  obtain ⟨first, s, call, rest, rfl, hplan⟩ := exists_planOf_of_mem hd
  rw [List.forall_mem_append, List.forall_mem_cons] at hkept
  obtain ⟨hfirst, hcall, -⟩ := hkept
  obtain ⟨hcarries, hvisible⟩ := carries_of_planOf hplan
  exact ⟨_, hcall.after (behind_of_isKept hfirst hl) call, hcarries, hvisible⟩

end Loader

end TableScan
