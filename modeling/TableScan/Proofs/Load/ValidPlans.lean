import Mathlib
import TableScan.Proofs.Json.Values
import TableScan.Proofs.Load.HostCalls
import TableScan.Proofs.Load.Isolation
import TableScan.Proofs.Reader.Projected

/-!
# Plans of a coordinator

A loader looks up the schema and the sort columns of its tables once, and goes by what it found
until it resolves another location. `Loader.AgreesWith` is what makes this right: what a loader has
found is what the tables at its present paths say. Every call keeps it, in any order and also where
calls fail, as long as the tables stay as they are.

Main statement: what a coordinator hands out can be run. The tables of the plan are there, its
schema is theirs, its projection shows some columns of it, and a sorted plan has the order that all
its tables have (`isValidOn_of_mem_plansOf`).
-/

namespace TableScan

/-! ## Schemas and orders of the tables on a disk -/

namespace Load

variable {disk : Disk}

/-- Merging goes through the tables in the order of their paths. -/
theorem mergeTables_eq_ok {settings : Settings} {schema merged : Schema} {paths : List String}
    (h : mergeTables (StorageEngine.ofDisk disk) settings schema paths = .ok merged) :
    ∃ tables, paths.mapM (Table.openAt disk) = .ok tables
      ∧ (tables.map Table.schema).foldlM Schema.union schema = .ok merged := by
  induction paths generalizing schema with
  | nil => exact ⟨[], rfl, h⟩
  | cons path rest ih =>
    obtain ⟨next, hnext, h⟩ := Results.bind_eq_ok_iff.1 h
    obtain ⟨t, ht, rfl⟩ := Results.map_eq_ok_iff.1 hnext
    split at h
    · next u hu =>
      obtain ⟨tables, hopen, hrest⟩ := ih h
      refine ⟨t :: tables, ?_, Results.bind_eq_ok_iff.2 ⟨u, hu, hrest⟩⟩
      exact Results.mapM_eq_ok_iff.2 (.cons ht (Results.mapM_eq_ok_iff.1 hopen))
    · cases h

/-- The logical schema is the union of the schemas of the tables, in the order of the paths. -/
theorem mergedSchema_eq_ok {settings : Settings} {merged : Schema} {paths : List String}
    (h : mergedSchema (StorageEngine.ofDisk disk) paths settings = .ok merged) :
    ∃ tables, paths.mapM (Table.openAt disk) = .ok tables
      ∧ Schema.unionOf (tables.map Table.schema) = .ok merged := by
  cases paths with
  | nil => cases h
  | cons path rest =>
    obtain ⟨schema, hschema, h⟩ := Results.bind_eq_ok_iff.1 h
    obtain ⟨t, ht, rfl⟩ := Results.map_eq_ok_iff.1 hschema
    obtain ⟨tables, hopen, hmerged⟩ := mergeTables_eq_ok h
    refine ⟨t :: tables, ?_, ?_⟩
    · exact Results.mapM_eq_ok_iff.2 (.cons ht (Results.mapM_eq_ok_iff.1 hopen))
    · rw [List.map_cons, Schema.unionOf_cons (Table.wellNamed_of_openAt ht).distinct]
      exact hmerged

end Load

/-- The order that is agreed on for some tables is the order of each of them. -/
theorem StorageEngine.agreedOrder_eq_ok {disk : Disk} {settings : Settings} {paths : List String}
    {order : SortOrder}
    (h : (ofDisk disk).agreedOrder (settings.withTables paths) none = .ok order) :
    ∃ tables, paths.mapM (Table.openAt disk) = .ok tables
      ∧ ∀ t ∈ tables, t.sortOrder = some order := by
  obtain ⟨tables, htables, h⟩ := Results.bind_eq_ok_iff.1 h
  obtain ⟨found, hfound, hopen⟩ := Results.bind_eq_ok_iff.1 htables
  obtain rfl : paths = found :=
    Except.ok.inj ((Settings.tablePaths_withTables settings paths).symm.trans hfound)
  obtain ⟨own, hcommon, h⟩ := Results.bind_eq_ok_iff.1 h
  obtain rfl : own = order := Except.ok.inj h
  refine ⟨tables, ?_, Table.sortOrder_of_commonOrder hcommon⟩
  unfold tablesAt at hopen
  split at hopen
  · cases hopen
  · exact hopen

/-! ## What a loader has found -/

/-- What the tables on a disk say of a plan: it can be run on them. -/
structure LoadPlan.IsValidOn (disk : Disk) (d : LoadPlan) : Prop where
  hasTables : d.paths ≠ []
  tables : ∃ tables, d.paths.mapM (Table.openAt disk) = .ok tables
    ∧ Schema.unionOf (tables.map Table.schema) = .ok d.schema
    ∧ (d.sorted = true → ∃ order, d.sortOrder = some order
      ∧ ∀ t ∈ tables, t.sortOrder = some order)
  projection : ∃ p, ProjectionChoice.projectionOf d.schema d.projection = .ok p
    ∧ p.ResolvesIn d.schema ∧ p.schema.columns ≠ []

namespace Loader

/-- The schema and the order that a loader has found are those of its tables on a disk. -/
structure AgreesWith (disk : Disk) (l : Loader TableReader) : Prop where
  schema : ∀ schema, l.schema = some schema →
    ∃ tables, l.paths.mapM (Table.openAt disk) = .ok tables
      ∧ Schema.unionOf (tables.map Table.schema) = .ok schema
  sortOrder : ∀ order, l.sortOrder = some order →
    ∃ tables, l.paths.mapM (Table.openAt disk) = .ok tables
      ∧ ∀ t ∈ tables, t.sortOrder = some order

variable {disk : Disk} {l : Loader TableReader} {d : LoadPlan}

/-- What a loader is made of says nothing about tables. -/
theorem knowsNothing_of_ofArguments {args : List String}
    (h : ofArguments args = .ok l) : l.schema = none ∧ l.sortOrder = none := by
  unfold ofArguments at h
  split at h
  · obtain rfl := Except.ok.inj h
    exact ⟨rfl, rfl⟩
  · obtain rfl := Except.ok.inj h
    exact ⟨rfl, rfl⟩
  · unfold withSorted at h
    split at h
    · obtain rfl := Except.ok.inj h
      exact ⟨rfl, rfl⟩
    · cases h
  · cases h

/-- A coordinator has found nothing before it is called. -/
theorem IsCoordinator.knowsNothing (h : IsCoordinator l) :
    l.schema = none ∧ l.sortOrder = none := by
  induction h with
  | ofArguments h => exact knowsNothing_of_ofArguments h
  | configured _ _ ih => exact ih

/-- A loader that has found nothing agrees with every disk. -/
theorem IsCoordinator.agreesWith (h : IsCoordinator l) (disk : Disk) : l.AgreesWith disk := by
  obtain ⟨hschema, horder⟩ := h.knowsNothing
  refine ⟨fun schema h => ?_, fun order h => ?_⟩
  · rw [hschema] at h
    cases h
  · rw [horder] at h
    cases h

/-- Every change of planning keeps the agreement with a disk that stays as it is. -/
theorem isKept_agreesWith (disk : Disk) :
    IsKept (Backend.ofDisk disk) fun l => l.AgreesWith disk where
  resolved := by
    intro l location paths _ h
    -- another location, and what was found at the old one is forgotten
    refine ⟨fun schema hschema => ?_, fun order horder => ?_⟩
    · cases hschema
    · cases horder
  schemaKnown := by
    intro l job schema _ hmerged h
    refine ⟨fun found hfound => ?_, h.sortOrder⟩
    obtain rfl := Option.some.inj hfound
    -- the schema was looked up at the present paths
    exact Load.mergedSchema_eq_ok hmerged
  orderKnown := by
    intro l job order _ _ hagreed h
    refine ⟨h.schema, fun found hfound => ?_⟩
    obtain rfl := Option.some.inj hfound
    -- and so was the order
    exact StorageEngine.agreedOrder_eq_ok hagreed
  chosen := fun l schema fields _ h => ⟨h.schema, h.sortOrder⟩
  sealed := fun l h => ⟨h.schema, h.sortOrder⟩
  signed := fun l signature h => ⟨h.schema, h.sortOrder⟩
  partition := fun l partition h => ⟨h.schema, h.sortOrder⟩

/-- A plan that a loader carries is valid where the loader agrees with its tables. -/
theorem Carries.isValidOn (h : l.Carries d) (hagrees : l.AgreesWith disk) {visible : Schema}
    (hvisible : ProjectionChoice.visibleSchema d.schema d.projection = .ok visible) :
    d.IsValidOn disk := by
  obtain ⟨tables, hopen, hunion⟩ := hagrees.schema d.schema h.schema
  rw [h.paths] at hopen
  refine ⟨?_, ⟨tables, hopen, hunion, fun hsorted => ?_⟩, ?_⟩
  · have hsome := h.hasTables
    rw [h.paths] at hsome
    exact List.isEmpty_eq_false_iff.1 hsome
  · obtain ⟨order, horder⟩ := Option.isSome_iff_exists.1 (h.hasOrder (h.sorted.trans hsorted))
    -- the order was found for the same tables as the schema
    obtain ⟨again, hagain, hshared⟩ := hagrees.sortOrder order horder
    rw [h.paths] at hagain
    obtain rfl := Except.ok.inj (hopen.symm.trans hagain)
    exact ⟨order, h.sortOrder.symm.trans horder, hshared⟩
  · obtain ⟨p, hp, hshown⟩ := Results.bind_eq_ok_iff.1 hvisible
    -- names of a union are distinct, so selectors mean one column each
    have hwell : d.schema.WellNamed := by
      refine Schema.wellNamed_of_unionOf hunion fun schema hschema => ?_
      obtain ⟨t, ht, rfl⟩ := List.mem_map.1 hschema
      exact Table.wellNamed_of_mapM_openAt hopen t ht
    refine ⟨p, hp, ?_, fun hnone => ?_⟩
    · rw [ProjectionChoice.projectionOf_eq_parse] at hp
      exact Projection.resolvesIn_of_parse hp hwell.distinct
    · rw [hnone] at hshown
      cases hshown

/-- Every plan that a coordinator hands out is valid on the disk. -/
theorem isValidOn_of_mem_plansOf (h : IsCoordinator l)
    {calls : List (JobSettings × LoaderCall TableReader)}
    (hd : d ∈ l.plansOf (onDisk disk calls)) : d.IsValidOn disk := by
  have hkept : ∀ c ∈ onDisk disk calls,
      IsKept c.1.backend fun l => l.AgreesWith disk := by
    intro c hc
    obtain ⟨own, _, rfl⟩ := List.mem_map.1 hc
    exact isKept_agreesWith disk
  obtain ⟨first, s, call, rest, hcalls, hplan⟩ := exists_planOf_of_mem hd
  rw [hcalls, List.forall_mem_append, List.forall_mem_cons] at hkept
  obtain ⟨hfirst, hcall, -⟩ := hkept
  -- up to the call that hands the plan out, and through it
  have hagrees := hcall.after (behind_of_isKept hfirst (h.agreesWith disk)) call
  obtain ⟨hcarries, visible, hvisible⟩ := carries_of_planOf hplan
  exact hcarries.isValidOn hagrees hvisible

/-! ## A merged load of two tables -/

section Numbered

open TableReader (numberedTables)

/-- The plan of a load that merges the tables `a` and `b` by their number and shows their texts. -/
def planOfNumbered : LoadPlan where
  consumer := Configuration.defaultConsumer
  signature := "sig"
  paths := ["a", "b"]
  projection := some "s"
  sorted := true
  schema := ⟨[⟨"n", .primitive .int⟩, ⟨"s", .primitive .string⟩]⟩
  sortOrder := some ⟨⟨[⟨"n", .primitive .int⟩]⟩⟩

/-- The calls of a host that asks for the plan and for fields too early, and then rightly. -/
def callsOfNumbered : List (JobSettings × LoaderCall TableReader) :=
  [(.empty, .makePlan), (.empty, .sign "sig"), (.empty, .requestFields [⟨0, none, []⟩]),
    (.empty, .locate "a,b"), (.empty, .makePlan)]

/-- Both tables have the schema of the plan. -/
theorem mergedSchema_numberedTables (settings : Settings) :
    Load.mergedSchema (StorageEngine.ofDisk numberedTables) ["a", "b"] settings
      = .ok planOfNumbered.schema := by
  have hopen := Results.mapM_eq_ok_iff.1 TableReader.mapM_openAt_numberedTables
  cases hopen with
  | cons ha hrest =>
    cases hrest with
    | cons hb _ =>
      show ((Table.openAt numberedTables "a").map Table.schema >>= fun schema =>
        ((Table.openAt numberedTables "b").map Table.schema >>= fun next => _)) = _
      rw [ha, hb]
      rfl

/-- Both tables are sorted by their number. -/
theorem agreedOrder_numberedTables (settings : Settings) :
    (StorageEngine.ofDisk numberedTables).agreedOrder (settings.withTables ["a", "b"]) none
      = .ok ⟨⟨[⟨"n", .primitive .int⟩]⟩⟩ := by
  show (Settings.tablePaths _ >>= fun paths => StorageEngine.tablesAt numberedTables paths)
    >>= _ = _
  rw [Settings.tablePaths_withTables]
  show ((["a", "b"].mapM (Table.openAt numberedTables)) >>= _) = _
  rw [TableReader.mapM_openAt_numberedTables]
  rfl

/-- A loader that merges its tables and shows their texts. -/
def loaderOfTexts : Loader TableReader := { ofProjection "s" with sorted := true }

/-- The loader of these calls once it knows where its tables are. -/
def loaderOfNumbered : Loader TableReader :=
  { loaderOfTexts.signed "sig" with location := some "a,b", paths := ["a", "b"] }

/-- The loader shows what the plan shows. -/
theorem projection_loaderOfNumbered : loaderOfNumbered.projection = planOfNumbered.projection := by
  cbv

/-- Planning looks the schema up, checks the projection and agrees on the order. -/
theorem makePlan_loaderOfNumbered :
    ((makePlan (Backend.ofDisk numberedTables) .empty).run loaderOfNumbered).result
      = .ok planOfNumbered := by
  -- the three steps of planning, one after another
  have hschema : (inputSchema (Backend.ofDisk numberedTables) .empty).run loaderOfNumbered
      = ⟨.ok planOfNumbered.schema, { loaderOfNumbered with schema := some planOfNumbered.schema },
        [.ofEvent .schemaResolved
          [("schema", planOfNumbered.schema.text), ("tables", toString 2)]]⟩ := by
    show ((Load.inputSchema (StorageEngine.ofDisk numberedTables) ["a", "b"] .empty
      >>= _ : Step (Loader TableReader) Schema)).run loaderOfNumbered = _
    unfold Load.inputSchema
    rw [mergedSchema_numberedTables]
    rfl
  have horder : (inputOrder (Backend.ofDisk numberedTables) .empty).run
      { loaderOfNumbered with schema := some planOfNumbered.schema }
      = ⟨.ok (), { loaderOfNumbered with
        schema := some planOfNumbered.schema, sortOrder := planOfNumbered.sortOrder }, []⟩ := by
    show (Step.ofResult ((StorageEngine.ofDisk numberedTables).agreedOrder
      (Settings.empty.withTables ["a", "b"]) none) >>= _ : Step (Loader TableReader) Unit).run _ = _
    rw [agreedOrder_numberedTables]
    rfl
  have hvisible : ProjectionChoice.visibleSchema planOfNumbered.schema loaderOfNumbered.projection
      = .ok ⟨[⟨"s", .primitive .string⟩]⟩ := by
    rw [projection_loaderOfNumbered]
    cbv
  refine (result_makePlan rfl rfl hschema hvisible horder).trans ?_
  exact congrArg (fun text => Except.ok { planOfNumbered with projection := text })
    projection_loaderOfNumbered

/-- The host gets one plan: the call that came too early gave none. -/
theorem plansOf_loaderOfTexts :
    loaderOfTexts.plansOf (onDisk numberedTables callsOfNumbered) = [planOfNumbered] := by
  have hlocate : ((locate (Backend.ofDisk numberedTables) "a,b").run
      (loaderOfTexts.signed "sig", JobSettings.empty)).state.1 = loaderOfNumbered := by cbv
  -- the calls before the location leave nothing but the signature
  show ((Loader.planOf _ ((locate (Backend.ofDisk numberedTables) "a,b").run
    (loaderOfTexts.signed "sig", JobSettings.empty)).state.1 .makePlan).toList ++ [] :
      List LoadPlan) = _
  rw [hlocate]
  show ((makePlan (Backend.ofDisk numberedTables) .empty).run
    loaderOfNumbered).result.toOption.toList ++ [] = _
  rw [makePlan_loaderOfNumbered]
  rfl

/-- The plan can be run, also after calls that failed. -/
theorem isValidOn_planOfNumbered : planOfNumbered.IsValidOn numberedTables := by
  have hcoordinator : IsCoordinator loaderOfTexts := by
    have hl : ofArguments ["s", "sorted"] = .ok loaderOfTexts := by cbv
    exact .ofArguments hl
  have hplan : planOfNumbered ∈ loaderOfTexts.plansOf (onDisk numberedTables callsOfNumbered) := by
    rw [plansOf_loaderOfTexts]
    exact List.mem_singleton_self _
  exact isValidOn_of_mem_plansOf hcoordinator hplan

end Numbered

end Loader

end TableScan
