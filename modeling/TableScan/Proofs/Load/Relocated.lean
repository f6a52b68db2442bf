import Mathlib
import TableScan.Proofs.Load.Announced
import TableScan.Proofs.Projection.Chosen

/-!
# Projections of a loader that moves on

A loader may be told another location after fields were chosen at the first one. It forgets what it
has looked up there, but the projection that was chosen stays in force: nothing but a later request
for fields replaces it, whatever is called in between.

`Loader.lastChosen` is what the last request of a run has chosen that was granted, with the tables
that it was chosen for. What a loader has in force follows it (`Follows`), by one lemma for a call
and induction on the run.

Main statement: the chosen projection of a coordinator is that of the last request, wherever the
loader has moved; it is about the tables of the loader exactly where these are still the ones of the
request, and there it resolves against the schema that is known (`pruned_of_lastChosen`).
-/

namespace TableScan.Loader

variable {ρ : Type}

/-- A projection that was chosen for some tables. -/
structure Chosen where
  paths : List String
  text : String
  deriving DecidableEq, Repr

/-- What a call chooses: a request for some fields that is granted, for the tables of the loader. -/
def chosenBy (l : Loader ρ) : LoaderCall ρ → Option Chosen
  | .requestFields [] => none
  | .requestFields fields =>
    match (requestFields fields).run l with
    | ⟨.ok _, l', _⟩ => l'.choice.pruned.map (Chosen.mk l.paths)
    | ⟨.error _, _, _⟩ => none
  | _ => none

/-- What was chosen last during calls one after another. -/
def lastChosen [RecordReader ρ] (l : Loader ρ) :
    List (Surroundings ρ × LoaderCall ρ) → Option Chosen
  | [] => none
  | (s, call) :: calls => (lastChosen (l.after s call) calls).or (l.chosenBy call)

/-- What a run chooses last is what its second part chooses, or else its first part. -/
theorem lastChosen_append [RecordReader ρ] (l : Loader ρ)
    (first rest : List (Surroundings ρ × LoaderCall ρ)) :
    l.lastChosen (first ++ rest)
      = ((l.behind first).lastChosen rest).or (l.lastChosen first) := by
  induction first generalizing l with
  | nil => exact (Option.or_none).symm
  | cons c first ih =>
    have hrest := ih (l.after c.1 c.2)
    show (lastChosen (l.after c.1 c.2) (first ++ rest)).or (l.chosenBy c.2) = _
    rw [hrest, Option.or_assoc]
    rfl

/-! ## Requests for fields -/

/-- A request for some fields chooses what it leaves in force. -/
theorem chosenBy_requestFields (l : Loader ρ) (field : FieldRequest) (fields : List FieldRequest) :
    l.chosenBy (.requestFields (field :: fields)) =
      match (requestFields (field :: fields)).run l with
      | ⟨.ok _, l', _⟩ => l'.choice.pruned.map (Chosen.mk l.paths)
      | ⟨.error _, _, _⟩ => none := rfl

/-- A request that answers has chosen from the known schema, and changes the choice alone. -/
theorem requestFields_eq_ok {fields : List FieldRequest} {l l' : Loader ρ} {log : List Log.Entry}
    (h : (requestFields fields).run l = ⟨.ok (), l', log⟩) :
    ∃ schema text, l.schema = some schema
      ∧ ((ProjectionChoice.choose schema fields).run l.choice).result = .ok text
      ∧ l' = { l with choice := ((ProjectionChoice.choose schema fields).run l.choice).state } := by
  unfold requestFields at h
  rw [Step.run_bind_get] at h
  split at h
  · cases h
  · next schema hschema =>
    obtain ⟨text, own, _, _, hchoose, hevent⟩ := Step.exists_of_run_bind h
    rw [Step.run_zoom] at hchoose
    obtain ⟨hresult, rfl, -⟩ := Outcome.mk.inj hchoose
    obtain ⟨-, rfl, -⟩ := Outcome.mk.inj hevent
    exact ⟨schema, text, hschema, hresult, rfl⟩

/-- A request that fails changes nothing. -/
theorem state_of_requestFields_error {fields : List FieldRequest} {l l' : Loader ρ}
    {log : List Log.Entry} {e : LoadError}
    (h : (requestFields fields).run l = ⟨.error e, l', log⟩) : l' = l := by
  unfold requestFields at h
  rw [Step.run_bind_get] at h
  split at h
  · obtain ⟨-, rfl, -⟩ := Outcome.mk.inj h
    rfl
  · next schema hschema =>
    have hzoom := Step.run_zoom choice (fun p (l : Loader ρ) => { l with choice := p })
      (ProjectionChoice.choose schema fields) l
    cases hresult : ((ProjectionChoice.choose schema fields).run l.choice).result with
    | ok text =>
      rw [hresult] at hzoom
      rw [Step.run_bind_ok hzoom] at h
      cases h
    -- a choice that fails leaves the projection that was in force
    | error own =>
      rw [hresult, ProjectionChoice.state_choose_of_error hresult] at hzoom
      rw [Step.run_bind_error hzoom] at h
      obtain ⟨-, rfl, -⟩ := Outcome.mk.inj h
      rfl

/-! ## What is in force -/

/-- A chosen projection resolves against the tables that it was chosen for. -/
def Chosen.ResolvesOn (disk : Disk) (chosen : Chosen) : Prop :=
  ∃ tables schema p, chosen.paths.mapM (Table.openAt disk) = .ok tables
    ∧ Schema.unionOf (tables.map Table.schema) = .ok schema
    ∧ Projection.parse schema chosen.text = .ok p

/-- The chosen projection of a loader is the one that was chosen last. -/
structure Follows (disk : Disk) (last : Option Chosen) (l : Loader TableReader) : Prop where
  agrees : l.AgreesWith disk
  pruned : l.choice.pruned = last.map Chosen.text
  resolves : ∀ chosen ∈ last, chosen.ResolvesOn disk

variable {disk : Disk} {l : Loader TableReader} {last : Option Chosen}

/-- Calls that ask for no fields leave the chosen projection, wherever they move the loader. -/
theorem isKeptBesideRequests_follows (disk : Disk) (last : Option Chosen) :
    IsKeptBesideRequests (Backend.ofDisk disk) fun l => l.Follows disk last where
  resolved := fun l location paths hopen h =>
    ⟨(isKept_agreesWith disk).resolved l location paths hopen h.agrees, h.pruned, h.resolves⟩
  schemaKnown := fun l job schema hnone hmerged h =>
    ⟨(isKept_agreesWith disk).schemaKnown l job schema hnone hmerged h.agrees, h.pruned, h.resolves⟩
  orderKnown := fun l job order hsorted hnone hagreed h =>
    ⟨(isKept_agreesWith disk).orderKnown l job order hsorted hnone hagreed h.agrees, h.pruned,
      h.resolves⟩
  sealed := fun l h =>
    ⟨(isKept_agreesWith disk).sealed l h.agrees, h.pruned, h.resolves⟩
  signed := fun l signature h =>
    ⟨(isKept_agreesWith disk).signed l signature h.agrees, h.pruned, h.resolves⟩
  partition := fun l partition h =>
    ⟨(isKept_agreesWith disk).partition l partition h.agrees, h.pruned, h.resolves⟩

/-- Fields that are chosen at a schema that a loader has found are chosen for its tables. -/
theorem Follows.requestFields (h : l.Follows disk last) (fields : List FieldRequest) :
    ((requestFields fields).run l).state.Follows disk
      ((l.chosenBy (.requestFields fields)).or last) := by
  rcases hrun : (Loader.requestFields fields).run l with ⟨result, l', log⟩
  cases result with
  | error e =>
    -- a request that is refused leaves everything in force
    obtain rfl := state_of_requestFields_error hrun
    cases fields with
    | nil => exact h
    | cons field rest =>
      rw [chosenBy_requestFields, hrun]
      exact h
  | ok _ =>
    obtain ⟨schema, text, hschema, hresult, rfl⟩ := requestFields_eq_ok hrun
    have hagrees := (isKept_agreesWith disk).chosen l schema fields hschema h.agrees
    cases fields with
    | nil =>
      rw [ProjectionChoice.state_choose_nil]
      exact h
    | cons field rest =>
      -- the choice was made at the schema of these tables
      obtain ⟨tables, hopen, hunion⟩ := h.agrees.schema schema hschema
      have hwell : schema.WellNamed := by
        refine Schema.wellNamed_of_unionOf hunion fun s hs => ?_
        obtain ⟨t, ht, rfl⟩ := List.mem_map.1 hs
        exact Table.wellNamed_of_mapM_openAt hopen t ht
      obtain ⟨hstate, after, hafter⟩ :=
        ProjectionChoice.exists_parse_of_choose hwell (List.cons_ne_nil _ _) hresult
      have hchosen : l.chosenBy (.requestFields (field :: rest)) = some ⟨l.paths, text⟩ := by
        rw [chosenBy_requestFields, hrun, hstate]
        rfl
      rw [hchosen]
      refine ⟨hagrees, by rw [hstate]; rfl, fun chosen hmem => ?_⟩
      obtain rfl := Option.some.inj hmem
      exact ⟨tables, schema, after, hopen, hunion, hafter⟩

/-- Every call, whether it fails or not, leaves in force what was chosen last. -/
theorem Follows.after (h : l.Follows disk last) (job : JobSettings)
    (call : LoaderCall TableReader) :
    (l.after ⟨.ofDisk disk, disk, job⟩ call).Follows disk ((l.chosenBy call).or last) := by
  cases call with
  | requestFields fields => exact h.requestFields fields
  | _ => exact (isKeptBesideRequests_follows disk last).after h fun _ hcall => nomatch hcall

/-- So does every run. -/
theorem Follows.behind (h : l.Follows disk last)
    (calls : List (JobSettings × LoaderCall TableReader)) :
    (l.behind (onDisk disk calls)).Follows disk ((l.lastChosen (onDisk disk calls)).or last) := by
  induction calls generalizing l last with
  | nil => exact h
  | cons c calls ih =>
    have hrest := ih (h.after c.1 c.2)
    rw [← Option.or_assoc] at hrest
    exact hrest

/-- Arguments choose nothing. -/
theorem pruned_of_ofArguments {args : List String} {l : Loader ρ} (h : ofArguments args = .ok l) :
    l.choice.pruned = none := by
  unfold ofArguments at h
  split at h
  · exact Except.ok.inj h ▸ rfl
  · exact Except.ok.inj h ▸ rfl
  · unfold withSorted at h
    split at h
    · exact Except.ok.inj h ▸ rfl
    · cases h
  · cases h

/-- Nothing is chosen for a coordinator before it is called. -/
theorem IsCoordinator.follows (h : IsCoordinator l) (disk : Disk) : l.Follows disk none := by
  refine ⟨h.agreesWith disk, ?_, fun _ hmem => nomatch hmem⟩
  induction h with
  | ofArguments h => exact pruned_of_ofArguments h
  | configured _ _ ih => exact ih

/-- The chosen projection of a coordinator is that of the last request for fields that was granted,
whatever locations came behind it. So it is dropped for the locations behind the request only where
these have the tables of the request; it resolves against those, and against the schema that is
known as long as the loader is there. -/
theorem pruned_of_lastChosen (h : IsCoordinator l) (disk : Disk)
    (calls : List (JobSettings × LoaderCall TableReader)) :
    (l.behind (onDisk disk calls)).choice.pruned
        = (l.lastChosen (onDisk disk calls)).map Chosen.text
      ∧ ((∀ chosen ∈ l.lastChosen (onDisk disk calls),
          chosen.paths ≠ (l.behind (onDisk disk calls)).paths →
            (l.behind (onDisk disk calls)).choice.pruned = none)
        ↔ ∀ chosen ∈ l.lastChosen (onDisk disk calls),
          chosen.paths = (l.behind (onDisk disk calls)).paths)
      ∧ ∀ chosen ∈ l.lastChosen (onDisk disk calls),
        chosen.ResolvesOn disk
          ∧ (chosen.paths = (l.behind (onDisk disk calls)).paths →
            ∀ schema, (l.behind (onDisk disk calls)).schema = some schema →
              ∃ p, Projection.parse schema chosen.text = .ok p) := by
  have hfollows := (h.follows disk).behind calls
  rw [Option.or_none] at hfollows
  refine ⟨hfollows.pruned, ⟨fun hdropped chosen hmem => ?_, fun hsame chosen hmem hne =>
    absurd (hsame chosen hmem) hne⟩, fun chosen hmem => ?_⟩
  -- the choice stays in force at other tables, so it is not dropped there
  · by_contra hne
    have hnone := hdropped chosen hmem hne
    rw [hfollows.pruned, Option.mem_def.1 hmem] at hnone
    cases hnone
  · have hresolves := hfollows.resolves chosen hmem
    refine ⟨hresolves, fun hpaths schema hschema => ?_⟩
    obtain ⟨tables, own, p, hopen, hunion, hparse⟩ := hresolves
    obtain ⟨again, hopenAgain, hunionAgain⟩ := hfollows.agrees.schema schema hschema
    rw [hpaths, hopenAgain] at hopen
    obtain rfl := Except.ok.inj hopen
    obtain rfl := Except.ok.inj (hunion.symm.trans hunionAgain)
    exact ⟨p, hparse⟩

/-! ## Two tables that share a name -/

/-- A disk with a table `a` of numbered values and a table `b` of named ones, without rows. -/
def valuedTables : Disk where
  root := .dir [
    ("a", .dir [(".schema", .file 0), ("records.dat", .file 1)]),
    ("b", .dir [(".schema", .file 2), ("records.dat", .file 3)])]
  contents := [Text.utf8Bytes "id:int,v:int", [], Text.utf8Bytes "id:string,y:int", []]

/-- Both tables open with their schemas. -/
theorem openAt_valuedTables :
    Table.openAt valuedTables "a"
        = .ok ⟨"a", ⟨[⟨"id", .primitive .int⟩, ⟨"v", .primitive .int⟩]⟩, none⟩
      ∧ Table.openAt valuedTables "b"
        = .ok ⟨"b", ⟨[⟨"id", .primitive .string⟩, ⟨"y", .primitive .int⟩]⟩, none⟩ := by
  have hfirst : valuedTables.bytesOf 0 = Text.utf8Bytes "id:int,v:int" := by
    simp [valuedTables, Disk.bytesOf]
  have hsecond : valuedTables.bytesOf 2 = Text.utf8Bytes "id:string,y:int" := by
    simp [valuedTables, Disk.bytesOf]
  exact ⟨Table.openAt_of_utf8Bytes rfl hfirst (by cbv) rfl,
    Table.openAt_of_utf8Bytes rfl hsecond (by cbv) rfl⟩

/-- Either name resolves to the table of that name. -/
theorem resolve_valuedTables (strict : Bool) (l : Loader TableReader) :
    (Location.resolve (Backend.ofDisk valuedTables).files strict "a"
        JobSettings.empty.settings).run l
      = ⟨.ok ["a"], l, [.ofEvent .locationResolved [("location", "a"), ("tables", "1")]]⟩
      ∧ (Location.resolve (Backend.ofDisk valuedTables).files strict "b"
        JobSettings.empty.settings).run l
      = ⟨.ok ["b"], l, [.ofEvent .locationResolved [("location", "b"), ("tables", "1")]]⟩ :=
  ⟨by cbv, by cbv⟩

/-- What a loader knows that has shown a table of the disk. -/
def knowing (l : Loader TableReader) (path : String) (schema : Schema) : Loader TableReader :=
  { l with location := some path, paths := [path], schema := some schema, sortOrder := none }

/-- To show the schema of one table is to look it up there, whatever is in force. -/
theorem state_schemaAt_of_table {path : String} {t : Table} {log : List Log.Entry}
    (hopen : l.isResolved path = false) (hsorted : l.sorted = false)
    (hresolve : (Location.resolve (Backend.ofDisk disk).files l.strictDirectories path
      JobSettings.empty.settings).run l = ⟨.ok [path], l, log⟩)
    (ht : Table.openAt disk path = .ok t) :
    ((schemaAt (Backend.ofDisk disk) path .empty).run l).state = l.knowing path t.schema := by
  have hmerged : Load.mergedSchema (StorageEngine.ofDisk disk) [path] JobSettings.empty.settings
      = .ok t.schema := by
    show ((Table.openAt disk path).map Table.schema >>= _) = _
    rw [ht]
    rfl
  have hschema : (inputSchema (Backend.ofDisk disk) .empty).run
      { l with location := some path, paths := [path], schema := none, sortOrder := none }
      = ⟨.ok t.schema, l.knowing path t.schema,
        [.ofEvent .schemaResolved [("schema", t.schema.text), ("tables", toString 1)]]⟩ := by
    show ((Load.inputSchema (StorageEngine.ofDisk disk) [path] _
      >>= _ : Step (Loader TableReader) Schema)).run _ = _
    unfold Load.inputSchema
    rw [hmerged]
    rfl
  have horder : (inputOrder (Backend.ofDisk disk) .empty).run (l.knowing path t.schema)
      = ⟨.ok (), l.knowing path t.schema, []⟩ := by
    have hknown : ((l.knowing path t.schema).sorted
        && (l.knowing path t.schema).sortOrder.isNone) = false := by
      show (l.sorted && true) = false
      rw [hsorted, Bool.false_and]
    unfold inputOrder
    rw [Step.run_bind_get, hknown]
    rfl
  unfold schemaAt
  rw [Step.run_bind_ok (run_resolveTables_of_resolve hopen hresolve), Step.run_bind_ok hschema,
    Step.run_bind_ok horder]
  rfl

/-- A host that looks at `a` and asks for its values. -/
def callsOfValues : List (JobSettings × LoaderCall TableReader) :=
  [(.empty, .schemaAt "a"), (.empty, .requestFields [⟨1, none, []⟩])]

/-- The loader that has found the schema of `a`, with a choice. -/
def atValues (choice : ProjectionChoice) : Loader TableReader :=
  { whole.knowing "a" ⟨[⟨"id", .primitive .int⟩, ⟨"v", .primitive .int⟩]⟩ with choice := choice }

/-- The values are chosen by their name. -/
theorem requestFields_atValues :
    (requestFields [⟨1, none, []⟩]).run (atValues (.ofText none))
      = ⟨.ok (), atValues ⟨none, some "v", false⟩,
        [.ofEvent .projectionPlanned [("projection", "v")],
          .ofEvent .projectionPushed [("fields", "1"), ("projection", "v")]]⟩ := by
  cbv

/-- Behind these calls the values of `a` are in force. -/
theorem behind_callsOfValues :
    whole.behind (onDisk valuedTables callsOfValues) = atValues ⟨none, some "v", false⟩
      ∧ whole.lastChosen (onDisk valuedTables callsOfValues) = some ⟨["a"], "v"⟩ := by
  have hfound : ((schemaAt (Backend.ofDisk valuedTables) "a" .empty).run whole).state
      = atValues (.ofText none) :=
    state_schemaAt_of_table rfl rfl (resolve_valuedTables _ _).1 openAt_valuedTables.1
  constructor
  · show ((requestFields [⟨1, none, []⟩]).run
      ((schemaAt (Backend.ofDisk valuedTables) "a" .empty).run whole).state).state = _
    rw [hfound, requestFields_atValues]
  · show ((none : Option Chosen).or (chosenBy ((schemaAt (Backend.ofDisk valuedTables) "a"
      .empty).run whole).state (.requestFields [⟨1, none, []⟩]))).or none = _
    rw [hfound, chosenBy_requestFields, requestFields_atValues]
    rfl

/-- The loader of no arguments is a coordinator. -/
theorem isCoordinator_whole : IsCoordinator (whole : Loader ρ) := by
  have hl : ofArguments [] = .ok (whole : Loader ρ) := rfl
  exact .ofArguments hl

/-- The values are in force behind the request, and resolve against the schema of `a`. -/
theorem pruned_of_lastChosen_values :
    (whole.behind (onDisk valuedTables callsOfValues)).choice.pruned = some "v"
      ∧ ∃ p, Projection.parse ⟨[⟨"id", .primitive .int⟩, ⟨"v", .primitive .int⟩]⟩ "v" = .ok p := by
  obtain ⟨hbehind, hlast⟩ := behind_callsOfValues
  obtain ⟨hpruned, -, hresolves⟩ :=
    pruned_of_lastChosen isCoordinator_whole valuedTables callsOfValues
  rw [hlast] at hpruned hresolves
  rw [hbehind] at hresolves
  exact ⟨hpruned, (hresolves _ rfl).2 rfl _ rfl⟩

/-- A host that then looks at `b`, which has no values, still has them in force. -/
theorem pruned_of_moved_values :
    ∃ chosen schema,
      whole.lastChosen (onDisk valuedTables (callsOfValues ++ [(.empty, .schemaAt "b")]))
          = some chosen
        ∧ chosen.paths ≠ (whole.behind
          (onDisk valuedTables (callsOfValues ++ [(.empty, .schemaAt "b")]))).paths
        ∧ (whole.behind (onDisk valuedTables
          (callsOfValues ++ [(.empty, .schemaAt "b")]))).choice.pruned = some chosen.text
        ∧ (whole.behind (onDisk valuedTables
          (callsOfValues ++ [(.empty, .schemaAt "b")]))).schema = some schema
        ∧ ∀ p, Projection.parse schema chosen.text ≠ .ok p := by
  obtain ⟨hbehind, hlast⟩ := behind_callsOfValues
  -- the second look finds the other schema, and leaves the choice
  have hmoved : ((schemaAt (Backend.ofDisk valuedTables) "b" .empty).run
      (atValues ⟨none, some "v", false⟩)).state
      = (atValues ⟨none, some "v", false⟩).knowing "b"
        ⟨[⟨"id", .primitive .string⟩, ⟨"y", .primitive .int⟩]⟩ :=
    state_schemaAt_of_table (by decide) rfl (resolve_valuedTables _ _).2 openAt_valuedTables.2
  have hselectors : Selector.parseAll "v" = .ok [⟨"v", []⟩] := by cbv
  refine ⟨⟨["a"], "v"⟩, ⟨[⟨"id", .primitive .string⟩, ⟨"y", .primitive .int⟩]⟩, ?_⟩
  unfold onDisk at hbehind hlast ⊢
  rw [List.map_append, behind_append, lastChosen_append, hbehind, hlast]
  show (none : Option Chosen).or (some ⟨["a"], "v"⟩) = _
    ∧ _ ≠ ((schemaAt (Backend.ofDisk valuedTables) "b" .empty).run _).state.paths
    ∧ ((schemaAt (Backend.ofDisk valuedTables) "b" .empty).run _).state.choice.pruned = _
    ∧ ((schemaAt (Backend.ofDisk valuedTables) "b" .empty).run _).state.schema = _ ∧ _
  rw [hmoved]
  refine ⟨rfl, fun hpaths => absurd (List.cons.inj hpaths).1 (by decide), rfl, rfl,
    fun p hp => ?_⟩
  rcases (Projection.parse_eq_ok_iff hselectors).1 hp with ⟨hnil, -⟩ | ⟨-, hown, hresolves⟩
  · cases hnil
  · have hname := hresolves.mem_names (hown ▸ List.mem_singleton_self _)
    exact absurd hname (by decide)

end TableScan.Loader
