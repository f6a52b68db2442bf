import TableScan.Proofs.Json.Members
import TableScan.Proofs.Load.ValidPlans
import TableScan.Proofs.Schema.Text

/-!
# Plans as text

A plan travels to its partitions as JSON text. Reading the text back composes three scanners: that
of JSON, that of records with fixed fields, and that of schemas, which stand in the text as strings.

Main statement: a plan that a partition can run with is read back from its text, whatever characters
are in it, and a partition that starts with it asks for the projection text of the plan
(`parse_render_toJson`).
-/

namespace TableScan

namespace LoadPlan

open Json (Syntax)

/-- A plan that a partition can run with, and whose schemas have names that can be written: it has
tables, and sort columns if it is sorted. -/
structure IsSendable (d : LoadPlan) : Prop where
  paths : d.paths ≠ []
  schema : d.schema.IsWritable
  sortOrder : ∀ order, d.sortOrder = some order → order.schema.IsWritable
  sorted : d.sorted = true → d.sortOrder.isSome = true

/-- A schema that can be written is read back from the string that it stands in. -/
theorem asSchema?_tree {s : Schema} (h : s.IsWritable) :
    asSchema? (Json.string s.text).tree = some s := by
  have hparse : (Schema.parse s.text).toOption = some s := by
    rw [Schema.parse_text h]
    rfl
  exact hparse

/-- Strings are read back from their array. -/
theorem asStrings?_tree (texts : List String) :
    (Json.ofStrings texts).tree.asStrings? = some texts :=
  Settings.mapM_asString?_trees texts

/-- The names under which a plan is written, as far as it has something to write. -/
def names (d : LoadPlan) : List String :=
  ["consumer", "signature", "paths"] ++ (if d.projection.isSome then ["projection"] else [])
    ++ ["sorted", "schema"] ++ if d.sortOrder.isSome then ["sort_spec"] else []

/-- No name is written twice. -/
theorem nodup_names (d : LoadPlan) : d.names.Nodup := by
  unfold names
  cases d.projection.isSome <;> cases d.sortOrder.isSome <;> decide

/-- A plan is written under its names. -/
theorem exists_members (d : LoadPlan) :
    ∃ members, d.toJson = .object members ∧ members.map Prod.fst = d.names := by
  obtain ⟨consumer, signature, paths, projection, sorted, schema, sortOrder⟩ := d
  cases projection <;> cases sortOrder <;> exact ⟨_, rfl, rfl⟩

/-- The parts of a plan are found under their names. -/
theorem fields?_toJson (d : LoadPlan) :
    Syntax.fields? ["consumer", "signature", "paths", "projection", "sorted", "schema", "sort_spec"]
        d.toJson.tree
      = some [some (Json.string d.consumer).tree, some (Json.string d.signature).tree,
        some (Json.ofStrings d.paths).tree, d.projection.map fun text => (Json.string text).tree,
        some (Json.bool d.sorted).tree, some (Json.string d.schema.text).tree,
        d.sortOrder.map fun order => (Json.string order.text).tree] := by
  obtain ⟨members, hjson, hnames⟩ := exists_members d
  rw [hjson, Syntax.fields?_tree (hnames ▸ nodup_names d)]
  obtain ⟨consumer, signature, paths, projection, sorted, schema, sortOrder⟩ := d
  obtain rfl := Json.object.inj hjson
  cases projection <;> cases sortOrder <;> rfl

/-- What a plan is written as is read as that plan. -/
theorem ofSyntax?_tree {d : LoadPlan} (h : d.IsSendable) : ofSyntax? d.toJson.tree = some d := by
  -- part by part: what may be missing is read as missing, and the rest as it was written
  have hprojection : Syntax.withDefault none (Syntax.asOptional? Syntax.asString?)
      (d.projection.map fun text => (Json.string text).tree) = some d.projection := by
    cases d.projection <;> rfl
  have horder : Syntax.withDefault none (Syntax.asOptional? asSchema?)
      (d.sortOrder.map fun order => (Json.string order.text).tree)
        = some (d.sortOrder.map SortOrder.schema) := by
    cases horder : d.sortOrder with
    | none => rfl
    | some order => exact congrArg (Option.map some) (asSchema?_tree (h.sortOrder order horder))
  -- the order is written as the schema of its columns
  have hmk : (d.sortOrder.map SortOrder.schema).map SortOrder.mk = d.sortOrder := by
    cases d.sortOrder <;> rfl
  have htext : ∀ text, Syntax.required Syntax.asString? (some (Json.string text).tree)
      = some text := fun _ => rfl
  have hpaths : Syntax.required Syntax.asStrings? (some (Json.ofStrings d.paths).tree)
      = some d.paths := asStrings?_tree d.paths
  have hsorted : Syntax.required Syntax.asBool? (some (Json.bool d.sorted).tree)
      = some d.sorted := rfl
  have hschema : Syntax.required asSchema? (some (Json.string d.schema.text).tree)
      = some d.schema := asSchema?_tree h.schema
  unfold ofSyntax?
  rw [fields?_toJson]
  simp only [Option.bind_eq_bind, Option.bind_some, htext, hpaths, hprojection, hsorted, hschema,
    horder, hmk]
  rfl

/-- A plan that can be run with passes the check behind reading. -/
theorem checked_of_isSendable {d : LoadPlan} (h : d.IsSendable) : d.checked = .ok d := by
  have hpaths : ¬ d.paths.isEmpty = true := fun hempty => h.paths (List.isEmpty_iff.1 hempty)
  have hsorted : ¬ (d.sorted && d.sortOrder.isNone) = true := by
    rw [Bool.and_eq_true, Option.isNone_iff_eq_none]
    rintro ⟨hsorted, hnone⟩
    have hsome := h.sorted hsorted
    rw [hnone] at hsome
    cases hsome
  unfold checked
  rw [if_neg hpaths, if_neg hsorted]

/-- A plan is read back from its text. -/
theorem parse_toJson {d : LoadPlan} (h : d.IsSendable) : parse d.toJson.render = .ok d := by
  unfold parse
  rw [Syntax.parse_render, Option.bind_some, ofSyntax?_tree h]
  exact checked_of_isSendable h

end LoadPlan

namespace Partition

variable {ρ : Type} {engine : StorageEngine ρ} {job : JobSettings} {it it' : Partition ρ}
  {log : List Log.Entry}

/-- A partition that has started holds a reader of its tables through the text of its plan. -/
theorem start_eq_ok (h : (start engine job).run it = ⟨.ok (), it', log⟩) :
    it'.plan = it.plan ∧ ∃ task reader, settingsFor it.plan job = .ok task
      ∧ engine.openInput task.settings it.plan.projectionText = .ok reader
      ∧ it'.reader = some reader := by
  unfold start at h
  obtain ⟨_, mid, _, _, hallow, hstart⟩ := Step.exists_of_run_bind h
  -- the permission leaves the partition as it is
  obtain rfl : mid = it := by
    unfold allowIn at hallow
    rw [Step.run_bind_get] at hallow
    split at hallow
    · exact (Outcome.mk.inj hallow).2.1.symm
    · cases hallow
  rw [Step.run_bind_get] at hstart
  obtain ⟨task, _, _, _, hsettings, hstart⟩ := Step.exists_of_run_bind hstart
  obtain ⟨htask, rfl, -⟩ := Outcome.mk.inj hsettings
  dsimp only at hstart
  split at hstart
  -- a sorted plan agrees on its order first, which changes neither plan nor reader
  · obtain ⟨order, _, _, _, horder, hstart⟩ := Step.exists_of_run_bind hstart
    obtain ⟨-, rfl, -⟩ := Outcome.mk.inj horder
    obtain ⟨_, _, _, _, hadopt, hopened⟩ := Step.exists_of_run_bind hstart
    obtain ⟨keys, _, _, _, hkeys, hadopt⟩ := Step.exists_of_run_bind hadopt
    obtain ⟨-, rfl, -⟩ := Outcome.mk.inj hkeys
    obtain ⟨-, rfl, -⟩ := Outcome.mk.inj hadopt
    obtain ⟨reader, _, _, _, hreader, hopened⟩ := Step.exists_of_run_bind hopened
    obtain ⟨hopens, rfl, -⟩ := Outcome.mk.inj hreader
    obtain ⟨-, rfl, -⟩ := Outcome.mk.inj hopened
    exact ⟨rfl, task, reader, htask, hopens, rfl⟩
  -- a plan that is not sorted opens its reader at once
  · obtain ⟨reader, _, _, _, hreader, hopened⟩ := Step.exists_of_run_bind hstart
    obtain ⟨hopens, rfl, -⟩ := Outcome.mk.inj hreader
    obtain ⟨-, rfl, -⟩ := Outcome.mk.inj hopened
    exact ⟨rfl, task, reader, htask, hopens, rfl⟩

end Partition

namespace Loader

variable {ρ : Type}

/-- The loader of a plan tells the projection text of the plan, unless it selects nothing. -/
theorem projection_ofPlan {d : LoadPlan} {text : String} (hprojection : d.projection = some text)
    (hblank : Text.isBlankText text = false) :
    (ofPlan d : Loader ρ).projection = some text := by
  have hpruned : ProjectionChoice.nonBlank d.projection = some text := by
    rw [hprojection, ProjectionChoice.nonBlank, Option.filter_some, hblank]
    rfl
  show (ProjectionChoice.nonBlank d.projection).or none = some text
  rw [hpruned]
  rfl

/-- The loader of a plan that has started tells what it told before, and its partition reads through
the text of the plan. -/
theorem start_ofPlan_eq_ok {backend : Backend ρ} {job : JobSettings} {d : LoadPlan} {l' : Loader ρ}
    {log : List Log.Entry} (h : (start backend job).run (ofPlan d) = ⟨.ok (), l', log⟩) :
    l'.projection = (ofPlan d : Loader ρ).projection
      ∧ ∃ it task reader, l'.partition = some it ∧ it.plan = d ∧ it.reader = some reader
        ∧ Partition.settingsFor d job = .ok task
        ∧ backend.engine.openInput task.settings d.projectionText = .ok reader := by
  rcases hrun : (Partition.start backend.engine job).run (.ofPlan d) with ⟨result, it, log'⟩
  -- the loader has the partition of its plan already, so a start is the start of this partition
  have hstart : (start backend job).run (ofPlan d)
      = ⟨result, { (ofPlan d : Loader ρ) with partition := some it }, log'⟩ :=
    congrArg (fun o => (⟨o.result, { (ofPlan d : Loader ρ) with partition := some o.state },
      o.log⟩ : Outcome (Loader ρ) Unit)) hrun
  rw [hstart] at h
  obtain ⟨rfl, rfl, -⟩ := Outcome.mk.inj h
  obtain ⟨hplan, task, reader, htask, hopens, hheld⟩ := Partition.start_eq_ok hrun
  exact ⟨rfl, it, task, reader, rfl, hplan, hheld, htask, hopens⟩

end Loader

namespace LoadPlan

/-- A plan that a partition can run with is read back from its text, whatever characters are in its
parts. The loader that is made of what was read tells the projection text of the plan, unless it
selects nothing, and once it has started its partition reads through exactly this text. -/
theorem parse_render_toJson {ρ : Type} {d : LoadPlan} (h : d.IsSendable) :
    parse d.toJson.render = .ok d
      ∧ ∀ text, d.projection = some text →
        (Text.isBlankText text = false → (Loader.ofPlan d : Loader ρ).projection = some text)
          ∧ ∀ (backend : Backend ρ) (job : JobSettings) (l' : Loader ρ) (log : List Log.Entry),
            (Loader.start backend job).run (Loader.ofPlan d) = ⟨.ok (), l', log⟩ →
            l'.projection = (Loader.ofPlan d : Loader ρ).projection
              ∧ ∃ it task reader, l'.partition = some it ∧ it.plan = d ∧ it.reader = some reader
                ∧ Partition.settingsFor d job = .ok task
                ∧ backend.engine.openInput task.settings text = .ok reader := by
  refine ⟨parse_toJson h, fun text htext => ⟨Loader.projection_ofPlan htext, ?_⟩⟩
  intro backend job l' log hstart
  obtain rfl : d.projectionText = text := congrArg (Option.getD · "") htext
  exact Loader.start_ofPlan_eq_ok hstart

/-- A plan with quotes, line breaks and letters of other alphabets in its texts. -/
def planOfAccents : LoadPlan where
  consumer := "l\\ader \"größe\"\n"
  signature := "подпись\u0001"
  paths := ["tables/größe", ""]
  projection := some "n, m#\x7bä|\"\x7d"
  sorted := true
  schema := ⟨[⟨"n", .primitive .int⟩, ⟨"m", .map (.record [⟨"n", .primitive .string⟩])⟩]⟩
  sortOrder := some ⟨⟨[⟨"n", .primitive .int⟩]⟩⟩

/-- A backend whose readers are the texts that they were opened with. -/
def echo : Backend String where
  engine := {
    schemaOf := fun _ _ => .ok .empty
    agreedOrder := fun _ order => .ok (order.getD ⟨.empty⟩)
    sharedOrder := fun _ => .ok none
    shares := fun _ => .ok []
    openInput := fun _ text => .ok text
    openShare := fun _ _ text => .ok text }
  files := fun _ => .ok []

/-- The plan comes back letter by letter, and the reader gets its text unchanged. -/
theorem parse_render_toJson_planOfAccents :
    parse planOfAccents.toJson.render = .ok planOfAccents
      ∧ (Loader.ofPlan planOfAccents : Loader String).projection = some "n, m#\x7bä|\"\x7d"
      ∧ ∃ it,
        ((Loader.start echo .empty).run (Loader.ofPlan planOfAccents)).state.partition = some it
        ∧ it.reader = some "n, m#\x7bä|\"\x7d" := by
  have hsendable : planOfAccents.IsSendable := by
    refine ⟨List.cons_ne_nil _ _, ?_, fun order horder => ?_, fun _ => rfl⟩
    · have hdistinct : ["n", "m"].Nodup := by decide
      exact ⟨⟨rfl, trivial, rfl, ⟨⟨rfl, trivial, trivial⟩, List.nodup_singleton _⟩, trivial⟩,
        hdistinct⟩
    · obtain rfl := Option.some.inj horder
      exact ⟨⟨rfl, trivial, trivial⟩, List.nodup_singleton _⟩
  have hstarts : ((Loader.start echo .empty).run (Loader.ofPlan planOfAccents)).result = .ok () :=
    rfl
  obtain ⟨hparse, hprojection⟩ := @parse_render_toJson String _ hsendable
  obtain ⟨htold, hread⟩ := hprojection _ rfl
  rcases hrun : (Loader.start echo .empty).run (Loader.ofPlan planOfAccents) with ⟨result, l', log⟩
  rw [hrun] at hstarts
  obtain rfl : result = .ok () := hstarts
  obtain ⟨-, it, task, reader, hit, -, hreader, -, hopens⟩ := hread echo .empty l' log hrun
  obtain rfl := Except.ok.inj hopens
  exact ⟨hparse, htold (by decide), it, hit, hreader⟩

end LoadPlan

end TableScan
