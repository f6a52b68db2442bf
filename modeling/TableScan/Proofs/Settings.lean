import TableScan.Settings
import TableScan.Proofs.Json.Text
import TableScan.Proofs.Keyed

/-!
# What settings read back

A list of paths travels as one text under one key. The text is that of a JSON array of strings, so
it spells the list whatever characters are in the paths; the key is one that partitions see, so the
copy of the settings that a task is given has it as well.

Main statement: the tables that are put into the settings of a job or of a task are the ones that
are read from them, in the copy for a task too, and no other key reads differently
(`JobSettings.tables_survive`).
-/

namespace TableScan

/-! ## One setting -/

namespace Settings

theorem tablePaths_congr {s t : Settings}
    (h : s.get? SettingKey.inputPaths.name = t.get? SettingKey.inputPaths.name) :
    s.tablePaths = t.tablePaths := by
  unfold tablePaths
  rw [h]

theorem flag_congr {s t : Settings} {key : String} (h : s.get? key = t.get? key) :
    s.flag key = t.flag key := by
  unfold flag
  rw [h]

theorem get?_set_self (s : Settings) (key value : String) :
    (s.set key value).get? key = some value :=
  Keyed.find?_insert_self key value s.entries

theorem get?_set_of_ne {key other : String} (h : other ≠ key) (s : Settings) (value : String) :
    (s.set key value).get? other = s.get? other :=
  Keyed.find?_insert_of_ne h value s.entries

end Settings

/-- A task sees under a task key what the job has there. -/
theorem TaskSettings.get?_ofJob {key : String} (h : reachesTasks key = true) (job : JobSettings) :
    (ofJob job).settings.get? key = job.settings.get? key :=
  Keyed.find?_filter h job.settings.entries

/-! ## Paths -/

namespace Settings

theorem mapM_asString?_trees (paths : List String) :
    (Json.trees (paths.map Json.string)).mapM Json.Syntax.asString? = some paths := by
  induction paths with
  | nil => rfl
  | cons path rest ih =>
    rw [List.map_cons, Json.trees, List.mapM_cons, ih]
    rfl

/-- Paths are read back from the text that spells them, whatever characters are in them. -/
theorem pathsOfText?_textOfPaths (paths : List String) :
    pathsOfText? (textOfPaths paths) = some paths := by
  unfold pathsOfText? textOfPaths
  rw [Json.Syntax.parse_render]
  exact mapM_asString?_trees paths

/-- Settings that spell some tables under their key have these tables. -/
theorem tablePaths_of_get? {s : Settings} {paths : List String}
    (h : s.get? SettingKey.inputPaths.name = some (textOfPaths paths)) :
    s.tablePaths = .ok paths := by
  unfold tablePaths
  rw [h]
  simp only [pathsOfText?_textOfPaths]

/-- The tables that are put into settings are the ones that are read from them. -/
theorem tablePaths_withTables (s : Settings) (paths : List String) :
    (s.withTables paths).tablePaths = .ok paths :=
  tablePaths_of_get? (get?_set_self _ _ _)

/-- Under the other keys they read as before. -/
theorem get?_withTables_of_ne {key : String} (h : key ≠ SettingKey.inputPaths.name) (s : Settings)
    (paths : List String) : (s.withTables paths).get? key = s.get? key :=
  get?_set_of_ne h s _

end Settings

/-- Input tables reach the tasks. -/
theorem reachesTasks_inputPaths : reachesTasks SettingKey.inputPaths.name = true := by decide

/-- No tables are refused to a task. -/
theorem TaskSettings.withTables_eq_ok (task : TaskSettings) (paths : List String) :
    task.withTables paths = .ok ⟨task.settings.withTables paths⟩ := by
  unfold withTables with?
  rw [if_pos reachesTasks_inputPaths]
  rfl

/-- Tables survive the settings: a list of paths, whatever characters are in them, that is put into
the settings of a job or of a task is read back as it is, in its order. All other keys read as
before, and a task that takes its settings from the job finds the same list. -/
theorem JobSettings.tables_survive (job : JobSettings) (task : TaskSettings)
    (paths : List String) :
    (job.withTables paths).settings.tablePaths = .ok paths
      ∧ (∀ key, key ≠ SettingKey.inputPaths.name →
          (job.withTables paths).settings.get? key = job.settings.get? key)
      ∧ (TaskSettings.ofJob (job.withTables paths)).settings.tablePaths = .ok paths
      ∧ ∃ changed, task.withTables paths = .ok changed
        ∧ changed.settings.tablePaths = .ok paths
        ∧ ∀ key, key ≠ SettingKey.inputPaths.name →
            changed.settings.get? key = task.settings.get? key := by
  have hcopy : (TaskSettings.ofJob (job.withTables paths)).settings.tablePaths
      = (job.withTables paths).settings.tablePaths :=
    Settings.tablePaths_congr (TaskSettings.get?_ofJob reachesTasks_inputPaths _)
  refine ⟨Settings.tablePaths_withTables _ _,
    fun key hkey => Settings.get?_withTables_of_ne hkey _ _,
    hcopy.trans (Settings.tablePaths_withTables _ _),
    ⟨task.settings.withTables paths⟩, TaskSettings.withTables_eq_ok task paths,
    Settings.tablePaths_withTables _ _,
    fun key hkey => Settings.get?_withTables_of_ne hkey _ _⟩

/-- Paths with commas, quotes, backslashes, control characters and characters outside ASCII, and an
empty path, in settings that hold something else as well. -/
theorem JobSettings.tables_survive_oddPaths :
    let job := JobSettings.empty.set SettingKey.inputSorted.name "true"
    let task := TaskSettings.ofJob job
    let paths := ["/data/a,b", "say \"x\"", "a\\b", "line\nbreak\x00", "Zürich/日本/𝄞", "",
      "/data/a,b"]
    (job.withTables paths).settings.tablePaths = .ok paths
      ∧ (job.withTables paths).settings.get? SettingKey.inputSorted.name = some "true"
      ∧ (TaskSettings.ofJob (job.withTables paths)).settings.tablePaths = .ok paths
      ∧ ∃ changed, task.withTables paths = .ok changed
        ∧ changed.settings.tablePaths = .ok paths
        ∧ changed.settings.get? SettingKey.inputSorted.name = some "true" := by
  intro job task paths
  have hkey : SettingKey.inputSorted.name ≠ SettingKey.inputPaths.name := by decide
  obtain ⟨hjob, hothers, hcopy, changed, hok, htask, hkept⟩ := tables_survive job task paths
  refine ⟨hjob, (hothers _ hkey).trans ?_, hcopy, changed, hok, htask, (hkept _ hkey).trans ?_⟩
  · exact Settings.get?_set_self _ _ _
  · exact (TaskSettings.get?_ofJob (by decide) job).trans (Settings.get?_set_self _ _ _)

end TableScan
