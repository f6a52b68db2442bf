import Mathlib
import TableScan.Proofs.Load.ValidPlans

/-!
# What a loader writes into its job

A loader that is told its location writes three settings into the job: the tables, that they are
merged if it is a sorted one, and the projection if it has one in force. The job is shared, and
holds whatever other loads have written before. Each of the three is written or left as it is; none
is ever taken out, and the projection comes last and may be refused.

Main statement: what the job says after a loader was told its location, and when that is about this
loader alone (`locate_exact`).
-/

namespace TableScan

/-! ## Writing a setting again -/

namespace JobSettings

/-- The job says something already: writing it again changes nothing. -/
def Holds (job : JobSettings) (key value : String) : Prop := job.set key value = job

/-- What was written is there. -/
theorem holds_set (job : JobSettings) (key value : String) : (job.set key value).Holds key value :=
  congrArg (fun entries => (⟨⟨entries⟩⟩ : JobSettings))
    (Keyed.insert_insert_self key value job.settings.entries)

/-- Writing another setting leaves it there. -/
theorem Holds.set {job : JobSettings} {key value : String} (h : job.Holds key value)
    {other : String} (hne : key ≠ other) (w : String) : (job.set other w).Holds key value := by
  have hentries : Keyed.insert key value job.settings.entries = job.settings.entries :=
    congrArg (fun job : JobSettings => job.settings.entries) h
  exact congrArg (fun entries => (⟨⟨entries⟩⟩ : JobSettings))
    (Keyed.insert_insert_of_ne hne w hentries)

end JobSettings

/-! ## Steps of a loader and its job -/

theorem Step.run_zoom {σ τ α : Type} (part : σ → τ) (put : τ → σ → σ) (step : Step τ α) (s : σ) :
    (step.zoom part put).run s
      = ⟨(step.run (part s)).result, put (step.run (part s)).state s, (step.run (part s)).log⟩ :=
  rfl

/-- A location that resolves has some table. -/
theorem Location.ne_nil_of_resolve {σ : Type} {files : PathSearch} {strict : Bool}
    {location : String} {settings : Settings} {s s' : σ} {paths : List String}
    {log : List Log.Entry}
    (h : (resolve files strict location settings).run s = ⟨.ok paths, s', log⟩) : paths ≠ [] := by
  obtain ⟨tables, s₁, log₁, log₂, -, h⟩ := Step.exists_of_run_bind h
  split at h
  · cases h
  · next hsome =>
    obtain ⟨_, s₂, log₃, log₄, -, h⟩ := Step.exists_of_run_bind h
    obtain ⟨hpaths, -, -⟩ := Outcome.mk.inj h
    obtain rfl := Except.ok.inj hpaths
    exact fun hnil => hsome (List.isEmpty_iff.2 hnil)

namespace Loader

variable {ρ : Type} {backend : Backend ρ} {location : String} {job : JobSettings}
  {l l' : Loader ρ} {log : List Log.Entry}

/-- A resolution that answers was not needed, or has found the tables of another location. -/
theorem resolveTables_eq_ok
    (h : (resolveTables backend location job).run l = ⟨.ok (), l', log⟩) :
    (l.isResolved location = true ∧ l' = l)
      ∨ l.isResolved location = false ∧ ∃ paths, paths ≠ []
        ∧ l' = { l with
          location := some location, paths := paths, schema := none, sortOrder := none } := by
  unfold resolveTables at h
  rw [Step.run_bind_get] at h
  split at h
  · next hresolved =>
    obtain ⟨-, rfl, -⟩ := Outcome.mk.inj h
    exact .inl ⟨hresolved, rfl⟩
  -- the location is another one, and what was found for the last one is dropped
  · next hopen =>
    obtain ⟨paths, own, log₁, log₂, hpaths, hput⟩ := Step.exists_of_run_bind h
    have hstill := Location.keeps_resolve backend.files l.strictDirectories location
      job.settings l rfl
    rw [hpaths] at hstill
    obtain rfl : own = l := hstill.symm
    obtain ⟨-, rfl, -⟩ := Outcome.mk.inj hput
    exact .inr ⟨Bool.eq_false_iff.2 hopen, paths, Location.ne_nil_of_resolve hpaths, rfl⟩

/-- Another location makes what was looked up for the last one void. -/
theorem run_resolveTables_of_resolve {paths : List String} (hopen : l.isResolved location = false)
    (h : (Location.resolve backend.files l.strictDirectories location job.settings).run l
      = ⟨.ok paths, l, log⟩) :
    (resolveTables backend location job).run l = ⟨.ok (), { l with
      location := some location, paths := paths, schema := none, sortOrder := none }, log⟩ := by
  unfold resolveTables
  rw [Step.run_bind_get, if_neg (Bool.eq_false_iff.1 hopen), Step.run_bind_ok h,
    Step.run_update, List.append_nil]

/-- A location that was resolved needs no resolution again. -/
theorem isResolved_of_resolveTables
    (h : (resolveTables backend location job).run l = ⟨.ok (), l', log⟩) :
    l'.isResolved location = true := by
  rcases resolveTables_eq_ok h with ⟨hresolved, rfl⟩ | ⟨-, paths, hsome, rfl⟩
  · exact hresolved
  · show (!paths.isEmpty && (_ || some location == some location)) = true
    rw [List.isEmpty_eq_false_iff.2 hsome, beq_self_eq_true, Bool.or_true]
    rfl

/-- A resolution that fails leaves the loader as it was. -/
theorem state_of_resolveTables_error {e : LoadError}
    (h : (resolveTables backend location job).run l = ⟨.error e, l', log⟩) : l' = l := by
  unfold resolveTables at h
  rw [Step.run_bind_get] at h
  split at h
  · cases h
  -- resolving reports only, and nothing is stored before it has answered
  · have hstill := Location.keeps_resolve backend.files l.strictDirectories location
      job.settings l rfl
    rcases hrun : (Location.resolve backend.files l.strictDirectories location
      job.settings).run l with ⟨result, s₁, log₁⟩
    rw [hrun] at hstill
    cases result with
    | error own =>
      rw [Step.run_bind_error hrun] at h
      obtain ⟨-, rfl, -⟩ := Outcome.mk.inj h
      exact hstill.symm
    | ok paths =>
      rw [Step.run_bind_ok hrun] at h
      cases h

/-- The job with the tables of a loader and, where it merges them, with that. -/
def namedIn (l : Loader ρ) (job : JobSettings) : JobSettings :=
  if l.sorted then (job.withTables l.paths).set SettingKey.inputSorted.name "true"
  else job.withTables l.paths

/-- The tables and whether they are merged are written first, and then the projection in force. -/
theorem run_announce (l : Loader ρ) (job : JobSettings) :
    (announce l).run job = ((match l.projection with
      | none => pure ()
      | some text => do
        let job ← Step.get
        let job ← Step.ofResult (job.withProjection text)
        Step.update fun _ => job : Step JobSettings Unit)).run (l.namedIn job) := by
  unfold announce namedIn
  cases l.sorted with
  | true => rfl
  | false => rfl

/-- Without a projection only the tables are written. -/
theorem run_announce_of_none (h : l.projection = none) (job : JobSettings) :
    (announce l).run job = ⟨.ok (), l.namedIn job, []⟩ := by
  rw [run_announce, h]
  rfl

/-- A projection that is well formed is written last. -/
theorem run_announce_of_some {text : String} (h : l.projection = some text)
    {selectors : List Selector} (hparse : Selector.parseAll text = .ok selectors)
    (job : JobSettings) :
    (announce l).run job
      = ⟨.ok (), (l.namedIn job).set SettingKey.inputProjection.name text, []⟩ := by
  have hput : (l.namedIn job).withProjection text
      = .ok ((l.namedIn job).set SettingKey.inputProjection.name text) :=
    Results.bind_eq_ok_iff.2 ⟨selectors, hparse, rfl⟩
  rw [run_announce, h]
  show (Step.ofResult ((l.namedIn job).withProjection text) >>= _ : Step JobSettings Unit).run _ = _
  rw [hput]
  rfl

/-- Projection text that is not well formed is refused when the rest has been written. -/
theorem run_announce_of_error {text : String} (h : l.projection = some text) {e : LoadError}
    (hparse : Selector.parseAll text = .error e) (job : JobSettings) :
    (announce l).run job = ⟨.error e, l.namedIn job, []⟩ := by
  have hput : (l.namedIn job).withProjection text = .error e :=
    Results.bind_eq_error_iff.2 (.inl hparse)
  rw [run_announce, h]
  show (Step.ofResult ((l.namedIn job).withProjection text) >>= _ : Step JobSettings Unit).run _ = _
  rw [hput]
  rfl

/-- Locating is resolving, and then writing into the job. -/
theorem run_locate_of_ok (h : (resolveTables backend location job).run l = ⟨.ok (), l', log⟩) :
    (locate backend location).run (l, job)
      = ⟨((announce l').run job).result, (l', ((announce l').run job).state),
        log ++ ((announce l').run job).log⟩ := by
  have hzoom : ((resolveTables backend location job).zoom Prod.fst
      (fun l s => (l, s.2)) : Step (Loader ρ × JobSettings) Unit).run (l, job)
      = ⟨.ok (), (l', job), log⟩ := by
    rw [Step.run_zoom, h]
  unfold locate
  rw [Step.run_bind_get]
  show (((resolveTables backend location job).zoom Prod.fst (fun l s => (l, s.2)))
    >>= _ : Step (Loader ρ × JobSettings) Unit).run (l, job) = _
  rw [Step.run_bind_ok hzoom]
  rfl

/-- A location that does not resolve writes nothing into the job. -/
theorem run_locate_of_error {e : LoadError}
    (h : (resolveTables backend location job).run l = ⟨.error e, l', log⟩) :
    (locate backend location).run (l, job) = ⟨.error e, (l', job), log⟩ := by
  have hzoom : ((resolveTables backend location job).zoom Prod.fst
      (fun l s => (l, s.2)) : Step (Loader ρ × JobSettings) Unit).run (l, job)
      = ⟨.error e, (l', job), log⟩ := by
    rw [Step.run_zoom, h]
  unfold locate
  rw [Step.run_bind_get]
  show (((resolveTables backend location job).zoom Prod.fst (fun l s => (l, s.2)))
    >>= _ : Step (Loader ρ × JobSettings) Unit).run (l, job) = _
  rw [Step.run_bind_error hzoom]

/-- A call that answers has resolved the location and written all settings. -/
theorem locate_eq_ok {job' : JobSettings}
    (h : (locate backend location).run (l, job) = ⟨.ok (), (l', job'), log⟩) :
    ∃ log₁ log₂, (resolveTables backend location job).run l = ⟨.ok (), l', log₁⟩
      ∧ (announce l').run job = ⟨.ok (), job', log₂⟩ := by
  rcases hresolve : (resolveTables backend location job).run l with ⟨result, own, log₁⟩
  cases result with
  | error e =>
    rw [run_locate_of_error hresolve] at h
    cases h
  | ok _ =>
    rw [run_locate_of_ok hresolve] at h
    obtain ⟨hresult, hstate, -⟩ := Outcome.mk.inj h
    obtain ⟨rfl, rfl⟩ := Prod.mk.inj hstate
    exact ⟨log₁, _, rfl, by rw [← hresult]⟩

/-- A call that fails has either not resolved the location, or not been able to write. -/
theorem locate_eq_error {e : LoadError} {job' : JobSettings}
    (h : (locate backend location).run (l, job) = ⟨.error e, (l', job'), log⟩) :
    ((resolveTables backend location job).run l = ⟨.error e, l', log⟩ ∧ job' = job)
      ∨ ∃ log', (announce l').run job = ⟨.error e, job', log'⟩ := by
  rcases hresolve : (resolveTables backend location job).run l with ⟨result, own, log₁⟩
  cases result with
  | error e =>
    rw [run_locate_of_error hresolve] at h
    obtain ⟨hresult, hstate, rfl⟩ := Outcome.mk.inj h
    obtain ⟨rfl, rfl⟩ := Prod.mk.inj hstate
    exact .inl ⟨by rw [hresult], rfl⟩
  | ok _ =>
    rw [run_locate_of_ok hresolve] at h
    obtain ⟨hresult, hstate, -⟩ := Outcome.mk.inj h
    obtain ⟨rfl, rfl⟩ := Prod.mk.inj hstate
    exact .inr ⟨_, by rw [← hresult]⟩

/-! ## What the job says -/

/-- What a job says of the input is what a loader reads. -/
structure IsAnnouncedIn (l : Loader ρ) (job : JobSettings) : Prop where
  tables : job.settings.tablePaths = .ok l.paths
  merged : job.settings.flag SettingKey.inputSorted.name = l.sorted
  projection : job.settings.projection? = l.projection

/-- No other settings are written. -/
theorem get?_namedIn (l : Loader ρ) (job : JobSettings) {key : String}
    (hpaths : key ≠ SettingKey.inputPaths.name) (hsorted : key ≠ SettingKey.inputSorted.name) :
    (l.namedIn job).settings.get? key = job.settings.get? key := by
  unfold namedIn
  split
  · exact (Settings.get?_set_of_ne hsorted _ _).trans (Settings.get?_set_of_ne hpaths _ _)
  · exact Settings.get?_set_of_ne hpaths _ _

/-- The job names the tables of the loader. -/
theorem tablePaths_namedIn (l : Loader ρ) (job : JobSettings) :
    (l.namedIn job).settings.tablePaths = .ok l.paths := by
  have hkeys : SettingKey.inputPaths.name ≠ SettingKey.inputSorted.name := by decide
  rw [← Settings.tablePaths_withTables job.settings l.paths]
  unfold namedIn
  split
  · exact Settings.tablePaths_congr (Settings.get?_set_of_ne hkeys _ _)
  · rfl

/-- A sorted load says that it is one; the others leave what the job says. -/
theorem flag_namedIn (l : Loader ρ) (job : JobSettings) :
    (l.namedIn job).settings.flag SettingKey.inputSorted.name
      = (l.sorted || job.settings.flag SettingKey.inputSorted.name) := by
  have hkeys : SettingKey.inputSorted.name ≠ SettingKey.inputPaths.name := by decide
  unfold namedIn
  cases l.sorted with
  | true => exact Partition.wantsSorted_set_true _
  | false => exact Settings.flag_congr (Settings.get?_set_of_ne hkeys _ _)

/-- What a loader has written is there. -/
theorem holds_namedIn (l : Loader ρ) (job : JobSettings) :
    (l.namedIn job).Holds SettingKey.inputPaths.name (Settings.textOfPaths l.paths)
      ∧ (l.sorted = true → (l.namedIn job).Holds SettingKey.inputSorted.name "true") := by
  have hkeys : SettingKey.inputPaths.name ≠ SettingKey.inputSorted.name := by decide
  have htables : (job.withTables l.paths).Holds SettingKey.inputPaths.name
      (Settings.textOfPaths l.paths) := JobSettings.holds_set job _ _
  unfold namedIn
  cases l.sorted with
  | true => exact ⟨htables.set hkeys _, fun _ => JobSettings.holds_set _ _ _⟩
  | false => exact ⟨htables, fun h => by cases h⟩

/-- Writing the tables again changes nothing exactly where the job says them already. -/
theorem namedIn_eq_self_iff (l : Loader ρ) (job : JobSettings) :
    l.namedIn job = job ↔
      job.Holds SettingKey.inputPaths.name (Settings.textOfPaths l.paths)
        ∧ (l.sorted = true → job.Holds SettingKey.inputSorted.name "true") := by
  constructor
  · intro h
    have hholds := holds_namedIn l job
    rwa [h] at hholds
  -- nothing changes step by step
  · rintro ⟨htables, hmerged⟩
    have hown : job.withTables l.paths = job := htables
    unfold namedIn
    rw [hown]
    split
    · next hsorted => exact hmerged hsorted
    · rfl

/-- The job that a loader has written into. -/
theorem announce_eq_ok {job' : JobSettings} (h : (announce l).run job = ⟨.ok (), job', log⟩) :
    (l.projection = none ∧ job' = l.namedIn job)
      ∨ ∃ text selectors, l.projection = some text ∧ Selector.parseAll text = .ok selectors
        ∧ job' = (l.namedIn job).set SettingKey.inputProjection.name text := by
  cases hprojection : l.projection with
  | none =>
    rw [run_announce_of_none hprojection] at h
    obtain ⟨-, rfl, -⟩ := Outcome.mk.inj h
    exact .inl ⟨rfl, rfl⟩
  | some text =>
    cases hparse : Selector.parseAll text with
    | error e =>
      rw [run_announce_of_error hprojection hparse] at h
      cases h
    | ok selectors =>
      rw [run_announce_of_some hprojection hparse] at h
      obtain ⟨-, rfl, -⟩ := Outcome.mk.inj h
      exact .inr ⟨text, selectors, rfl, hparse, rfl⟩

/-- A loader fails to write by its projection text alone. -/
theorem announce_eq_error {e : LoadError} {job' : JobSettings}
    (h : (announce l).run job = ⟨.error e, job', log⟩) :
    ∃ text, l.projection = some text ∧ Selector.parseAll text = .error e
      ∧ job' = l.namedIn job := by
  cases hprojection : l.projection with
  | none =>
    rw [run_announce_of_none hprojection] at h
    cases h
  | some text =>
    cases hparse : Selector.parseAll text with
    | ok selectors =>
      rw [run_announce_of_some hprojection hparse] at h
      cases h
    | error own =>
      rw [run_announce_of_error hprojection hparse] at h
      obtain ⟨hresult, rfl, -⟩ := Outcome.mk.inj h
      exact ⟨text, rfl, by rw [hparse, Except.error.inj hresult], rfl⟩

/-- A job that a loader has written into is left as it is when the loader writes again. -/
theorem run_announce_again {job' : JobSettings}
    (h : (announce l).run job = ⟨.ok (), job', log⟩) :
    (announce l).run job' = ⟨.ok (), job', []⟩ := by
  have hpaths : SettingKey.inputPaths.name ≠ SettingKey.inputProjection.name := by decide
  have hsorted : SettingKey.inputSorted.name ≠ SettingKey.inputProjection.name := by decide
  obtain ⟨htables, hmerged⟩ := holds_namedIn l job
  rcases announce_eq_ok h with ⟨hnone, rfl⟩ | ⟨text, selectors, hsome, hparse, rfl⟩
  · rw [run_announce_of_none hnone, (namedIn_eq_self_iff l _).2 ⟨htables, hmerged⟩]
  · have hnamed := (namedIn_eq_self_iff l _).2
      ⟨htables.set hpaths text, fun h => (hmerged h).set hsorted text⟩
    have hsaid := JobSettings.holds_set (l.namedIn job) SettingKey.inputProjection.name text
    rw [run_announce_of_some hsome hparse, hnamed, hsaid]

theorem get?_projection_of_announce {job' : JobSettings}
    (h : (announce l).run job = ⟨.ok (), job', log⟩) :
    job'.settings.get? SettingKey.inputProjection.name
      = l.projection.or (job.settings.get? SettingKey.inputProjection.name) := by
  have hpaths : SettingKey.inputProjection.name ≠ SettingKey.inputPaths.name := by decide
  have hsorted : SettingKey.inputProjection.name ≠ SettingKey.inputSorted.name := by decide
  rcases announce_eq_ok h with ⟨hnone, rfl⟩ | ⟨text, _, hsome, -, rfl⟩
  · rw [hnone]
    exact get?_namedIn l job hpaths hsorted
  · rw [hsome]
    exact Settings.get?_set_self _ _ _

/-- Writing the projection changes nothing else. -/
theorem get?_of_announce {job' : JobSettings} (h : (announce l).run job = ⟨.ok (), job', log⟩)
    {key : String} (hkey : key ≠ SettingKey.inputProjection.name) :
    job'.settings.get? key = (l.namedIn job).settings.get? key := by
  rcases announce_eq_ok h with ⟨-, rfl⟩ | ⟨text, _, -, -, rfl⟩
  · rfl
  · exact Settings.get?_set_of_ne hkey _ _

/-- A projection in force is what the job says then, and without one the job says what it said. -/
theorem projection?_of_announce_iff {job' : JobSettings}
    (h : (announce l).run job = ⟨.ok (), job', log⟩) :
    job'.settings.projection? = l.projection ↔
      (l.projection = none → job.settings.projection? = none)
        ∧ ∀ text, l.projection = some text → Text.isBlankText text = false := by
  unfold Settings.projection?
  rw [get?_projection_of_announce h]
  cases l.projection with
  | none => simp
  | some text => simp

/-- What the job says after a loader was told its location: the tables are those of the loader; a
flag or a projection that other loads left there stays where the loader has none of its own, so the
job is about this loader alone exactly where there was no such thing. All else stays, and so does
everything when the loader is told again. A location that cannot be resolved changes nothing;
projection text that is not well formed is refused after the tables and the flag were written. -/
theorem locate_exact (backend : Backend ρ) (location : String) (l : Loader ρ)
    (job : JobSettings) :
    (∀ l' job' log, (locate backend location).run (l, job) = ⟨.ok (), (l', job'), log⟩ →
      job'.settings.tablePaths = .ok l'.paths
        ∧ job'.settings.flag SettingKey.inputSorted.name
          = (l'.sorted || job.settings.flag SettingKey.inputSorted.name)
        ∧ job'.settings.get? SettingKey.inputProjection.name
          = l'.projection.or (job.settings.get? SettingKey.inputProjection.name)
        ∧ (∀ key, key ≠ SettingKey.inputPaths.name → key ≠ SettingKey.inputSorted.name →
          key ≠ SettingKey.inputProjection.name →
            job'.settings.get? key = job.settings.get? key)
        ∧ (locate backend location).run (l', job') = ⟨.ok (), (l', job'), []⟩
        ∧ (l'.IsAnnouncedIn job' ↔
          (job.settings.flag SettingKey.inputSorted.name = true → l'.sorted = true)
            ∧ (l'.projection = none → job.settings.projection? = none)
            ∧ ∀ text, l'.projection = some text → Text.isBlankText text = false))
      ∧ ∀ e l' job' log, (locate backend location).run (l, job) = ⟨.error e, (l', job'), log⟩ →
        (((resolveTables backend location job).run l).result = .error e ∧ l' = l ∧ job' = job)
          ∨ ∃ text, l'.projection = some text ∧ Selector.parseAll text = .error e
            ∧ job' = l'.namedIn job
            ∧ (job' = job ↔
              job.Holds SettingKey.inputPaths.name (Settings.textOfPaths l'.paths)
                ∧ (l'.sorted = true → job.Holds SettingKey.inputSorted.name "true")) := by
  have hpaths : SettingKey.inputPaths.name ≠ SettingKey.inputProjection.name := by decide
  have hsorted : SettingKey.inputSorted.name ≠ SettingKey.inputProjection.name := by decide
  constructor
  · intro l' job' log h
    obtain ⟨log₁, log₂, hresolve, hannounce⟩ := locate_eq_ok h
    -- the projection is written last, so what was written of the rest stays
    have htables : job'.settings.tablePaths = .ok l'.paths :=
      (Settings.tablePaths_congr (get?_of_announce hannounce hpaths)).trans
        (tablePaths_namedIn l' job)
    have hflag : job'.settings.flag SettingKey.inputSorted.name
        = (l'.sorted || job.settings.flag SettingKey.inputSorted.name) :=
      (Settings.flag_congr (get?_of_announce hannounce hsorted)).trans (flag_namedIn l' job)
    refine ⟨htables, hflag, get?_projection_of_announce hannounce, fun key hpath hflag' htext => ?_,
      ?_, ?_⟩
    · exact (get?_of_announce hannounce htext).trans (get?_namedIn l' job hpath hflag')
    · -- the location is the one resolved last, and the job says all that is written
      have hagain : (resolveTables backend location job').run l' = ⟨.ok (), l', []⟩ := by
        unfold resolveTables
        rw [Step.run_bind_get, if_pos (isResolved_of_resolveTables hresolve)]
        rfl
      rw [run_locate_of_ok hagain, run_announce_again hannounce]
      rfl
    · constructor
      · intro hsaid
        refine ⟨fun hleft => ?_, (projection?_of_announce_iff hannounce).1 hsaid.projection⟩
        rw [← hsaid.merged, hflag, hleft, Bool.or_true]
      · rintro ⟨hmerged, hshown⟩
        refine ⟨htables, ?_, (projection?_of_announce_iff hannounce).2 hshown⟩
        rw [hflag]
        cases hleft : job.settings.flag SettingKey.inputSorted.name with
        | false => rw [Bool.or_false]
        | true => rw [hmerged hleft, Bool.or_true]
  -- a call that fails stopped at the location, or at the projection text
  · intro e l' job' log h
    rcases locate_eq_error h with ⟨hresolve, rfl⟩ | ⟨log', hannounce⟩
    · exact .inl ⟨by rw [hresolve], state_of_resolveTables_error hresolve, rfl⟩
    · obtain ⟨text, hprojection, hparse, rfl⟩ := announce_eq_error hannounce
      exact .inr ⟨text, hprojection, hparse, rfl, namedIn_eq_self_iff l' job⟩

/-! ## A table that several loads name -/

/-- The name of the table resolves to the table. -/
theorem resolve_taggedTable {σ : Type} (strict : Bool) (settings : Settings) (s : σ) :
    (Location.resolve (Backend.ofDisk taggedTable).files strict "t" settings).run s
      = ⟨.ok ["t"], s, [.ofEvent .locationResolved [("location", "t"), ("tables", "1")]]⟩ := by
  cbv

/-- A loader once it knows where the table `t` is. -/
def atTagged (l : Loader TableReader) : Loader TableReader :=
  { l with location := some "t", paths := ["t"], schema := none, sortOrder := none }

/-- A loader without tables finds this one. -/
theorem run_resolveTables_taggedTable (l : Loader TableReader) (hl : l.paths = [])
    (job : JobSettings) :
    (resolveTables (Backend.ofDisk taggedTable) "t" job).run l = ⟨.ok (), l.atTagged,
      [.ofEvent .locationResolved [("location", "t"), ("tables", "1")]]⟩ := by
  have hopen : ¬ l.isResolved "t" = true := by
    unfold isResolved
    rw [hl]
    exact Bool.false_ne_true
  exact run_resolveTables_of_resolve (Bool.eq_false_iff.2 hopen) (resolve_taggedTable _ _ l)

/-- A loader that shows the numbers of the table, told where it is in an empty job. -/
theorem locate_exact_taggedTable :
    ∃ l' job' log,
      (locate (Backend.ofDisk taggedTable) "t").run (ofProjection "id", .empty)
          = ⟨.ok (), (l', job'), log⟩
        ∧ l'.IsAnnouncedIn job'
        ∧ (locate (Backend.ofDisk taggedTable) "t").run (l', job') = ⟨.ok (), (l', job'), []⟩ := by
  have hshown : (ofProjection "id").atTagged.projection = some "id" := by cbv
  have hparse : Selector.parseAll "id" = .ok [⟨"id", []⟩] := by cbv
  have hblank : Text.isBlankText "id" = false := by cbv
  have h := run_locate_of_ok (run_resolveTables_taggedTable (ofProjection "id") rfl .empty)
  rw [run_announce_of_some hshown hparse] at h
  obtain ⟨-, -, -, -, hagain, hsaid⟩ :=
    (locate_exact (Backend.ofDisk taggedTable) "t" (ofProjection "id") .empty).1 _ _ _ h
  -- the empty job has no leftovers, and the projection is not blank
  refine ⟨_, _, _, h, hsaid.2 ⟨fun hleft => (by cases hleft), fun _ => rfl,
    fun text htext => ?_⟩, hagain⟩
  obtain rfl := Option.some.inj (hshown.symm.trans htext)
  exact hblank

/-- A loader that does not merge and shows every column finds the flag or the projection of another
load in the job, and leaves it there. A loader whose projection text is not well formed fails, and
has put its table into the empty job. -/
theorem locate_leaves_others :
    (∃ l' job' log,
        (locate (Backend.ofDisk taggedTable) "t").run
            (whole, .set .empty SettingKey.inputSorted.name "true")
          = ⟨.ok (), (l', job'), log⟩
        ∧ l'.sorted = false ∧ job'.settings.flag SettingKey.inputSorted.name = true)
      ∧ (∃ l' job' log,
        (locate (Backend.ofDisk taggedTable) "t").run
            (whole, .set .empty SettingKey.inputProjection.name "id")
          = ⟨.ok (), (l', job'), log⟩
        ∧ l'.projection = none ∧ job'.settings.projection? = some "id")
      ∧ ∃ e l' job' log,
        (locate (Backend.ofDisk taggedTable) "t").run (ofProjection "id,", .empty)
          = ⟨.error e, (l', job'), log⟩
        ∧ job'.settings.tablePaths = .ok ["t"] := by
  -- a loader of all columns writes the tables only
  have htold : ∀ job, (locate (Backend.ofDisk taggedTable) "t").run (whole, job)
      = ⟨.ok (), (whole.atTagged, whole.atTagged.namedIn job),
        [.ofEvent .locationResolved [("location", "t"), ("tables", "1")]]⟩ := by
    intro job
    rw [run_locate_of_ok (run_resolveTables_taggedTable whole rfl job), run_announce_of_none rfl]
    rfl
  have hshown : (ofProjection "id,").atTagged.projection = some "id," := by cbv
  obtain ⟨e, hparse⟩ : ∃ e, Selector.parseAll "id," = .error e := ⟨_, by cbv⟩
  have hrefused :=
    run_locate_of_ok (run_resolveTables_taggedTable (ofProjection "id,") rfl .empty)
  rw [run_announce_of_error hshown hparse] at hrefused
  refine ⟨⟨_, _, _, htold _, rfl, ?_⟩, ⟨_, _, _, htold _, rfl, ?_⟩, e, _, _, _, hrefused,
    tablePaths_namedIn _ _⟩
  · decide
  · decide

end Loader

end TableScan
