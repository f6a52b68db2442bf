import Mathlib
import TableScan.Location.Resolve
import TableScan.Proofs.Keeps
import TableScan.Proofs.Location.Splitting
import TableScan.Proofs.Log
import TableScan.Proofs.Results

/-!
# What a location resolves to

A location is resolved pattern by pattern, and the paths of a pattern one by one. A tolerant
resolution passes over what is no directory and reports it, a strict one fails at the first path
that is none. Both are told here by the list of all paths that the patterns stand for: the one by
its directories (`dirsOf`) and a report for each pattern (`reportOf`), the other by a function on
its members that may fail (`tableAt`).

Main statements: a resolution comes to just that, if its patterns can be looked up, and the tables
of two locations in a row are those of the first one and those of the second one (`resolve_exact`).
-/

namespace TableScan.Location

open Step (Keeps)

variable {σ : Type} {files : PathSearch} {search : String → List FoundPath} {strict : Bool}
  {settings : Settings} {location pattern : String} {tables more : List String}
  {log log' : List Log.Entry} {s s' s'' : σ}

/-! ## Resolving changes nothing -/

section

variable {Q : σ → Prop} (files : PathSearch)

theorem keeps_directories (strict : Bool) (pattern : String) (found : List FoundPath) :
    Keeps Q (directories strict pattern found) := by
  induction found with
  | nil => exact Keeps.pure []
  | cons p rest ih =>
    unfold directories
    split
    · exact ih.bind fun _ => Keeps.pure _
    · split
      · exact Keeps.fail _
      · exact (Keeps.event _ _).bind fun _ => ih

theorem keeps_tablesOf (strict : Bool) (pattern : String) :
    Keeps Q (tablesOf files strict pattern) := by
  refine (Keeps.ofResult _).bind fun found => ?_
  split
  · exact (Keeps.event _ _).bind fun _ => Keeps.pure _
  · exact keeps_directories strict pattern found

theorem keeps_tablesOfAll (strict : Bool) (patterns : List String) :
    Keeps Q (tablesOfAll files strict patterns) := by
  induction patterns with
  | nil => exact Keeps.pure []
  | cons pattern rest ih =>
    exact (keeps_tablesOf files strict pattern).bind fun _ => ih.bind fun _ => Keeps.pure _

/-- Resolving a location only reports; it changes nothing in the component that asks for it. -/
theorem keeps_resolve (strict : Bool) (location : String) (settings : Settings) :
    Keeps Q (resolve files strict location settings) := by
  refine (keeps_tablesOfAll files _ _).bind fun tables => ?_
  split
  · exact Keeps.fail _
  · exact (Keeps.event _ _).bind fun _ => Keeps.pure _

end

/-! ## One pattern -/

/-- The directories among some paths. -/
def dirsOf (found : List FoundPath) : List String := (found.filter (·.isDir)).map (·.path)

/-- The report of the paths of a pattern that are no directories. -/
def skipsOf (pattern : String) (found : List FoundPath) : List Log.Entry :=
  (found.filter (!·.isDir)).map fun p =>
    .ofEvent .notADirectory [("path", p.path), ("pattern", pattern)]

/-- The report of a tolerant resolution on the paths that a pattern stands for. -/
def reportOf (pattern : String) (found : List FoundPath) : List Log.Entry :=
  if found.isEmpty then [.ofEvent .patternNoMatch [("pattern", pattern)]]
  else skipsOf pattern found

/-- A path as a table of a strict resolution. -/
def tableAt (p : FoundPath) : LoadResult String :=
  if p.isDir then .ok p.path else .error (.configuration (.inputNotDirectory p.path))

theorem dirsOf_cons_of_dir {p : FoundPath} (h : p.isDir = true) (rest : List FoundPath) :
    dirsOf (p :: rest) = p.path :: dirsOf rest := by
  unfold dirsOf
  rw [List.filter_cons_of_pos h, List.map_cons]

theorem dirsOf_cons_of_not_dir {p : FoundPath} (h : p.isDir = false) (rest : List FoundPath) :
    dirsOf (p :: rest) = dirsOf rest := by
  unfold dirsOf
  rw [List.filter_cons_of_neg (by rw [h]; decide)]

theorem skipsOf_cons_of_dir {p : FoundPath} (h : p.isDir = true) (pattern : String)
    (rest : List FoundPath) : skipsOf pattern (p :: rest) = skipsOf pattern rest := by
  unfold skipsOf
  rw [List.filter_cons_of_neg (by rw [h]; decide)]

theorem skipsOf_cons_of_not_dir {p : FoundPath} (h : p.isDir = false) (pattern : String)
    (rest : List FoundPath) :
    skipsOf pattern (p :: rest)
      = .ofEvent .notADirectory [("path", p.path), ("pattern", pattern)]
        :: skipsOf pattern rest := by
  unfold skipsOf
  rw [List.filter_cons_of_pos (by rw [h]; rfl), List.map_cons]

theorem dirsOf_append (found more : List FoundPath) :
    dirsOf (found ++ more) = dirsOf found ++ dirsOf more := by
  unfold dirsOf
  rw [List.filter_append, List.map_append]

/-- A tolerant resolution passes over the paths that are no directories, and reports them. -/
theorem run_directories_tolerant (pattern : String) (found : List FoundPath) (s : σ) :
    (directories false pattern found).run s = ⟨.ok (dirsOf found), s, skipsOf pattern found⟩ := by
  induction found with
  | nil => rfl
  | cons p rest ih =>
    rw [directories]
    cases hdir : p.isDir with
    | true =>
      rw [dirsOf_cons_of_dir hdir, skipsOf_cons_of_dir hdir, if_pos rfl, Step.run_bind_ok ih,
        Step.run_pure, List.append_nil]
    | false =>
      -- the one step that leaves a line in the log
      have htold : (Step.event .notADirectory [("path", p.path), ("pattern", pattern)]).run s
          = ⟨.ok (), s, [.ofEvent .notADirectory [("path", p.path), ("pattern", pattern)]]⟩ := rfl
      rw [dirsOf_cons_of_not_dir hdir, skipsOf_cons_of_not_dir hdir, if_neg (by decide),
        if_neg (by decide), Step.run_bind_ok htold, ih, List.singleton_append]

/-- A strict resolution takes all paths, or fails at one that is no directory. -/
theorem mapM_tableAt_cases (found : List FoundPath) :
    ((∀ p ∈ found, p.isDir = true) ∧ found.mapM tableAt = .ok (found.map (·.path)))
      ∨ ∃ p ∈ found, p.isDir = false
        ∧ found.mapM tableAt = .error (.configuration (.inputNotDirectory p.path)) := by
  induction found with
  | nil => exact .inl ⟨fun p hp => absurd hp List.not_mem_nil, rfl⟩
  | cons p rest ih =>
    rw [List.mapM_cons]
    cases hdir : p.isDir with
    | false =>
      have hfails : tableAt p = .error (.configuration (.inputNotDirectory p.path)) := by
        unfold tableAt
        rw [hdir]
        rfl
      rw [hfails]
      exact .inr ⟨p, List.mem_cons_self, hdir, rfl⟩
    | true =>
      have hpath : tableAt p = .ok p.path := if_pos hdir
      rw [hpath]
      -- the rest decides: this path is a directory in either case
      rcases ih with ⟨hdirs, hrest⟩ | ⟨q, hq, hnot, hrest⟩
      · rw [hrest]
        exact .inl ⟨List.forall_mem_cons.2 ⟨hdir, hdirs⟩, rfl⟩
      · rw [hrest]
        exact .inr ⟨q, List.mem_cons_of_mem _ hq, hnot, rfl⟩

/-- A strict resolution fails at the first path that is no directory. -/
theorem run_directories_strict (pattern : String) (found : List FoundPath) (s : σ) :
    (directories true pattern found).run s = ⟨found.mapM tableAt, s, []⟩ := by
  induction found with
  | nil => rfl
  | cons p rest ih =>
    rw [directories, List.mapM_cons, tableAt]
    cases p.isDir with
    | true =>
      rw [if_pos rfl, if_pos rfl]
      cases hrest : rest.mapM tableAt with
      | ok tables =>
        rw [hrest] at ih
        exact Step.run_bind_ok ih
      | error e =>
        rw [hrest] at ih
        exact Step.run_bind_error ih
    | false => rfl

/-- The paths of a pattern that can be looked up. -/
theorem run_tablesOf_tolerant (h : files pattern = .ok (search pattern)) (s : σ) :
    (tablesOf files false pattern).run s
      = ⟨.ok (dirsOf (search pattern)), s, reportOf pattern (search pattern)⟩ := by
  have hfound : (Step.ofResult (files pattern)).run s = ⟨.ok (search pattern), s, []⟩ := by
    rw [Step.run_ofResult, h]
  unfold tablesOf reportOf
  rw [Step.run_bind_ok hfound, List.nil_append]
  cases hsearch : search pattern with
  | nil => rfl
  | cons p rest =>
    rw [List.isEmpty_cons, if_neg (by decide), if_neg (by decide), run_directories_tolerant]

/-- The paths of a pattern as tables of a strict resolution, whose report may tell of no path at
all. -/
theorem run_tablesOf_strict (h : files pattern = .ok (search pattern)) (s : σ) :
    ∃ log, (tablesOf files true pattern).run s = ⟨(search pattern).mapM tableAt, s, log⟩ := by
  have hfound : (Step.ofResult (files pattern)).run s = ⟨.ok (search pattern), s, []⟩ := by
    rw [Step.run_ofResult, h]
  unfold tablesOf
  rw [Step.run_bind_ok hfound]
  cases search pattern with
  | nil => exact ⟨_, rfl⟩
  | cons p rest =>
    rw [List.isEmpty_cons, if_neg (by decide), run_directories_strict]
    exact ⟨_, rfl⟩

/-! ## All patterns -/

/-- The tables of the first pattern stand in front of those of the others, and so do the reports. -/
theorem run_tablesOfAll_cons {ps : List String}
    (hfirst : (tablesOf files strict pattern).run s = ⟨.ok tables, s', log⟩)
    (hothers : (tablesOfAll files strict ps).run s' = ⟨.ok more, s'', log'⟩) :
    (tablesOfAll files strict (pattern :: ps)).run s
      = ⟨.ok (tables ++ more), s'', log ++ log'⟩ := by
  rw [tablesOfAll, Step.run_bind_ok hfirst, Step.run_bind_ok hothers, Step.run_pure,
    List.append_nil]

/-- The directories of all patterns, and their reports one after another. -/
theorem run_tablesOfAll_tolerant {ps : List String} (h : ∀ p ∈ ps, files p = .ok (search p))
    (s : σ) :
    (tablesOfAll files false ps).run s
      = ⟨.ok (dirsOf (ps.flatMap search)), s, ps.flatMap fun p => reportOf p (search p)⟩ := by
  induction ps with
  | nil => rfl
  | cons p rest ih =>
    obtain ⟨hp, hrest⟩ := List.forall_mem_cons.1 h
    rw [run_tablesOfAll_cons (run_tablesOf_tolerant hp s) (ih hrest), List.flatMap_cons,
      List.flatMap_cons, dirsOf_append]

/-- A strict resolution of patterns is one of all their paths together. -/
theorem run_tablesOfAll_strict {ps : List String} (h : ∀ p ∈ ps, files p = .ok (search p))
    (s : σ) :
    ∃ log, (tablesOfAll files true ps).run s = ⟨(ps.flatMap search).mapM tableAt, s, log⟩ := by
  induction ps with
  | nil => exact ⟨[], rfl⟩
  | cons p rest ih =>
    obtain ⟨hp, hrest⟩ := List.forall_mem_cons.1 h
    obtain ⟨log, hfirst⟩ := run_tablesOf_strict hp s
    obtain ⟨log', hothers⟩ := ih hrest
    rw [List.flatMap_cons, List.mapM_append]
    cases hpaths : (search p).mapM tableAt with
    | error e =>
      rw [hpaths] at hfirst
      exact ⟨log, Step.run_bind_error hfirst⟩
    | ok tables =>
      rw [hpaths] at hfirst
      cases hmore : (rest.flatMap search).mapM tableAt with
      | error e =>
        rw [hmore] at hothers
        rw [tablesOfAll, Step.run_bind_ok hfirst, Step.run_bind_error hothers]
        exact ⟨_, rfl⟩
      | ok more =>
        rw [hmore] at hothers
        exact ⟨_, run_tablesOfAll_cons hfirst hothers⟩

/-- The tables of patterns in a row, also where some patterns cannot be looked up. -/
theorem run_tablesOfAll_append {ps qs : List String}
    (hps : (tablesOfAll files strict ps).run s = ⟨.ok tables, s', log⟩)
    (hqs : (tablesOfAll files strict qs).run s' = ⟨.ok more, s'', log'⟩) :
    ∃ log'', (tablesOfAll files strict (ps ++ qs)).run s = ⟨.ok (tables ++ more), s'', log''⟩ := by
  -- the last result of the first run is where the second starts, so the induction keeps `s` free
  induction ps generalizing s tables log with
  | nil =>
    obtain ⟨htables, rfl, -⟩ := Outcome.mk.inj hps
    obtain rfl := Except.ok.inj htables
    exact ⟨log', hqs⟩
  | cons p rest ih =>
    obtain ⟨first, mid, log₁, log₂, hfirst, hps⟩ := Step.exists_of_run_bind hps
    obtain ⟨others, mid', log₃, log₄, hothers, hps⟩ := Step.exists_of_run_bind hps
    obtain ⟨htables, rfl, -⟩ := Outcome.mk.inj hps
    obtain rfl := Except.ok.inj htables
    obtain ⟨log'', hrest⟩ := ih hothers
    rw [List.append_assoc]
    exact ⟨_, run_tablesOfAll_cons hfirst hrest⟩

/-! ## Locations -/

/-- The report of the tables of a location, if there are any. -/
def announcement (location : String) (tables : List String) : List Log.Entry :=
  if tables.isEmpty then []
  else [.ofEvent .locationResolved
    [("location", location), ("tables", toString tables.length)]]

/-- Holds if the caller or the settings ask for a strict resolution. -/
def asksStrict (strict : Bool) (settings : Settings) : Bool :=
  strict || settings.flag SettingKey.strictDirectories.name

/-- A location resolves to the tables of its patterns, if there are any. -/
theorem run_resolve
    (h : (tablesOfAll files (asksStrict strict settings) (patterns location)).run s
      = ⟨.ok tables, s', log⟩) :
    (resolve files strict location settings).run s
      = ⟨if tables.isEmpty then .error (.configuration (.noTable (some location))) else .ok tables,
        s', log ++ announcement location tables⟩ := by
  unfold resolve announcement
  simp only
  rw [show (strict || settings.flag SettingKey.strictDirectories.name)
    = asksStrict strict settings from rfl, Step.run_bind_ok h]
  cases tables with
  | nil => rfl
  | cons table rest => rfl

theorem run_resolve_of_error {e : LoadError}
    (h : (tablesOfAll files (asksStrict strict settings) (patterns location)).run s
      = ⟨.error e, s', log⟩) :
    (resolve files strict location settings).run s = ⟨.error e, s', log⟩ :=
  Step.run_bind_error h

/-- A location resolves where its patterns have tables, and to these. -/
theorem result_resolve_eq_ok_iff {s : σ} :
    ((resolve files strict location settings).run s).result = .ok tables
      ↔ tables ≠ [] ∧ ∃ log, (tablesOfAll files (asksStrict strict settings)
        (patterns location)).run s = ⟨.ok tables, s, log⟩ := by
  -- no report changes the component, so the run ends in the state it starts in
  have hstill := keeps_tablesOfAll files (asksStrict strict settings) (patterns location)
    (Q := (· = s)) s rfl
  rcases hrun : (tablesOfAll files (asksStrict strict settings) (patterns location)).run s
    with ⟨result, s', log⟩
  rw [hrun] at hstill
  obtain rfl : s' = s := hstill
  cases result with
  | error e =>
    rw [run_resolve_of_error hrun]
    exact iff_of_false (fun h => by cases h) fun ⟨_, _, h⟩ => by cases h
  | ok found =>
    rw [run_resolve hrun]
    constructor
    · intro h
      cases found with
      | nil => cases h
      | cons table rest =>
        obtain rfl := Except.ok.inj h
        exact ⟨List.cons_ne_nil _ _, log, rfl⟩
    · rintro ⟨hne, log', h⟩
      obtain rfl := Except.ok.inj (Outcome.mk.inj h).1
      exact if_neg fun hempty => hne (List.isEmpty_iff.1 hempty)

/-- What a tolerant resolution comes to: the directories among the paths, in order and with repeats,
and an error if there are none. From the severity of warnings on it reports every pattern without a
path and every path that is no directory. -/
structure ResolvesTolerantly (search : String → List FoundPath) (location : String)
    (outcome : Outcome σ (List String)) : Prop where
  tables : dirsOf ((patterns location).flatMap search) ≠ [] →
    outcome.result = .ok (dirsOf ((patterns location).flatMap search))
  missing : dirsOf ((patterns location).flatMap search) = [] → ∃ e, outcome.result = .error e
    ∧ e.group = .configuration ∧ e.message = "no table specified"
  told : ∀ least : Log.Severity, least.rank ≤ Log.Severity.warn.rank →
    Log.lines least outcome.log
      = ((patterns location).flatMap fun p => reportOf p (search p)).map Log.Entry.line
        ++ Log.lines least (announcement location (dirsOf ((patterns location).flatMap search)))

/-- What a strict resolution comes to: all paths, if there are any and all of them are directories,
and an error otherwise. -/
structure ResolvesStrictly (search : String → List FoundPath) (location : String)
    (outcome : Outcome σ (List String)) : Prop where
  tables : (patterns location).flatMap search ≠ [] →
    (∀ p ∈ (patterns location).flatMap search, p.isDir = true) →
      outcome.result = .ok (((patterns location).flatMap search).map (·.path))
  refused : ¬ ((patterns location).flatMap search ≠ []
      ∧ ∀ p ∈ (patterns location).flatMap search, p.isDir = true) →
    ∃ e, outcome.result = .error e ∧ e.group = .configuration

/-- Whatever a tolerant resolution reports is a warning. -/
theorem isWarning_of_mem_reportOf {found : List FoundPath} {e : Log.Entry}
    (h : e ∈ reportOf pattern found) : e.severity = .warn := by
  unfold reportOf at h
  split at h
  · rw [List.mem_singleton.1 h]
    rfl
  · obtain ⟨p, -, rfl⟩ := List.mem_map.1 h
    rfl

theorem resolvesTolerantly (h : ∀ p ∈ patterns location, files p = .ok (search p))
    (hasks : asksStrict strict settings = false) (s : σ) :
    ResolvesTolerantly search location ((resolve files strict location settings).run s) := by
  have hall := run_tablesOfAll_tolerant h s
  rw [← hasks] at hall
  -- reports are warnings: no threshold up to `warn` hides one
  have hwarns : ∀ e ∈ (patterns location).flatMap fun p => reportOf p (search p),
      e.severity = .warn := by
    intro e he
    obtain ⟨p, -, he⟩ := List.mem_flatMap.1 he
    exact isWarning_of_mem_reportOf he
  rw [run_resolve hall]
  refine ⟨fun hne => ?_, fun hnil => ?_, fun least hleast => ?_⟩
  · exact if_neg fun hempty => hne (List.isEmpty_iff.1 hempty)
  · rw [hnil]
    exact ⟨_, rfl, rfl, rfl⟩
  · rw [Log.lines_append, Log.lines_of_warnings hleast hwarns]

theorem resolvesStrictly (h : ∀ p ∈ patterns location, files p = .ok (search p))
    (hasks : asksStrict strict settings = true) (s : σ) :
    ResolvesStrictly search location ((resolve files strict location settings).run s) := by
  obtain ⟨log, hall⟩ := run_tablesOfAll_strict h s
  rw [← hasks] at hall
  -- either all paths are directories, or the first that is none ends the resolution
  rcases mapM_tableAt_cases ((patterns location).flatMap search) with
    ⟨hdirs, htables⟩ | ⟨p, hp, hnot, hfails⟩
  · rw [htables] at hall
    rw [run_resolve hall]
    constructor
    · intro hne _
      refine if_neg fun hempty => hne ?_
      exact List.map_eq_nil_iff.1 (List.isEmpty_iff.1 hempty)
    · intro hrefused
      have hnil : (patterns location).flatMap search = [] :=
        Classical.byContradiction fun hne => hrefused ⟨hne, hdirs⟩
      rw [hnil]
      exact ⟨_, rfl, rfl⟩
  · rw [hfails] at hall
    rw [run_resolve_of_error hall]
    constructor
    · intro _ hdirs
      cases hnot.symm.trans (hdirs p hp)
    · exact fun _ => ⟨_, rfl, rfl⟩

/-- Two locations that resolve do so one behind the other, if the first one leaves no brace open. -/
theorem result_resolve_append {first second : String}
    (hclosed : braceDepth 0 first.toList = 0)
    (hfirst : ((resolve files strict first settings).run s).result = .ok tables)
    (hsecond : ((resolve files strict second settings).run s).result = .ok more) :
    ((resolve files strict (first ++ "," ++ second) settings).run s).result
      = .ok (tables ++ more) := by
  obtain ⟨hne, log, hfirst⟩ := result_resolve_eq_ok_iff.1 hfirst
  obtain ⟨-, log', hsecond⟩ := result_resolve_eq_ok_iff.1 hsecond
  obtain ⟨log'', hall⟩ := run_tablesOfAll_append hfirst hsecond
  rw [result_resolve_eq_ok_iff, patterns_append hclosed]
  exact ⟨List.append_ne_nil_of_left_ne_nil hne more, log'', hall⟩

/-- A location whose patterns can be looked up resolves tolerantly, unless its caller or the
settings ask for a strict resolution, and strictly if one of them does. The tables of two locations
in a row are those of the first one and those of the second one. -/
theorem resolve_exact (files : PathSearch) (strict : Bool) (settings : Settings) (s : σ) :
    (∀ (location : String) (search : String → List FoundPath),
      (∀ p ∈ patterns location, files p = .ok (search p)) →
        (strict = false → settings.flag SettingKey.strictDirectories.name = false →
          ResolvesTolerantly search location ((resolve files strict location settings).run s))
        ∧ (strict = true ∨ settings.flag SettingKey.strictDirectories.name = true →
          ResolvesStrictly search location ((resolve files strict location settings).run s)))
      ∧ ∀ (first second : String) (tables more : List String), braceDepth 0 first.toList = 0 →
        ((resolve files strict first settings).run s).result = .ok tables →
        ((resolve files strict second settings).run s).result = .ok more →
          ((resolve files strict (first ++ "," ++ second) settings).run s).result
            = .ok (tables ++ more) := by
  refine ⟨fun location search h => ⟨fun hcaller hsettings => ?_, fun hasks => ?_⟩, ?_⟩
  · exact resolvesTolerantly h (Bool.or_eq_false_iff.2 ⟨hcaller, hsettings⟩) s
  · exact resolvesStrictly h ((Bool.or_eq_true _ _).mpr hasks) s
  · exact fun first second tables more hclosed => result_resolve_append hclosed

/-- Two directories beside a file. -/
def mixedTree : FileTree := .dir [("t.txt", .file 0), ("t1", .dir []), ("t2", .dir [])]

/-- What two patterns stand for among them. -/
def mixedSearch (pattern : String) : List FoundPath :=
  if pattern = "t*" then [⟨"t.txt", false⟩, ⟨"t1", true⟩, ⟨"t2", true⟩] else []

theorem resolve_exact_mixedTree :
    (∀ p ∈ patterns "t*, none", mixedTree.pathsOf p = .ok (mixedSearch p))
      ∧ ((resolve mixedTree.pathsOf false "t*, none" .empty).run ()).result = .ok ["t1", "t2"]
      ∧ Log.lines .warn ((resolve mixedTree.pathsOf false "t*, none" .empty).run ()).log
        = [Log.Entry.ofEvent .notADirectory [("path", "t.txt"), ("pattern", "t*")],
          Log.Entry.ofEvent .patternNoMatch [("pattern", "none")]].map Log.Entry.line
      ∧ (∃ e, ((resolve mixedTree.pathsOf true "t*, none" .empty).run ()).result = .error e
        ∧ e.group = .configuration)
      ∧ ((resolve mixedTree.pathsOf false ("t*, none" ++ "," ++ "t*, none") .empty).run ()).result
        = .ok ["t1", "t2", "t1", "t2"] := by
  have hfound : ∀ p ∈ ["t*", "none"], mixedTree.pathsOf p = .ok (mixedSearch p) :=
    List.forall_mem_cons.2 ⟨by cbv, List.forall_mem_singleton.2 (by cbv)⟩
  have hpatterns : patterns "t*, none" = ["t*", "none"] := rfl
  rw [← hpatterns] at hfound
  obtain ⟨htolerant, -⟩ := (resolve_exact mixedTree.pathsOf false .empty ()).1 _ _ hfound
  obtain ⟨htables, -, htold⟩ := htolerant rfl rfl
  have hresult := htables (by decide)
  obtain ⟨-, hrefused⟩ :=
    ((resolve_exact mixedTree.pathsOf true .empty ()).1 _ _ hfound).2 (.inl rfl)
  -- the file among the paths is what a strict resolution refuses
  have hfile : ¬ ((patterns "t*, none").flatMap mixedSearch ≠ []
      ∧ ∀ p ∈ (patterns "t*, none").flatMap mixedSearch, p.isDir = true) := by decide
  have happend := (resolve_exact mixedTree.pathsOf false .empty ()).2 "t*, none" "t*, none" _ _ rfl
    hresult hresult
  exact ⟨hfound, hresult, htold .warn (Nat.le_refl _), hrefused hfile, happend⟩

end TableScan.Location
