import Mathlib
import TableScan.Proofs.Projection.Resolved
import TableScan.Proofs.Projection.Survival

/-!
# Which texts resolve, and the one form of a projection

Text resolves in two steps that fail in different ways: it has to be a sentence of the projection
grammar, and the selectors that it stands for have to fit the logical schema. That no column is
selected twice is only found when the schema of the projection is built, and is told as an error of
planning like the others.

Main statement: these are the only conditions, and the text of a resolved projection is resolved to
the same projection again (`parse_exact`).
-/

namespace TableScan.Projection

variable {logical : Schema} {selectors : List Selector} {p : Projection} {e : LoadError}

/-- Selectors that a logical schema can resolve: each one names a column of it, no two the same one,
and keys are only wanted of maps. -/
structure Resolvable (logical : Schema) (selectors : List Selector) : Prop where
  known : ∀ s ∈ selectors, s.name ∈ logical.names
  distinct : (selectors.map Selector.name).Nodup
  ofMap : ∀ s ∈ selectors, s.subfields ≠ [] →
    ∃ c ∈ logical.columns, c.name = s.name ∧ c.type.isMap = true

/-! ## Resolving -/

/-- What was resolved fits the schema. -/
theorem ResolvesIn.resolvable (h : p.ResolvesIn logical) : Resolvable logical p.selectors := by
  constructor
  case known => exact fun s hs => h.mem_names hs
  case distinct =>
    rw [← names_of_selected h.columns]
    exact h.distinct
  case ofMap =>
    intro s hs hkeys
    obtain ⟨i, hi⟩ := List.mem_iff_getElem?.1 hs
    obtain ⟨c, -, hselect⟩ := Results.exists_getElem?_of_forall₂ h.columns hi
    obtain ⟨hfind, hmap⟩ := select_eq_ok_iff.1 hselect
    obtain ⟨hmem, hname⟩ := Schema.mem_of_find? hfind
    exact ⟨c, hmem, hname, hmap hkeys⟩

/-- Each of the selectors finds its column. -/
theorem Resolvable.exists_select (h : Resolvable logical selectors)
    (hlogical : logical.NamesDistinct) {s : Selector} (hs : s ∈ selectors) :
    ∃ c, select logical s = .ok c := by
  obtain ⟨c, hfind⟩ := Option.isSome_iff_exists.1 (Schema.find?_isSome_iff.2 (h.known s hs))
  refine ⟨c, select_eq_ok_iff.2 ⟨hfind, fun hkeys => ?_⟩⟩
  obtain ⟨own, hmem, hname, hmap⟩ := h.ofMap s hs hkeys
  -- there is one column of the name, so the map is the column that is found
  have hown := Schema.find?_of_mem hlogical hmem
  rw [hname, hfind] at hown
  exact Option.some.inj hown ▸ hmap

/-- Selectors that fit are resolved. -/
theorem Resolvable.exists_resolve (h : Resolvable logical selectors)
    (hlogical : logical.NamesDistinct) : ∃ p, resolve logical selectors = .ok p := by
  obtain ⟨columns, hcolumns⟩ :=
    Results.exists_mapM_eq_ok fun s hs => h.exists_select hlogical hs
  have hselected := Results.mapM_eq_ok_iff.1 hcolumns
  refine ⟨⟨selectors, ⟨columns⟩⟩, resolve_eq_ok_iff.2 ⟨rfl, hselected, ?_⟩⟩
  show (columns.map ColumnOf.name).Nodup
  rw [names_of_selected hselected]
  exact h.distinct

/-- A selector that finds no column, or no map for its keys, is a failure of planning. -/
theorem group_of_select_eq_error {s : Selector} (h : select logical s = .error e) :
    e.group = .planning := by
  unfold select at h
  split at h
  · obtain rfl := Except.error.inj h
    rfl
  · split at h
    · obtain rfl := Except.error.inj h
      rfl
    · cases h

/-- A repeated name is found in building a schema, but told as an error of planning. -/
theorem group_of_schemaOf_eq_error {columns : List Column} (h : schemaOf columns = .error e) :
    e.group = .planning := by
  unfold schemaOf at h
  cases hcolumns : Schema.ofColumns columns with
  | ok schema =>
    rw [hcolumns] at h
    cases h
  | error own =>
    obtain ⟨name, rfl⟩ := Schema.foldlM_push_eq_error hcolumns
    rw [hcolumns] at h
    obtain rfl := Except.error.inj h
    rfl

/-- Resolving fails by planning alone. -/
theorem group_of_resolve_eq_error (h : resolve logical selectors = .error e) :
    e.group = .planning := by
  rcases Results.bind_eq_error_iff.1 h with hcolumns | ⟨columns, -, h⟩
  · obtain ⟨s, -, hselect⟩ := Results.exists_mem_of_mapM_eq_error hcolumns
    exact group_of_select_eq_error hselect
  -- the columns are all there, so building the schema has failed
  · rcases Results.bind_eq_error_iff.1 h with hschema | ⟨schema, -, h⟩
    · exact group_of_schemaOf_eq_error hschema
    · cases h

/-! ## Texts -/

/-- Text that is read resolves just when its selectors fit. -/
theorem exists_parse_iff {text : String} (hlogical : logical.NamesDistinct)
    (h : Selector.parseAll text = .ok selectors) :
    (∃ p, parse logical text = .ok p) ↔ Resolvable logical selectors := by
  constructor
  · rintro ⟨p, hp⟩
    rcases (parse_eq_ok_iff h).1 hp with ⟨rfl, -⟩ | ⟨-, rfl, hresolves⟩
    · exact ⟨List.forall_mem_nil _, List.nodup_nil, List.forall_mem_nil _⟩
    · exact hresolves.resolvable
  · intro hresolvable
    -- no selectors stand for the whole schema, which always resolves
    by_cases hnil : selectors = []
    · exact ⟨identity logical, (parse_eq_ok_iff h).2 (.inl ⟨hnil, rfl⟩)⟩
    · obtain ⟨p, hp⟩ := hresolvable.exists_resolve hlogical
      exact ⟨p, (parse_eq_ok_iff h).2 (.inr ⟨hnil, resolve_eq_ok_iff.1 hp⟩)⟩

/-- Text fails to be read, or to be planned. -/
theorem parse_eq_error {text : String} (h : parse logical text = .error e) :
    Selector.parseAll text = .error e
      ∨ e.group = .planning ∧ ∃ selectors, Selector.parseAll text = .ok selectors := by
  rcases Results.bind_eq_error_iff.1 h with hparse | ⟨selectors, hparse, h⟩
  · exact .inl hparse
  · refine .inr ⟨?_, selectors, hparse⟩
    split at h
    · cases h
    · exact group_of_resolve_eq_error h

/-- The selectors of a projection that was resolved can be written: they were read, or name the
columns of the logical schema. -/
theorem isWritable_of_parse {text : String} (hlogical : logical.WellNamed)
    (h : parse logical text = .ok p) : ∀ s ∈ p.selectors, s.isWritable = true := by
  obtain ⟨selectors, hselectors, -⟩ := Results.bind_eq_ok_iff.1 h
  rcases (parse_eq_ok_iff hselectors).1 h with ⟨-, rfl⟩ | ⟨-, rfl, -⟩
  · intro s hs
    obtain ⟨name, hname, rfl⟩ := List.mem_map.1 hs
    obtain ⟨c, hc, rfl⟩ := List.mem_map.1 hname
    exact Selector.isWritable_iff.2 ⟨hlogical.names c hc, List.forall_mem_nil _⟩
  · exact Selector.isWritable_of_parseAll hselectors

/-- The text of a resolved projection is resolved to this projection. -/
theorem parse_text_of_parse {text : String} (hlogical : logical.WellNamed)
    (h : parse logical text = .ok p) : parse logical p.text = .ok p := by
  have hback : Selector.parseAll p.text = .ok p.selectors :=
    Selector.parseAll_renderAll (isWritable_of_parse hlogical h)
  rw [parse_eq_ok_iff hback]
  by_cases hnil : p.selectors = []
  · -- only blank text has no selectors, and it stands for the whole schema
    obtain ⟨selectors, hselectors, -⟩ := Results.bind_eq_ok_iff.1 h
    rcases (parse_eq_ok_iff hselectors).1 h with ⟨-, hidentity⟩ | ⟨hne, rfl, -⟩
    · exact .inl ⟨hnil, hidentity⟩
    · exact absurd hnil hne
  · exact .inr ⟨hnil, rfl, resolvesIn_of_parse h hlogical.distinct⟩

/-- Text resolves against a schema just when it is a sentence that stands for selectors which the
schema can resolve. White space stands for the whole schema, and any other text for one column of
it for each selector, in their order; the text of the projection resolves to it again. Text that is
no sentence cannot be parsed, and otherwise planning fails. -/
theorem parse_exact (hlogical : logical.WellNamed) (text : String) :
    ((∃ p, parse logical text = .ok p) ↔
        ∃ selectors, Selector.Denotes text selectors ∧ Resolvable logical selectors)
      ∧ (∀ p, parse logical text = .ok p →
        (Selector.IsSpace text.toList → p = identity logical)
          ∧ (¬ Selector.IsSpace text.toList → Selector.Denotes text p.selectors)
          ∧ List.Forall₂ (fun s c => c ∈ logical.columns ∧ c.name = s.name)
            p.selectors p.schema.columns
          ∧ parse logical p.text = .ok p)
      ∧ ∀ e, parse logical text = .error e →
        (e.group = .parse ∧ ¬ ∃ selectors, Selector.Denotes text selectors)
          ∨ (e.group = .planning ∧ ∃ selectors, Selector.Denotes text selectors) := by
  refine ⟨?_, fun p hp => ⟨fun hspace => ?_, fun hnot => ?_, ?_, parse_text_of_parse hlogical hp⟩,
    fun e he => ?_⟩
  · constructor
    · rintro ⟨p, hp⟩
      obtain ⟨selectors, hselectors, -⟩ := Results.bind_eq_ok_iff.1 hp
      exact ⟨selectors, Selector.parseAll_eq_ok_iff.1 hselectors,
        (exists_parse_iff hlogical.distinct hselectors).1 ⟨p, hp⟩⟩
    · rintro ⟨selectors, hdenotes, hresolvable⟩
      exact (exists_parse_iff hlogical.distinct (Selector.parseAll_eq_ok_iff.2 hdenotes)).2
        hresolvable
  · have hblank := Selector.parseAll_eq_ok_iff.2 (.none hspace)
    rcases (parse_eq_ok_iff hblank).1 hp with ⟨-, hidentity⟩ | ⟨hne, -⟩
    · exact hidentity
    · exact absurd rfl hne
  · obtain ⟨selectors, hselectors, -⟩ := Results.bind_eq_ok_iff.1 hp
    have hdenotes := Selector.parseAll_eq_ok_iff.1 hselectors
    rcases (parse_eq_ok_iff hselectors).1 hp with ⟨rfl, -⟩ | ⟨-, rfl, -⟩
    · exact absurd (Selector.denotes_nil_iff.1 hdenotes) hnot
    · exact hdenotes
  -- each selector has selected the column of its name
  · refine (resolvesIn_of_parse hp hlogical.distinct).columns.imp fun s c hselect => ?_
    exact Schema.mem_of_find? (select_eq_ok_iff.1 hselect).1
  · rcases parse_eq_error he with hparse | ⟨hgroup, selectors, hselectors⟩
    · refine .inl ⟨Selector.group_of_parseAll_eq_error hparse, ?_⟩
      rintro ⟨selectors, hdenotes⟩
      cases hparse.symm.trans (Selector.parseAll_eq_ok_iff.2 hdenotes)
    · exact .inr ⟨hgroup, selectors, Selector.parseAll_eq_ok_iff.1 hselectors⟩

/-- Of a table `id:int, m:map(string)` the key `x` and the number can be selected, with white space
anywhere, and the text without it selects the same; the number cannot be selected twice. -/
theorem parse_exact_spaced :
    (∃ p, parse ⟨[⟨"id", .primitive .int⟩, ⟨"m", .map (.primitive .string)⟩]⟩ " m # { x } ,id"
          = .ok p
        ∧ parse ⟨[⟨"id", .primitive .int⟩, ⟨"m", .map (.primitive .string)⟩]⟩ p.text = .ok p)
      ∧ ¬ ∃ p, parse ⟨[⟨"id", .primitive .int⟩, ⟨"m", .map (.primitive .string)⟩]⟩ "id , id"
        = .ok p := by
  let logical : Schema := ⟨[⟨"id", .primitive .int⟩, ⟨"m", .map (.primitive .string)⟩]⟩
  have hlogical : logical.WellNamed :=
    Schema.wellNamed_of_parse (by cbv : Schema.parse "id:int, m:map(string)" = .ok logical)
  have hspaced : Selector.parseAll " m # { x } ,id" = .ok [⟨"m", ["x"]⟩, ⟨"id", []⟩] := by cbv
  have htwice : Selector.parseAll "id , id" = .ok [⟨"id", []⟩, ⟨"id", []⟩] := by cbv
  constructor
  · obtain ⟨hresolves, hresolved, -⟩ := parse_exact hlogical " m # { x } ,id"
    have hresolvable : Resolvable logical [⟨"m", ["x"]⟩, ⟨"id", []⟩] := by
      constructor
      case known => decide
      case distinct => decide
      case ofMap => decide
    obtain ⟨p, hp⟩ := hresolves.2 ⟨_, Selector.parseAll_eq_ok_iff.1 hspaced, hresolvable⟩
    exact ⟨p, hp, (hresolved p hp).2.2.2⟩
  · intro htaken
    obtain ⟨selectors, hdenotes, hresolvable⟩ := (parse_exact hlogical "id , id").1.1 htaken
    obtain rfl := Except.ok.inj (htwice.symm.trans (Selector.parseAll_eq_ok_iff.2 hdenotes))
    exact absurd hresolvable.distinct (by decide)

end TableScan.Projection
