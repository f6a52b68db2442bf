import TableScan.Projection.Choice
import TableScan.Proofs.Projection.Rows
import TableScan.Proofs.Projection.Text
import TableScan.Proofs.Schema.Union

/-!
# Resolved projections

What projections are that were resolved against a logical schema, and that requests for their fields
resolve against the same one.

Main statement: where the projection in force resolves, the text that requested fields make is read
back as one selector for each request, of the requested column and keys
(`exists_parse_of_selectorsOf`).
-/

namespace TableScan

namespace Projection

/-- A selector selects the column of its name, and one with keys has to find a map. -/
theorem select_eq_ok_iff {logical : Schema} {selector : Selector} {c : Column} :
    select logical selector = .ok c ↔
      logical.find? selector.name = some c
        ∧ (selector.subfields ≠ [] → c.type.isMap = true) := by
  unfold select
  constructor
  · intro h
    split at h
    · cases h
    · next d hd =>
      split at h
      · cases h
      · next hmap =>
        obtain rfl := Except.ok.inj h
        refine ⟨hd, fun hne => ?_⟩
        simpa [hne] using hmap
  · rintro ⟨hfind, hmap⟩
    rw [hfind]
    by_cases hne : selector.subfields = []
    · simp [hne]
    · simp [hmap hne]

/-- A projection has one column of a logical schema for each of its selectors, and no name twice. -/
structure ResolvesIn (p : Projection) (logical : Schema) : Prop where
  columns : List.Forall₂ (fun selector c => select logical selector = .ok c) p.selectors
    p.schema.columns
  distinct : p.schema.NamesDistinct

/-- Selected columns have the names of their selectors. -/
theorem names_of_selected {logical : Schema} {selectors : List Selector} {columns : List Column}
    (h : List.Forall₂ (fun selector c => select logical selector = .ok c) selectors columns) :
    columns.map ColumnOf.name = selectors.map Selector.name := by
  induction h with
  | nil => rfl
  | cons hselected _ ih =>
    obtain ⟨hfind, _⟩ := select_eq_ok_iff.1 hselected
    rw [List.map_cons, List.map_cons, ih, (Schema.mem_of_find? hfind).2]

/-- The columns of a resolved projection have different names, and so have its selectors. -/
theorem ResolvesIn.selectsOnce {p : Projection} {logical : Schema} (h : p.ResolvesIn logical) :
    p.SelectsOnce := by
  unfold SelectsOnce
  rw [← names_of_selected h.columns]
  exact h.distinct

/-- Columns make a schema where no name is there twice. -/
theorem schemaOf_eq_ok_iff {columns : List Column} {s : Schema} :
    schemaOf columns = .ok s ↔ s = ⟨columns⟩ ∧ s.NamesDistinct := by
  rw [← Schema.ofColumns_eq_ok_iff]
  unfold schemaOf
  cases h : Schema.ofColumns columns with
  | ok t => rfl
  | error e =>
    constructor
    · intro hs
      split at hs
      · next heq => cases heq
      · cases hs
      · cases hs
    · intro hs
      cases hs

/-- Selectors are resolved to a projection of their own columns. -/
theorem resolve_eq_ok_iff {logical : Schema} {selectors : List Selector} {p : Projection} :
    resolve logical selectors = .ok p ↔ p.selectors = selectors ∧ p.ResolvesIn logical := by
  unfold resolve
  rw [Results.bind_eq_ok_iff]
  constructor
  · rintro ⟨columns, hcolumns, h⟩
    obtain ⟨schema, hschema, h⟩ := Results.bind_eq_ok_iff.1 h
    obtain rfl := Except.ok.inj h
    obtain ⟨rfl, hdistinct⟩ := schemaOf_eq_ok_iff.1 hschema
    exact ⟨rfl, Results.mapM_eq_ok_iff.1 hcolumns, hdistinct⟩
  · rintro ⟨rfl, hcolumns, hdistinct⟩
    exact ⟨p.schema.columns, Results.mapM_eq_ok_iff.2 hcolumns, Results.bind_eq_ok_iff.2
      ⟨p.schema, schemaOf_eq_ok_iff.2 ⟨rfl, hdistinct⟩, rfl⟩⟩

/-- The projection of all columns selects each of them by its name. -/
theorem identity_resolvesIn {logical : Schema} (h : logical.NamesDistinct) :
    (identity logical).ResolvesIn logical := by
  refine ⟨?_, h⟩
  show List.Forall₂ _ ((logical.columns.map ColumnOf.name).map Selector.column) logical.columns
  rw [List.map_map, List.forall₂_map_left_iff]
  refine List.forall₂_same.2 fun c hc => ?_
  exact select_eq_ok_iff.2 ⟨Schema.find?_of_mem h hc, fun hne => absurd rfl hne⟩

/-- What text was resolved to resolves in the schema. -/
theorem resolvesIn_of_parse {logical : Schema} {text : String} {p : Projection}
    (h : parse logical text = .ok p) (hlogical : logical.NamesDistinct) :
    p.ResolvesIn logical := by
  obtain ⟨selectors, _, h⟩ := Results.bind_eq_ok_iff.1 h
  split at h
  · obtain rfl := Except.ok.inj h
    exact identity_resolvesIn hlogical
  · exact (resolve_eq_ok_iff.1 h).2

/-- Projection text that resolves against a union of schemas selects no name twice. -/
theorem selectsOnce_of_parse {schemas : List Schema} {logical : Schema} {text : String}
    {p : Projection} (h : parse logical text = .ok p)
    (hunion : Schema.unionOf schemas = .ok logical) : p.SelectsOnce :=
  (resolvesIn_of_parse h (Schema.namesDistinct_of_unionOf hunion)).selectsOnce

/-- Every column of a resolved projection is the one of its name in the logical schema. -/
theorem ResolvesIn.find?_of_mem {p : Projection} {logical : Schema} (h : p.ResolvesIn logical)
    {c : Column} (hc : c ∈ p.schema.columns) : logical.find? c.name = some c := by
  obtain ⟨selector, _, hselect⟩ := Results.exists_mem_of_forall₂ h.columns hc
  obtain ⟨hfind, _⟩ := select_eq_ok_iff.1 hselect
  rw [(Schema.mem_of_find? hfind).2]
  exact hfind

/-- A resolved projection selects names of the logical schema. -/
theorem ResolvesIn.mem_names {p : Projection} {logical : Schema} (h : p.ResolvesIn logical)
    {selector : Selector} (hselector : selector ∈ p.selectors) :
    selector.name ∈ logical.names := by
  obtain ⟨i, hi⟩ := List.mem_iff_getElem?.1 hselector
  obtain ⟨c, _, hselect⟩ := Results.exists_getElem?_of_forall₂ h.columns hi
  obtain ⟨hmem, hname⟩ := Schema.mem_of_find? (select_eq_ok_iff.1 hselect).1
  exact hname ▸ List.mem_map_of_mem hmem

/-- Text without selectors stands for the whole schema, and other text for what its selectors
resolve to. -/
theorem parse_eq_ok_iff {logical : Schema} {text : String} {selectors : List Selector}
    {p : Projection} (h : Selector.parseAll text = .ok selectors) :
    parse logical text = .ok p ↔
      (selectors = [] ∧ p = identity logical)
        ∨ (selectors ≠ [] ∧ p.selectors = selectors ∧ p.ResolvesIn logical) := by
  unfold parse
  rw [Results.bind_eq_ok_iff, h, ← resolve_eq_ok_iff]
  constructor
  · rintro ⟨_, heq, hp⟩
    obtain rfl := Except.ok.inj heq
    cases selectors with
    | nil => exact .inl ⟨rfl, (Except.ok.inj hp).symm⟩
    | cons selector rest => exact .inr ⟨List.cons_ne_nil _ _, hp⟩
  · rintro (⟨rfl, rfl⟩ | ⟨hne, hp⟩)
    · exact ⟨[], rfl, rfl⟩
    · refine ⟨selectors, rfl, ?_⟩
      rw [List.isEmpty_eq_false_iff.2 hne]
      exact hp

/-! ## Parts of a logical schema -/

/-- Selectors whose names a part of the logical schema has resolve there to the same columns. -/
theorem ResolvesIn.of_part {p : Projection} {logical part : Schema} (h : p.ResolvesIn logical)
    (hpart : ∀ c ∈ part.columns, logical.find? c.name = some c)
    (hnames : ∀ selector ∈ p.selectors, selector.name ∈ part.names) : p.ResolvesIn part := by
  refine ⟨?_, h.distinct⟩
  refine ((List.forall₂_and_left _ _).2 ⟨hnames, h.columns⟩).imp fun selector c hboth => ?_
  obtain ⟨hname, hselect⟩ := hboth
  obtain ⟨hfind, hmap⟩ := select_eq_ok_iff.1 hselect
  obtain ⟨own, hown⟩ := Option.isSome_iff_exists.1 (Schema.find?_isSome_iff.2 hname)
  obtain ⟨hmem, hcalled⟩ := Schema.mem_of_find? hown
  -- the column that the part has under the name is the one that the logical schema has there
  have hsame := hpart own hmem
  rw [hcalled, hfind] at hsame
  obtain rfl := Option.some.inj hsame
  exact select_eq_ok_iff.2 ⟨hown, hmap⟩

/-- Text resolves in a part as in the whole schema where the part has every name that it selects;
without selectors it stands for the schema, and the part has to be the whole. -/
theorem parse_part_eq_ok {logical part : Schema} {text : String} {selectors : List Selector}
    {p : Projection} (hselectors : Selector.parseAll text = .ok selectors)
    (hp : parse logical text = .ok p)
    (hpart : ∀ c ∈ part.columns, logical.find? c.name = some c)
    (hwhole : selectors = [] → part = logical)
    (hnames : ∀ selector ∈ selectors, selector.name ∈ part.names) : parse part text = .ok p := by
  rcases (parse_eq_ok_iff hselectors).1 hp with ⟨hnil, -⟩ | ⟨hne, rfl, hresolves⟩
  · rw [hwhole hnil]
    exact hp
  · exact (parse_eq_ok_iff hselectors).2 (.inr ⟨hne, rfl, hresolves.of_part hpart hnames⟩)

/-- Only there: a part in which text makes the same schema has every name, and without selectors it
is the whole. -/
theorem names_of_parse_part {logical part : Schema} {text : String} {selectors : List Selector}
    {p q : Projection} (hselectors : Selector.parseAll text = .ok selectors)
    (hp : parse logical text = .ok p) (hq : parse part text = .ok q)
    (hschema : q.schema = p.schema) :
    (selectors = [] → part = logical) ∧ ∀ selector ∈ selectors, selector.name ∈ part.names := by
  rcases (parse_eq_ok_iff hselectors).1 hq with ⟨rfl, rfl⟩ | ⟨hne, rfl, hresolves⟩
  · rcases (parse_eq_ok_iff hselectors).1 hp with ⟨-, rfl⟩ | ⟨hne, -⟩
    · exact ⟨fun _ => hschema, fun _ hmem => absurd hmem List.not_mem_nil⟩
    · exact absurd rfl hne
  · exact ⟨fun hnil => absurd hnil hne, fun selector hmem => hresolves.mem_names hmem⟩

end Projection

namespace ProjectionChoice

/-! ## Requested fields -/

/-- What a request selects from the columns of a schema. -/
structure Requested (schema : Schema) (field : FieldRequest) (selector : Selector) : Prop where
  column : ∃ c, schema.columns[field.index]? = some c ∧ selector = ⟨c.name, field.subfields⟩
    ∧ (field.subfields ≠ [] → c.type.isMap = true)
  keys : ∀ key ∈ field.subfields, Selector.isRenderableKey key = true

/-- A request that was granted selects what it asks for, at a position that is new. -/
theorem requested_of_selectorOf {schema : Schema} {seen : List Nat} {field : FieldRequest}
    {selector : Selector} (h : selectorOf schema seen field = .ok selector) :
    Requested schema field selector ∧ field.index ∉ seen := by
  unfold selectorOf at h
  -- the checks in their order: the position, the map, the repeat, the keys
  split at h
  · cases h
  · next c hc =>
    split at h
    · cases h
    · next hmap =>
      split at h
      · cases h
      · next hseen =>
        split at h
        · cases h
        · next hkeys =>
          obtain rfl := Except.ok.inj h
          refine ⟨⟨⟨c, hc, rfl, fun hne => ?_⟩, ?_⟩, ?_⟩
          · simpa [hne] using hmap
          · simpa using hkeys
          · simpa using hseen

/-- Requests that were granted select, each by itself, at positions that are all different. -/
theorem requested_of_selectorsOf {schema : Schema} {seen : List Nat} {requests : List FieldRequest}
    {selectors : List Selector} (h : selectorsOf schema seen requests = .ok selectors) :
    List.Forall₂ (Requested schema) requests selectors
      ∧ (requests.map FieldRequest.index).Nodup
      ∧ ∀ field ∈ requests, field.index ∉ seen := by
  induction requests generalizing seen selectors with
  | nil =>
    obtain rfl := Except.ok.inj h
    exact ⟨.nil, List.nodup_nil, fun _ hf => absurd hf List.not_mem_nil⟩
  | cons field rest ih =>
    unfold selectorsOf at h
    split at h
    · cases h
    · next selector hselector =>
      obtain ⟨more, hmore, rfl⟩ := Results.map_eq_ok_iff.1 h
      obtain ⟨hrequested, hnew⟩ := requested_of_selectorOf hselector
      obtain ⟨hrest, hnodup, hunseen⟩ := ih hmore
      refine ⟨.cons hrequested hrest, ?_, ?_⟩
      · rw [List.map_cons, List.nodup_cons]
        -- `seen` holds the indices of all requests in front, so none of them comes again
        refine ⟨fun hmem => ?_, hnodup⟩
        obtain ⟨other, hother, hindex⟩ := List.mem_map.1 hmem
        exact hunseen other hother (hindex ▸ List.mem_cons_self)
      · intro other hother
        rcases List.mem_cons.1 hother with rfl | hother
        · exact hnew
        · exact fun hmem => hunseen other hother (List.mem_cons_of_mem _ hmem)

/-- At different positions of a schema without repeats stand different names. -/
theorem names_nodup_of_requested {schema : Schema} {requests : List FieldRequest}
    {selectors : List Selector} (h : List.Forall₂ (Requested schema) requests selectors)
    (hindex : (requests.map FieldRequest.index).Nodup) (hschema : schema.NamesDistinct) :
    (selectors.map Selector.name).Nodup := by
  induction h with
  | nil => exact List.nodup_nil
  | @cons field selector requests selectors hfield hrest ih =>
    rw [List.map_cons, List.nodup_cons] at hindex ⊢
    refine ⟨fun hmem => ?_, ih hindex.2⟩
    obtain ⟨other, hother, hname⟩ := List.mem_map.1 hmem
    obtain ⟨request, hrequest, hrequested⟩ := Results.exists_mem_of_forall₂ hrest hother
    obtain ⟨c, hc, rfl, _⟩ := hfield.column
    obtain ⟨d, hd, rfl, _⟩ := hrequested.column
    -- two columns of one name are one column, so the index was there twice
    have hc' : schema.names[field.index]? = some c.name := by
      unfold Schema.names
      rw [List.getElem?_map, hc]
      rfl
    have hd' : schema.names[request.index]? = some d.name := by
      unfold Schema.names
      rw [List.getElem?_map, hd]
      rfl
    obtain ⟨hlt, _⟩ := List.getElem?_eq_some_iff.1 hc'
    have hsame : schema.names[field.index]? = schema.names[request.index]? := by
      rw [hc', hd']
      exact congrArg some hname.symm
    have hindices : field.index = request.index := (List.getElem?_inj hlt hschema).1 hsame
    exact hindex.1 (hindices ▸ List.mem_map_of_mem hrequest)

/-- The text of requested fields is read back as the selectors of the requests, and resolves where
the projection resolves that they were requested from. -/
theorem exists_parse_of_selectorsOf {logical : Schema} {p : Projection}
    {requests : List FieldRequest} {selectors : List Selector} (hlogical : logical.WellNamed)
    (hp : p.ResolvesIn logical) (hne : requests ≠ [])
    (h : selectorsOf p.schema [] requests = .ok selectors) :
    ∃ after, Projection.parse logical (Selector.renderAll selectors) = .ok after
      ∧ after.selectors = selectors ∧ (Selector.renderAll selectors).isEmpty = false := by
  obtain ⟨hrequested, hindex, _⟩ := requested_of_selectorsOf h
  have hselect : ∀ selector ∈ selectors, ∃ c, Projection.select logical selector = .ok c := by
    intro selector hselector
    obtain ⟨field, _, hfield⟩ := Results.exists_mem_of_forall₂ hrequested hselector
    obtain ⟨c, hc, rfl, hmap⟩ := hfield.column
    exact ⟨c, Projection.select_eq_ok_iff.2
      ⟨hp.find?_of_mem (List.mem_of_getElem? hc), hmap⟩⟩
  -- names come from a schema whose names are of the grammar, and keys were checked on request
  have hwritable : ∀ selector ∈ selectors, selector.isWritable = true := by
    intro selector hselector
    obtain ⟨field, _, hfield⟩ := Results.exists_mem_of_forall₂ hrequested hselector
    obtain ⟨c, hc, rfl, _⟩ := hfield.column
    have hmem := (Schema.mem_of_find? (hp.find?_of_mem (List.mem_of_getElem? hc))).1
    exact Selector.isWritable_iff.2 ⟨hlogical.names c hmem, hfield.keys⟩
  obtain ⟨columns, hcolumns⟩ := Results.exists_mapM_eq_ok hselect
  have hnames := Projection.names_of_selected (Results.mapM_eq_ok_iff.1 hcolumns)
  -- the names are different, so the selected columns make a schema
  have hresolve : Projection.resolve logical selectors = .ok ⟨selectors, ⟨columns⟩⟩ := by
    refine Projection.resolve_eq_ok_iff.2 ⟨rfl, Results.mapM_eq_ok_iff.1 hcolumns, ?_⟩
    show (columns.map ColumnOf.name).Nodup
    rw [hnames]
    exact names_nodup_of_requested hrequested hindex hp.distinct
  cases hrequested with
  | nil => exact absurd rfl hne
  | @cons field selector requests selectors _ _ =>
    refine ⟨⟨selector :: selectors, ⟨columns⟩⟩, ?_, rfl,
      Selector.renderAll_isEmpty (List.cons_ne_nil selector selectors) hwritable⟩
    exact Results.bind_eq_ok_iff.2 ⟨_, Selector.parseAll_renderAll hwritable, hresolve⟩

end ProjectionChoice

end TableScan
