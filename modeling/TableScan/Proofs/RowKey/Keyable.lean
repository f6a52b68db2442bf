import TableScan.Proofs.RowKey.TupleOrder
import TableScan.Proofs.Schema.Columns
import TableScan.Proofs.Table.Opening

/-!
# Row keys: which rows have one

An order lays out keys of records just where each of its columns is of a primitive type and occurs
among those of the records, with the same type (`SortOrder.OccursIn`). A table that opens names sort
columns that its own schema has, with their types, and a row that decodes by this schema holds null
or a value of its type in each of them. So no row of a sorted table is without a key.

Main statements: which layouts there are (`exists_ofOrder_iff`, `exists_forTuples_iff`), those of
sorted tables (`exists_ofOrder_of_openAt`), and keys of decoded rows (`exists_keyOfRecord`).
-/

namespace TableScan

/-! ## Decoded values -/

namespace Value

theorem isOf_of_primitiveOfJson? {p : Primitive} {j : Json} {v : Value}
    (h : primitiveOfJson? p j = some v) : v.IsOf p := by
  unfold primitiveOfJson? at h
  split at h
  · cases h
    constructor
  · obtain ⟨n, _, hn⟩ := Option.bind_eq_some_iff.1 h
    split at hn
    · cases hn
      constructor
    · cases hn
  · obtain ⟨n, _, rfl⟩ := Option.map_eq_some_iff.1 h
    constructor
  · obtain ⟨bits, _, rfl⟩ := Option.map_eq_some_iff.1 h
    constructor
  · obtain ⟨bits, _, rfl⟩ := Option.map_eq_some_iff.1 h
    constructor
  · cases h
    constructor
  · cases h
    constructor
  · obtain ⟨bs, _, rfl⟩ := Option.map_eq_some_iff.1 h
    constructor
  · cases h

theorem isNull_of_isOf {p : Primitive} {v : Value} (h : v.IsOf p) : v.isNull = false := by
  cases h <;> rfl

/-- A decoded value of a primitive type is null or of this type. -/
theorem isOf_of_ofJson {p : Primitive} {j : Json} {v : Value}
    (h : ofJson (.primitive p) j = .ok v) : v = .null ∨ v.IsOf p := by
  by_cases hj : j = .null
  · rw [hj, ofJson] at h
    exact .inl (Except.ok.inj h).symm
  · rw [ofJson] at h
    · split at h
      · next w hw =>
        obtain rfl := Except.ok.inj h
        exact .inr (isOf_of_primitiveOfJson? hw)
      · cases h
    · exact hj

/-- Items that decode do so one by one, each by the type of its column. -/
theorem forall₂_of_fieldsOfJson {columns : List Column} {items : List Json} {row : List Value}
    (hlen : items.length = columns.length) (h : fieldsOfJson columns items = .ok row) :
    List.Forall₂ (fun c v => ∃ j, ofJson c.type j = .ok v) columns row := by
  induction columns generalizing items row with
  | nil =>
    obtain rfl := List.length_eq_zero_iff.1 hlen
    unfold fieldsOfJson at h
    cases h
    exact .nil
  | cons c columns ih =>
    obtain ⟨j, items, rfl⟩ := List.exists_cons_of_length_eq_add_one hlen
    obtain ⟨name, type⟩ := c
    unfold fieldsOfJson at h
    split at h
    · cases h
    · next v hv =>
      obtain ⟨rest, hrest, rfl⟩ := Results.map_eq_ok_iff.1 h
      exact .cons ⟨j, hv⟩ (ih (by simpa using hlen) hrest)

end Value

/-- A decoded row has one decoded value for each column. -/
theorem Record.forall₂_of_ofJson {schema : Schema} {j : Json} {row : Record}
    (h : Record.ofJson schema j = .ok row) :
    List.Forall₂ (fun c v => ∃ j, Value.ofJson c.type j = .ok v) schema.columns row := by
  unfold Record.ofJson at h
  split at h
  · next items =>
    split at h
    · next hlen => exact Value.forall₂_of_fieldsOfJson hlen h
    · cases h
  · cases h

/-! ## Keys of decoded rows -/

/-- The order by some names has the columns of these names, none of them twice. -/
theorem SortOrder.ofNames_eq_ok {names : List String} {schema : Schema} {order : SortOrder}
    (h : ofNames names schema = .ok order) :
    order.schema.NamesDistinct
      ∧ List.Forall₂ (fun name c => schema.find? name = some c) names order.columns := by
  obtain ⟨columns, hcolumns, horder⟩ := Results.bind_eq_ok_iff.1 h
  unfold ofColumns at horder
  split at horder
  · cases horder
  · obtain ⟨s, hs, rfl⟩ := Results.map_eq_ok_iff.1 horder
    obtain ⟨rfl, hdistinct⟩ := Schema.ofColumns_eq_ok_iff.1 hs
    refine ⟨hdistinct, (Results.mapM_eq_ok_iff.1 hcolumns).imp fun name c hc => ?_⟩
    -- a name that no column has would be an error
    split at hc
    · next d hd =>
      obtain rfl := Except.ok.inj hc
      exact hd
    · cases hc

namespace KeyLayout

/-- The part for a column of a primitive type stands where the layout has this column, and there is
none for any other column. -/
theorem ofColumn_eq_ok_iff {layout : Schema} {c : Column} {part : KeyField} :
    KeyField.ofColumn layout c = .ok part ↔
      ∃ p i, c.type = .primitive p ∧ layout.find? c.name = some c
        ∧ layout.indexOf? c.name = some i ∧ part = ⟨c.name, p, i⟩ := by
  obtain ⟨name, type⟩ := c
  unfold KeyField.ofColumn
  constructor
  · intro h
    -- only a column of a primitive type gets as far as the look-up
    cases type with
    | primitive p =>
      dsimp only [ColumnType.primitive?] at h
      split at h
      · next i actual hindex hfind =>
        split at h
        · next hsame =>
          obtain ⟨-, hname⟩ := Schema.mem_of_find? hfind
          obtain ⟨own, actualType⟩ := actual
          obtain rfl : own = name := hname
          obtain rfl : actualType = .primitive p := hsame
          exact ⟨p, i, rfl, hfind, hindex, (Except.ok.inj h).symm⟩
        · cases h
      · cases h
    | map value => cases h
    | record columns => cases h
  · rintro ⟨p, i, rfl, hfind, hindex, rfl⟩
    dsimp only [ColumnType.primitive?]
    rw [hindex, hfind]
    exact if_pos rfl

/-- A part of a key stands where a column of its type stands. -/
theorem getElem?_of_ofColumn {layout : Schema} {c : Column} {part : KeyField}
    (h : KeyField.ofColumn layout c = .ok part) :
    ∃ actual, layout.columns[part.position]? = some actual
      ∧ actual.type = .primitive part.type := by
  obtain ⟨p, i, htype, hfind, hindex, rfl⟩ := ofColumn_eq_ok_iff.1 h
  rw [Schema.find?_eq_bind_indexOf?, hindex] at hfind
  exact ⟨c, hfind, htype⟩

/-- Null and the values of a part's type are encoded. -/
theorem exists_encode {part : KeyField} {v : Value} (h : v = .null ∨ v.IsOf part.type) :
    ∃ x, part.encode v = .ok x := by
  -- a presence byte, and behind it the value if there is one
  have henc : ∃ x, RowKey.encodeField? part.type v = some x := by
    rcases h with rfl | h
    · exact ⟨[0], rfl⟩
    · obtain ⟨x, hx⟩ := RowKey.exists_encodeValue_of_isOf h
      refine ⟨RowKey.presence v :: x, ?_⟩
      rw [RowKey.encodeField?, Value.isNull_of_isOf h, hx]
      rfl
  obtain ⟨x, hx⟩ := henc
  refine ⟨x, ?_⟩
  rw [KeyField.encode, hx]

/-- A row that decodes by the layout has a key. -/
theorem exists_keyOfRecord {order : SortOrder} {layout : Schema} {g : KeyLayout} {j : Json}
    {row : Record} (hg : ofOrder order layout = .ok g) (hrow : Record.ofJson layout j = .ok row) :
    ∃ k, g.keyOfRecord row = .ok k := by
  obtain ⟨parts, hparts, rfl⟩ := Results.map_eq_ok_iff.1 hg
  have hvalues := Record.forall₂_of_ofJson hrow
  -- a row of the layout has under each part a value of the part's type, or null
  have hfield : ∀ part ∈ parts, ∃ v, row[part.position]? = some v ∧ ∃ x, part.encode v = .ok x := by
    intro part hpart
    obtain ⟨c, _, hc⟩ := Results.exists_mem_of_forall₂ (Results.mapM_eq_ok_iff.1 hparts) hpart
    obtain ⟨actual, hactual, htype⟩ := getElem?_of_ofColumn hc
    obtain ⟨v, hv, j, hj⟩ := Results.exists_getElem?_of_forall₂ hvalues hactual
    rw [htype] at hj
    exact ⟨v, hv, exists_encode (Value.isOf_of_ofJson hj)⟩
  unfold keyOfRecord
  refine Results.exists_bind_eq_ok (Results.exists_mapM_eq_ok fun part hpart => ?_)
    fun fields => ⟨⟨fields.flatten⟩, rfl⟩
  obtain ⟨v, hv, x, hx⟩ := hfield part hpart
  rw [hv]
  exact ⟨x, hx⟩

/-! ## Orders that lay out keys -/

end KeyLayout

/-- The columns of an order are of primitive types, and a layout has each of them under its name and
with its type. -/
def SortOrder.OccursIn (order : SortOrder) (layout : Schema) : Prop :=
  ∀ c ∈ order.columns, c.type.isSortable = true ∧ layout.find? c.name = some c

namespace KeyLayout

/-- A column gets a part just where it is sortable and the layout has it as it is. -/
theorem exists_ofColumn_iff {layout : Schema} {c : Column} :
    (∃ part, KeyField.ofColumn layout c = .ok part)
      ↔ c.type.isSortable = true ∧ layout.find? c.name = some c := by
  constructor
  · rintro ⟨part, hpart⟩
    obtain ⟨p, i, htype, hfind, -, -⟩ := ofColumn_eq_ok_iff.1 hpart
    rw [htype]
    exact ⟨rfl, hfind⟩
  · rintro ⟨hsortable, hfind⟩
    obtain ⟨i, hindex, -⟩ := Schema.exists_indexOf?_of_find? hfind
    cases htype : c.type with
    | primitive p => exact ⟨_, ofColumn_eq_ok_iff.2 ⟨p, i, htype, hfind, hindex, rfl⟩⟩
    | map value => rw [htype] at hsortable; cases hsortable
    | record columns => rw [htype] at hsortable; cases hsortable

/-- An order lays out keys of records just where it occurs among their columns. -/
theorem exists_ofOrder_iff {order : SortOrder} {layout : Schema} :
    (∃ g, ofOrder order layout = .ok g) ↔ order.OccursIn layout := by
  constructor
  · rintro ⟨g, hg⟩ c hc
    obtain ⟨parts, hparts, -⟩ := Results.map_eq_ok_iff.1 hg
    obtain ⟨part, -, hpart⟩ :=
      Results.exists_mem_of_forall₂ (Results.mapM_eq_ok_iff.1 hparts).flip hc
    exact exists_ofColumn_iff.1 ⟨part, hpart⟩
  · intro hoccurs
    obtain ⟨parts, hparts⟩ :=
      Results.exists_mapM_eq_ok fun c hc => exists_ofColumn_iff.2 (hoccurs c hc)
    exact ⟨⟨parts⟩, Results.map_eq_ok_iff.2 ⟨parts, hparts, rfl⟩⟩

/-- An order lays out keys of tuples just where it names no column twice and all are of primitive
types. -/
theorem exists_forTuples_iff {order : SortOrder} :
    (∃ tuples, forTuples order = .ok tuples)
      ↔ order.schema.NamesDistinct ∧ ∀ c ∈ order.columns, c.type.isSortable = true := by
  constructor
  · rintro ⟨tuples, htuples⟩
    obtain ⟨layout, hlayout, hg⟩ := Results.bind_eq_ok_iff.1 htuples
    obtain ⟨rfl, hdistinct⟩ := Schema.ofColumns_eq_ok_iff.1 hlayout
    exact ⟨hdistinct, fun c hc => (exists_ofOrder_iff.1 ⟨tuples, hg⟩ c hc).1⟩
  · rintro ⟨hdistinct, hsortable⟩
    have hlayout : Schema.ofColumns order.columns = .ok order.schema :=
      Schema.ofColumns_eq_ok_iff.2 ⟨rfl, hdistinct⟩
    -- an order occurs in its own columns as soon as their names are distinct
    have hoccurs : order.OccursIn order.schema := fun c hc =>
      ⟨hsortable c hc, Schema.find?_of_mem hdistinct hc⟩
    obtain ⟨g, hg⟩ := exists_ofOrder_iff.2 hoccurs
    exact ⟨g, Results.bind_eq_ok_iff.2 ⟨order.schema, hlayout, hg⟩⟩

/-- The columns that names find in a schema are found there. -/
theorem find?_of_ofNames {names : List String} {schema : Schema} {order : SortOrder}
    (h : SortOrder.ofNames names schema = .ok order) {c : Column} (hc : c ∈ order.columns) :
    schema.find? c.name = some c := by
  obtain ⟨name, _, hname⟩ :=
    Results.exists_mem_of_forall₂ (SortOrder.ofNames_eq_ok h).2 hc
  rw [(Schema.mem_of_find? hname).2]
  exact hname

/-- An order by columns of a schema that lays out keys of tuples lays out keys of rows too. -/
theorem exists_ofOrder_of_ofNames {names : List String} {schema : Schema} {order : SortOrder}
    {tuples : KeyLayout} (h : SortOrder.ofNames names schema = .ok order)
    (htuples : forTuples order = .ok tuples) : ∃ g, ofOrder order schema = .ok g := by
  obtain ⟨-, hsortable⟩ := exists_forTuples_iff.1 ⟨tuples, htuples⟩
  exact exists_ofOrder_iff.2 fun c hc => ⟨hsortable c hc, find?_of_ofNames h hc⟩

/-- The order of a table that opens lays out keys of the table's own rows. -/
theorem exists_ofOrder_of_openAt {disk : Disk} {path : String} {t : Table} {order : SortOrder}
    (h : Table.openAt disk path = .ok t) (horder : t.sortOrder = some order) :
    ∃ g, ofOrder order t.schema = .ok g := by
  obtain ⟨_, _, _, hsort, _⟩ := Table.openAt_eq_ok_iff.1 h
  rw [horder] at hsort
  obtain ⟨names, tuples, _, hnames, htuples⟩ := Table.readSortOrder_eq_ok_some_iff.1 hsort
  exact exists_ofOrder_of_ofNames hnames htuples

end KeyLayout

end TableScan
