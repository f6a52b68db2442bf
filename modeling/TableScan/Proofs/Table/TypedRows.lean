import TableScan.Proofs.Projection.Resolved
import TableScan.Proofs.Projection.Rows
import TableScan.Proofs.Table.StoredValues

/-!
# Typed rows

The values of a column type are null and what the type describes, at any depth (`Value.HasType`). A
row is typed by columns if it has one value of its type for each of them, in order
(`Record.HasTypes`).

Main statements: what decodes by a schema is typed by it (`Record.hasTypes_of_ofJson`), and a
projection makes of rows that are typed by the schema of one table records that are typed by its own
schema, whatever the table lacks (`Projection.hasTypes_ofRow`).
-/

namespace TableScan

/-- A value is null or has a type, and so have the values inside of it. -/
inductive Value.HasType : ColumnType → Value → Prop where
  | null (type : ColumnType) : HasType type .null
  | primitive {p : Primitive} {v : Value} (h : v.IsOf p) : HasType (.primitive p) v
  | map {type : ColumnType} {entries : List (String × Value)}
      (h : ∀ e ∈ entries, HasType type e.2) : HasType (.map type) (.map entries)
  | record {columns : List Column} {fields : List Value}
      (h : List.Forall₂ (fun c v => HasType c.type v) columns fields) :
    HasType (.record columns) (.record fields)

/-- A row has one value of its type for each column. -/
def Record.HasTypes (columns : List Column) (row : Record) : Prop :=
  List.Forall₂ (fun c v => Value.HasType c.type v) columns row

/-! ## Decoded rows -/

namespace Value

mutual

/-- What decodes by a type is of this type. -/
theorem hasType_of_ofJson (type : ColumnType) {j : Json} {v : Value} (h : ofJson type j = .ok v) :
    v.HasType type := by
  cases type with
  | primitive p =>
    rcases isOf_of_ofJson h with rfl | hv
    · exact .null _
    · exact .primitive hv
  | map value =>
    rcases ofJson_map_eq_ok h with ⟨-, rfl⟩ | ⟨members, entries, -, rfl, hentries⟩
    · exact .null _
    -- each entry decodes by the type of the values
    · refine .map fun e he => ?_
      obtain ⟨m, -, -, hm⟩ := Results.exists_mem_of_forall₂ hentries he
      exact hasType_of_ofJson value hm
  | record columns =>
    rcases ofJson_record_eq_ok h with ⟨-, rfl⟩ | ⟨items, fields, -, rfl, hwidth, hfields⟩
    · exact .null _
    · exact .record (hasTypes_of_decoded columns (forall₂_of_fieldsOfJson hwidth hfields))

/-- Fields that decode one by one are typed by their columns. -/
theorem hasTypes_of_decoded (columns : List Column) {fields : List Value}
    (h : List.Forall₂ (fun c v => ∃ j, ofJson c.type j = .ok v) columns fields) :
    List.Forall₂ (fun c v => HasType c.type v) columns fields := by
  cases columns with
  | nil =>
    cases h
    exact .nil
  | cons c columns =>
    obtain ⟨name, type⟩ := c
    cases h with
    | cons hv hrest =>
      obtain ⟨j, hj⟩ := hv
      exact .cons (hasType_of_ofJson type hj) (hasTypes_of_decoded columns hrest)

end

end Value

/-- What decodes by a schema is typed by it. -/
theorem Record.hasTypes_of_ofJson {schema : Schema} {j : Json} {row : Record}
    (h : Record.ofJson schema j = .ok row) : row.HasTypes schema.columns :=
  Value.hasTypes_of_decoded _ (forall₂_of_ofJson h)

/-! ## Projected rows -/

/-- Without some of its keys a map stays of its type. -/
theorem FieldOrigin.hasType_narrow {type : ColumnType} {v : Value} (h : v.HasType type)
    (subfields : List String) : (narrow subfields v).HasType type := by
  cases v with
  | map entries =>
    rw [narrow_map]
    cases h with
    | primitive hprimitive => cases hprimitive
    | map hentries => exact .map fun e he => hentries e (List.mem_of_mem_filter he)
  | _ => exact h

/-- A typed row has under the name of a column a value of the type of this column. -/
theorem Schema.hasType_valueOf {own : Schema} {row : Record} (hrow : row.HasTypes own.columns)
    {name : String} {c : Column} (hc : own.find? name = some c) :
    (own.valueOf name row).HasType c.type := by
  obtain ⟨i, hi, hcolumn⟩ := exists_indexOf?_of_find? hc
  obtain ⟨v, hv, htyped⟩ := Results.exists_getElem?_of_forall₂ hrow hcolumn
  rw [valueOf_eq_getElem?, hi, Option.bind_some, hv]
  exact htyped

/-- A row has null under a name that its schema lacks. -/
theorem Schema.valueOf_of_find?_none {own : Schema} {name : String} (h : own.find? name = none)
    (row : Record) : own.valueOf name row = .null := by
  have hindex : own.indexOf? name = none := by
    rw [← Option.not_isSome_iff_eq_none, indexOf?_isSome_iff, ← find?_isSome_iff, h]
    exact Bool.false_ne_true
  rw [valueOf_eq_getElem?, hindex]
  rfl

/-- Rows of a schema whose columns are those of a logical schema are projected to records of the
projection's types: a column that the schema lacks reads as null, and all others have one type in
both. -/
theorem Projection.hasTypes_ofRow {p : Projection} {logical own : Schema}
    (hp : p.ResolvesIn logical) (hown : ∀ c ∈ own.columns, logical.find? c.name = some c)
    {row : Record} (hrow : row.HasTypes own.columns) :
    (p.ofRow own row).HasTypes p.schema.columns := by
  refine List.forall₂_map_right_iff.2 (hp.columns.flip.imp fun c selector hselect => ?_)
  have hfind : logical.find? selector.name = some c := (select_eq_ok_iff.1 hselect).1
  rw [Selector.valueIn_eq_narrow]
  refine FieldOrigin.hasType_narrow ?_ _
  -- a column that the schema lacks is null; one that it has is the one of the logical schema
  cases hc : own.find? selector.name with
  | none =>
    rw [Schema.valueOf_of_find?_none hc]
    exact .null _
  | some d =>
    obtain ⟨hd, hname⟩ := Schema.mem_of_find? hc
    -- the schema's columns are those of the logical one, under one name the same
    obtain rfl : d = c := by
      have hshared := hown d hd
      rw [hname, hfind] at hshared
      exact (Option.some.inj hshared).symm
    exact Schema.hasType_valueOf hrow hc

end TableScan
