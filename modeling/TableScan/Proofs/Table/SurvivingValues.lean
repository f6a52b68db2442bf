import TableScan.Proofs.Binary.Widening
import TableScan.Proofs.Table.TypedRows

/-!
# Values that survive as JSON

JSON has fewer kinds of values than there are column types: all numbers are of one kind, and bytes
and records are arrays. What a value was is told by its type, so a value of a type comes back from
its own JSON, unless there is an infinity or a pattern that is not a number inside of it
(`Value.IsFinite`), for which JSON has no spelling. The single ones come back since widening them
loses nothing (`Binary.narrow_widen`).

Main statement: the values that survive are the finite ones of the type, and the same holds of rows
(`ofJson_toJson_iff`).
-/

namespace TableScan

namespace Value

mutual

/-- Holds of values in which all floating-point values are finite. -/
def IsFinite : Value → Prop
  | .float bits => Binary.single.isFinite bits.toNat = true
  | .double bits => Binary.double.isFinite bits.toNat = true
  | .map entries => EntriesFinite entries
  | .record fields => FieldsFinite fields
  | _ => True

/-- The same of the values of entries. -/
def EntriesFinite : List (String × Value) → Prop
  | [] => True
  | (_, v) :: rest => IsFinite v ∧ EntriesFinite rest

/-- The same of fields. -/
def FieldsFinite : List Value → Prop
  | [] => True
  | v :: rest => IsFinite v ∧ FieldsFinite rest

end

/-! ## Values of primitive types -/

/-- A double survives just when it is finite: others are written as null. -/
theorem double_survives_iff (bits : UInt64) :
    ofJson (.primitive .double) (double bits).toJson = .ok (double bits)
      ↔ (double bits).IsFinite := by
  show ofJson _ (Json.ofDouble bits) = _ ↔ Binary.double.isFinite bits.toNat = true
  unfold Json.ofDouble
  by_cases h : Binary.double.isFinite bits.toNat = true
  · rw [if_pos h]
    exact iff_of_true (ofJson_primitive_eq_ok rfl) h
  · rw [if_neg h, ofJson_null]
    exact iff_of_false (fun hnull => by cases hnull) h

/-- A single survives just when it is finite. It is written as the double that has its value, and
narrowed back to it. -/
theorem float_survives_iff (bits : UInt32) :
    ofJson (.primitive .float) (float bits).toJson = .ok (float bits)
      ↔ (float bits).IsFinite := by
  show ofJson _ (Json.ofDouble (Binary.widen bits)) = _ ↔ Binary.single.isFinite bits.toNat = true
  unfold Json.ofDouble
  rw [Binary.isFinite_widen]
  by_cases h : Binary.single.isFinite bits.toNat = true
  · have hread : primitiveOfJson? .float (.number (.double (Binary.widen bits)))
        = some (float (Binary.narrow (Binary.widen bits))) := rfl
    rw [Binary.narrow_widen h] at hread
    rw [if_pos h]
    exact iff_of_true (ofJson_primitive_eq_ok hread) h
  · rw [if_neg h, ofJson_null]
    exact iff_of_false (fun hnull => by cases hnull) h

/-- A value of a primitive type survives just when it is finite, as all are that are not
floating-point numbers. -/
theorem primitive_survives_iff {p : Primitive} {v : Value} (h : v.IsOf p) :
    ofJson (.primitive p) v.toJson = .ok v ↔ v.IsFinite := by
  have hexact : (p ≠ .float ∧ p ≠ .double) → v.IsFinite →
      (ofJson (.primitive p) v.toJson = .ok v ↔ v.IsFinite) := fun hfree hfinite =>
    iff_of_true (ofJson_toJson_of_isOf h hfree).1 hfinite
  cases h with
  | float bits => exact float_survives_iff bits
  | double bits => exact double_survives_iff bits
  | int n => exact hexact (by decide) trivial
  | long n => exact hexact (by decide) trivial
  | string s => exact hexact (by decide) trivial
  | bytes bs => exact hexact (by decide) trivial
  | bool b => exact hexact (by decide) trivial

/-! ## Maps and records -/

/-- The entries of a map survive where their values do. -/
theorem entries_survive_iff {type : ColumnType} {entries : List (String × Value)}
    (hvalue : ∀ {v : Value}, v.HasType type → (ofJson type v.toJson = .ok v ↔ v.IsFinite))
    (h : ∀ e ∈ entries, e.2.HasType type) :
    ofJson (.map type) (map entries).toJson = .ok (map entries) ↔ (map entries).IsFinite := by
  show ofJson (.map type) (.object (entriesToJson entries)) = _ ↔ EntriesFinite entries
  -- the map survives just when each entry is decoded from its own member
  have hmap : ofJson (.map type) (.object (entriesToJson entries)) = .ok (map entries)
      ↔ List.Forall₂ (fun m e => (ofJson type m.2).map (m.1, ·) = .ok e)
          (entriesToJson entries) entries := by
    rw [ofJson_map_object, Results.map_eq_ok_iff, ← Results.mapM_eq_ok_iff]
    simp only [map.injEq, exists_eq_right]
  rw [hmap]
  clear hmap
  induction entries with
  | nil => exact iff_of_true .nil trivial
  | cons e entries ih =>
    obtain ⟨key, v⟩ := e
    obtain ⟨hv, hrest⟩ := List.forall_mem_cons.1 h
    have hentry : (ofJson type v.toJson).map (key, ·) = .ok (key, v)
        ↔ ofJson type v.toJson = .ok v := by
      rw [Results.map_eq_ok_iff]
      simp only [Prod.mk.injEq, true_and, exists_eq_right]
    rw [entriesToJson, List.forall₂_cons, hentry]
    exact and_congr (hvalue hv) (ih hrest)

/-- Fields are decoded as given ones just when the first of them is, and the others are. -/
theorem fieldsOfJson_cons_eq_ok_iff {c : Column} {columns : List Column} {j : Json}
    {items : List Json} {v : Value} {fields : List Value} :
    fieldsOfJson (c :: columns) (j :: items) = .ok (v :: fields)
      ↔ ofJson c.type j = .ok v ∧ fieldsOfJson columns items = .ok fields := by
  obtain ⟨name, type⟩ := c
  rw [fieldsOfJson]
  cases ofJson type j with
  | error e => exact iff_of_false (fun h => by cases h) (fun h => by cases h.1)
  | ok w =>
    show (fieldsOfJson columns items).map (w :: ·) = _ ↔ _
    rw [Results.map_eq_ok_iff]
    simp only [List.cons.injEq, Except.ok.injEq]
    constructor
    · rintro ⟨_, hfields, rfl, rfl⟩
      exact ⟨rfl, hfields⟩
    · rintro ⟨rfl, hfields⟩
      exact ⟨fields, hfields, rfl, rfl⟩

/-- A record has an item for each field. -/
theorem length_fieldsToJson (fields : List Value) :
    (fieldsToJson fields).length = fields.length := by
  rw [fieldsToJson_eq_map, List.length_map]

mutual

/-- A value of a type survives just when it is finite. -/
theorem survives_iff (type : ColumnType) {v : Value} (h : v.HasType type) :
    ofJson type v.toJson = .ok v ↔ v.IsFinite := by
  -- along the type, together with the columns of records
  cases type with
  | primitive p =>
    cases h with
    | null => exact iff_of_true (ofJson_null _) trivial
    | primitive hv => exact primitive_survives_iff hv
  | map value =>
    cases h with
    | null => exact iff_of_true (ofJson_null _) trivial
    | map hentries => exact entries_survive_iff (fun hv => survives_iff value hv) hentries
  | record columns =>
    cases h with
    | null => exact iff_of_true (ofJson_null _) trivial
    | @record _ fields hfields =>
      show ofJson (.record columns) (.array (fieldsToJson fields)) = _ ↔ FieldsFinite fields
      rw [ofJson_record_array, if_pos ((length_fieldsToJson fields).trans hfields.length_eq.symm),
        ← fields_survive_iff columns hfields, Results.map_eq_ok_iff]
      simp only [record.injEq, exists_eq_right]

/-- Fields of the types of their columns survive just when they are finite. -/
theorem fields_survive_iff (columns : List Column) {fields : List Value}
    (h : List.Forall₂ (fun c v => HasType c.type v) columns fields) :
    fieldsOfJson columns (fieldsToJson fields) = .ok fields ↔ FieldsFinite fields := by
  cases columns with
  | nil =>
    cases h
    exact iff_of_true rfl trivial
  | cons c columns =>
    obtain ⟨name, type⟩ := c
    cases h with
    | @cons _ v _ fields hv hrest =>
      rw [fieldsToJson, fieldsOfJson_cons_eq_ok_iff, survives_iff type hv,
        fields_survive_iff columns hrest]
      rfl

end

end Value

/-- Holds of rows in which all floating-point values are finite. -/
def Record.IsFinite (r : Record) : Prop := Value.FieldsFinite r

/-- What is read back from its own JSON, as it was to the last bit: the values of the type in which
all floating-point values are finite, and the rows that have such a value for each column. -/
theorem ofJson_toJson_iff :
    (∀ (type : ColumnType) (v : Value),
        Value.ofJson type v.toJson = .ok v ↔ v.HasType type ∧ v.IsFinite)
      ∧ ∀ (schema : Schema) (row : Record),
        Record.ofJson schema row.toJson = .ok row
          ↔ row.HasTypes schema.columns ∧ row.IsFinite := by
  constructor
  · intro type v
    constructor
    · intro h
      have htype := Value.hasType_of_ofJson type h
      exact ⟨htype, (Value.survives_iff type htype).1 h⟩
    · rintro ⟨htype, hfinite⟩
      exact (Value.survives_iff type htype).2 hfinite
  · intro schema row
    -- a row of the right types has an item for each column, so it is decoded at all
    have hread : row.HasTypes schema.columns →
        (Record.ofJson schema row.toJson = .ok row ↔ row.IsFinite) := by
      intro htypes
      have hwidth := (Value.length_fieldsToJson row).trans htypes.length_eq.symm
      rw [Record.toJson, Record.ofJson_array hwidth]
      exact Value.fields_survive_iff schema.columns htypes
    constructor
    · intro h
      have htypes := Record.hasTypes_of_ofJson h
      exact ⟨htypes, (hread htypes).1 h⟩
    · rintro ⟨htypes, hfinite⟩
      exact (hread htypes).2 hfinite

end TableScan
