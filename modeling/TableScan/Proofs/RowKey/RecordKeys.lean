import TableScan.Proofs.RowKey.Keyable

/-!
# Row keys: records and tuples

The key of a record is made of the fields that stand at the positions of the sort columns, wherever
these are among its columns, and the key of a tuple is made of the values as they come. Both encode
the same columns in the same order, so taking the fields out first makes no difference
(`SortOrder.valuesIn`), and that also holds of values that cannot be encoded.

Main statements: the key of a record is the key of the tuple of its fields
(`keyOfRecord_eq_keyOfTuple`), and a record that is too short for one of the sort columns has none
(`exists_keyOfRecord_eq_error`).
-/

namespace TableScan

namespace SortOrder

/-- The fields of a record at the positions that the sort columns have in a layout, the most
significant first. -/
def valuesIn (order : SortOrder) (layout : Schema) (record : Record) : List Value :=
  order.columns.filterMap fun c => (layout.indexOf? c.name).bind fun i => record[i]?

/-- A record is long enough to have a field for each sort column of a layout. -/
def Reaches (order : SortOrder) (layout : Schema) (record : Record) : Prop :=
  ∀ c ∈ order.columns, ∀ i, layout.indexOf? c.name = some i → i < record.length

end SortOrder

namespace KeyLayout

variable {layout : Schema} {columns : List Column} {record : Record}

/-- One field of the key of a record. -/
def fieldOf (record : Record) (part : KeyField) : LoadResult (List UInt8) :=
  match record[part.position]? with
  | some v => part.encode v
  | none => .error (.configuration (.recordTooShort record.length part.name part.position))

/-- One field of the key of a tuple. -/
def encodePair (x : KeyField × Value) : LoadResult (List UInt8) := x.1.encode x.2

/-- The key of a record field by field. -/
theorem keyOfRecord_eq (g : KeyLayout) (record : Record) :
    g.keyOfRecord record
      = (g.parts.mapM (fieldOf record)).map fun fields => RowKey.mk fields.flatten := by
  show (g.parts.mapM (fieldOf record) >>= fun fields => pure (RowKey.mk fields.flatten)) = _
  cases g.parts.mapM (fieldOf record) <;> rfl

/-- The key of a tuple of the right length, field by field. -/
theorem keyOfTuple_eq {g : KeyLayout} {values : List Value}
    (h : values.length = g.parts.length) :
    g.keyOfTuple values
      = ((g.parts.zip values).mapM encodePair).map fun fields => RowKey.mk fields.flatten := by
  rw [keyOfTuple, if_pos h]
  show ((g.parts.zip values).mapM encodePair >>= fun fields => pure (RowKey.mk fields.flatten)) = _
  cases (g.parts.zip values).mapM encodePair <;> rfl

/-! ## Records that are long enough -/

/-- Two parts for one column encode the same way, wherever they stand. -/
theorem encode_congr {layout' : Schema} {c : Column} {part part' : KeyField}
    (h : KeyField.ofColumn layout c = .ok part) (h' : KeyField.ofColumn layout' c = .ok part')
    (v : Value) : part.encode v = part'.encode v := by
  obtain ⟨p, i, htype, -, -, rfl⟩ := ofColumn_eq_ok_iff.1 h
  obtain ⟨p', i', htype', -, -, rfl⟩ := ofColumn_eq_ok_iff.1 h'
  obtain rfl := ColumnType.primitive.inj (htype.symm.trans htype')
  rfl

/-- The fields of a record are encoded as those of the tuple that is taken out of it. -/
theorem mapM_fieldOf {layout' : Schema} {parts parts' : List KeyField}
    (h : List.Forall₂ (fun c part => KeyField.ofColumn layout c = .ok part) columns parts)
    (h' : List.Forall₂ (fun c part => KeyField.ofColumn layout' c = .ok part) columns parts')
    (hreaches : SortOrder.Reaches ⟨⟨columns⟩⟩ layout record) :
    (SortOrder.valuesIn ⟨⟨columns⟩⟩ layout record).length = parts'.length
      ∧ parts.mapM (fieldOf record)
        = (parts'.zip (SortOrder.valuesIn ⟨⟨columns⟩⟩ layout record)).mapM encodePair := by
  induction h generalizing parts' with
  | nil =>
    cases h'
    exact ⟨rfl, rfl⟩
  | @cons c part columns parts hpart _ ih =>
    cases h' with
    | @cons _ part' _ parts' hpart' hrest' =>
      obtain ⟨hlength, hfields⟩ := ih hrest' fun d hd => hreaches d (List.mem_cons_of_mem c hd)
      obtain ⟨p, i, -, -, hindex, rfl⟩ := ofColumn_eq_ok_iff.1 hpart
      have hi : i < record.length := hreaches c List.mem_cons_self i hindex
      -- the record reaches this column, so its field is the next value of the tuple
      have hvalues : SortOrder.valuesIn ⟨⟨c :: columns⟩⟩ layout record
          = record[i] :: SortOrder.valuesIn ⟨⟨columns⟩⟩ layout record := by
        refine List.filterMap_cons_some ?_
        rw [hindex, Option.bind_some, List.getElem?_eq_getElem hi]
      -- and it is encoded by the type alone, which both parts share
      have hfield : fieldOf record ⟨c.name, p, i⟩ = encodePair (part', record[i]) := by
        rw [fieldOf, List.getElem?_eq_getElem hi]
        exact encode_congr hpart hpart' record[i]
      rw [hvalues]
      refine ⟨congrArg (· + 1) hlength, ?_⟩
      rw [List.mapM_cons, List.zip_cons_cons, List.mapM_cons, hfield, hfields]

/-- The key of a record that is long enough is the key of the tuple of its fields. -/
theorem keyOfRecord_eq_keyOfTuple {order : SortOrder} {g tuples : KeyLayout}
    (hg : ofOrder order layout = .ok g) (htuples : forTuples order = .ok tuples)
    (hreaches : order.Reaches layout record) :
    g.keyOfRecord record = tuples.keyOfTuple (order.valuesIn layout record) := by
  obtain ⟨own, -, htuples⟩ := Results.bind_eq_ok_iff.1 htuples
  obtain ⟨parts, hparts, rfl⟩ := Results.map_eq_ok_iff.1 hg
  obtain ⟨parts', hparts', rfl⟩ := Results.map_eq_ok_iff.1 htuples
  obtain ⟨hlength, hfields⟩ := mapM_fieldOf (Results.mapM_eq_ok_iff.1 hparts)
    (Results.mapM_eq_ok_iff.1 hparts') hreaches
  rw [keyOfRecord_eq]
  exact (congrArg _ hfields).trans (keyOfTuple_eq hlength).symm

/-! ## Records that are too short -/

/-- A field is refused as a fault of the configuration. -/
theorem fieldOf_eq_error {part : KeyField} {e : LoadError} (h : fieldOf record part = .error e) :
    ∃ fault, e = .configuration fault := by
  unfold fieldOf at h
  split at h
  · unfold KeyField.encode at h
    split at h
    · cases h
    · exact ⟨_, (Except.error.inj h).symm⟩
  · exact ⟨_, (Except.error.inj h).symm⟩

/-- A field that is encoded stands in the record. -/
theorem lt_length_of_fieldOf {part : KeyField} {bytes : List UInt8}
    (h : fieldOf record part = .ok bytes) : part.position < record.length := by
  unfold fieldOf at h
  split at h
  · next v hv => exact (List.getElem?_eq_some_iff.1 hv).1
  · cases h

/-- A record that has a key reaches all sort columns. -/
theorem reaches_of_keyOfRecord {order : SortOrder} {g : KeyLayout} {key : RowKey}
    (hg : ofOrder order layout = .ok g) (h : g.keyOfRecord record = .ok key) :
    order.Reaches layout record := by
  intro c hc i hindex
  obtain ⟨parts, hparts, rfl⟩ := Results.map_eq_ok_iff.1 hg
  obtain ⟨part, hpart, hcolumn⟩ :=
    Results.exists_mem_of_forall₂ (Results.mapM_eq_ok_iff.1 hparts).flip hc
  rw [keyOfRecord_eq] at h
  obtain ⟨fields, hfields, -⟩ := Results.map_eq_ok_iff.1 h
  -- the part of the column was encoded, so there was a field to encode
  obtain ⟨bytes, -, hfield⟩ :=
    Results.exists_mem_of_forall₂ (Results.mapM_eq_ok_iff.1 hfields).flip hpart
  obtain ⟨p, j, -, -, hposition, rfl⟩ := ofColumn_eq_ok_iff.1 hcolumn
  obtain rfl := Option.some.inj (hindex.symm.trans hposition)
  exact lt_length_of_fieldOf hfield

/-- A record that is too short for a sort column has no key. -/
theorem exists_keyOfRecord_eq_error {order : SortOrder} {g : KeyLayout}
    (hg : ofOrder order layout = .ok g) (hshort : ¬ order.Reaches layout record) :
    ∃ fault, g.keyOfRecord record = .error (.configuration fault) := by
  -- a key would mean that the record reaches all columns
  cases hkey : g.keyOfRecord record with
  | ok key => exact absurd (reaches_of_keyOfRecord hg hkey) hshort
  | error e =>
    rw [keyOfRecord_eq] at hkey
    obtain ⟨part, -, hfield⟩ :=
      Results.exists_mem_of_mapM_eq_error (Results.map_eq_error_iff.1 hkey)
    obtain ⟨fault, rfl⟩ := fieldOf_eq_error hfield
    exact ⟨fault, rfl⟩

end KeyLayout

end TableScan
