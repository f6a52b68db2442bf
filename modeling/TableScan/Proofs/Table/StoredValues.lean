import TableScan.Proofs.Json.Values
import TableScan.Proofs.Table.Cursors

/-!
# Stored values

Rows are stored as JSON, and read back by the types of their columns. A row is stored in the form in
which it was decoded once, so what matters is that decoding gives the same value a second time.

Main statements: a value that was decoded by a type without floating-point numbers is written as
exact JSON, which is decoded to the same value (`Value.ofJson_toJson`), and so is a whole row
(`Record.ofJson_toJson`). What the frames of rows spell are the rows that these are read as
(`spellsRows_flatMap`).
-/

namespace TableScan

namespace Keyed

variable {α β : Type}

/-- Entries are sorted just when their keys ascend. -/
theorem sorted_iff {entries : List (String × α)} :
    Sorted entries ↔ (entries.map Prod.fst).Pairwise (· < ·) :=
  List.pairwise_map.symm

/-- Entries that are related under the same keys have the same keys. -/
theorem fst_eq_of_forall₂ {R : String × α → String × β → Prop} {l : List (String × α)}
    {r : List (String × β)} (h : List.Forall₂ (fun a b => a.1 = b.1 ∧ R a b) l r) :
    l.map Prod.fst = r.map Prod.fst := by
  rw [← List.forall₂_eq_eq_eq, List.forall₂_map_left_iff, List.forall₂_map_right_iff]
  exact h.imp fun _ _ hab => hab.1

end Keyed

/-! ## Key order -/

namespace Json

mutual

/-- Holds of values in which the members of all objects stand in key order. -/
def KeysSorted : Json → Prop
  | .array items => ItemsKeysSorted items
  | .object members => Keyed.Sorted members ∧ MembersKeysSorted members
  | _ => True

/-- The same of items. -/
def ItemsKeysSorted : List Json → Prop
  | [] => True
  | j :: rest => KeysSorted j ∧ ItemsKeysSorted rest

/-- The same of the values of members. -/
def MembersKeysSorted : List (String × Json) → Prop
  | [] => True
  | (_, j) :: rest => KeysSorted j ∧ MembersKeysSorted rest

end

end Json

namespace Value

mutual

/-- Holds of values in which the entries of all maps stand in key order. -/
def KeysSorted : Value → Prop
  | .map entries => Keyed.Sorted entries ∧ EntriesKeysSorted entries
  | .record fields => FieldsKeysSorted fields
  | _ => True

/-- The same of the values of entries. -/
def EntriesKeysSorted : List (String × Value) → Prop
  | [] => True
  | (_, v) :: rest => KeysSorted v ∧ EntriesKeysSorted rest

/-- The same of fields. -/
def FieldsKeysSorted : List Value → Prop
  | [] => True
  | v :: rest => KeysSorted v ∧ FieldsKeysSorted rest

end

/-- Entries keep their keys as JSON. -/
theorem keys_entriesToJson (entries : List (String × Value)) :
    (entriesToJson entries).map Prod.fst = entries.map Prod.fst := by
  induction entries with
  | nil => rfl
  | cons e rest ih =>
    obtain ⟨key, v⟩ := e
    show key :: _ = key :: _
    rw [ih]

/-- The fields of a record are written one by one. -/
theorem fieldsToJson_eq_map (row : Record) : fieldsToJson row = row.map toJson := by
  induction row with
  | nil => rfl
  | cons v row ih => rw [fieldsToJson, ih, List.map_cons]

/-- A double has no members, whether it is written as a number or as null. -/
theorem keysSorted_ofDouble (bits : UInt64) : (Json.ofDouble bits).KeysSorted := by
  unfold Json.ofDouble
  split
  · trivial
  · trivial

mutual

/-- A value whose maps are in key order is written as JSON in key order. Along the value, together
with entries and fields. -/
theorem keysSorted_toJson (v : Value) (h : v.KeysSorted) : v.toJson.KeysSorted := by
  cases v with
  | null => trivial
  | bool b => trivial
  | int n => trivial
  | long n => trivial
  | float bits => exact keysSorted_ofDouble _
  | double bits => exact keysSorted_ofDouble _
  | string s => trivial
  | bytes bs =>
    show Json.ItemsKeysSorted (bs.map _)
    induction bs with
    | nil => trivial
    | cons b bs ih => exact ⟨trivial, ih trivial⟩
  | map entries =>
    obtain ⟨hsorted, hentries⟩ := h
    refine ⟨?_, keysSorted_entriesToJson entries hentries⟩
    -- the order is one of the keys, which writing does not touch
    rw [Keyed.sorted_iff, keys_entriesToJson, ← Keyed.sorted_iff]
    exact hsorted
  | record fields => exact keysSorted_fieldsToJson fields h

/-- So are entries. -/
theorem keysSorted_entriesToJson (entries : List (String × Value)) (h : EntriesKeysSorted entries) :
    Json.MembersKeysSorted (entriesToJson entries) := by
  cases entries with
  | nil => trivial
  | cons e rest =>
    obtain ⟨key, v⟩ := e
    exact ⟨keysSorted_toJson v h.1, keysSorted_entriesToJson rest h.2⟩

/-- So are fields. -/
theorem keysSorted_fieldsToJson (fields : List Value) (h : FieldsKeysSorted fields) :
    Json.ItemsKeysSorted (fieldsToJson fields) := by
  cases fields with
  | nil => trivial
  | cons v rest => exact ⟨keysSorted_toJson v h.1, keysSorted_fieldsToJson rest h.2⟩

end

/-! ## What decoding by a type says -/

/-- Null is a value of every type. -/
theorem ofJson_null (type : ColumnType) : ofJson type .null = .ok .null := by
  cases type <;> rw [ofJson]

/-- What a primitive type makes of JSON other than null is its value. -/
theorem ofJson_primitive_eq_ok {p : Primitive} {j : Json} {v : Value}
    (h : primitiveOfJson? p j = some v) : ofJson (.primitive p) j = .ok v := by
  by_cases hj : j = .null
  · rw [hj] at h
    cases p <;> cases h
  · rw [ofJson]
    · rw [h]
    · exact hj

/-- An object is decoded as a map, member by member. -/
theorem ofJson_map_object (type : ColumnType) (members : List (String × Json)) :
    ofJson (.map type) (.object members) =
      (members.mapM fun m => (ofJson type m.2).map (m.1, ·)).map .map := by
  rw [ofJson]

/-- An array is decoded as a record, if it has an item for each column. -/
theorem ofJson_record_array (columns : List Column) (items : List Json) :
    ofJson (.record columns) (.array items) =
      if items.length = columns.length then (fieldsOfJson columns items).map .record
      else .error (wrongWidth items columns) := by
  rw [ofJson]

/-- What is decoded as a map is null or an object, and the entries of the map are its members,
decoded one by one. -/
theorem ofJson_map_eq_ok {type : ColumnType} {j : Json} {v : Value}
    (h : ofJson (.map type) j = .ok v) :
    (j = .null ∧ v = .null) ∨ ∃ members entries, j = .object members ∧ v = .map entries
      ∧ List.Forall₂ (fun m e => m.1 = e.1 ∧ ofJson type m.2 = .ok e.2) members entries := by
  cases j with
  | null =>
    rw [ofJson_null] at h
    exact .inl ⟨rfl, (Except.ok.inj h).symm⟩
  | object members =>
    rw [ofJson_map_object] at h
    obtain ⟨entries, hentries, rfl⟩ := Results.map_eq_ok_iff.1 h
    refine .inr ⟨members, entries, rfl, rfl, ?_⟩
    apply (Results.mapM_eq_ok_iff.1 hentries).imp
    intro m e he
    obtain ⟨v, hv, rfl⟩ := Results.map_eq_ok_iff.1 he
    exact ⟨rfl, hv⟩
  | bool b => cases h
  | number n => cases h
  | string s => cases h
  | array items => cases h

/-- What is decoded as a record is null or an array with an item for each column. -/
theorem ofJson_record_eq_ok {columns : List Column} {j : Json} {v : Value}
    (h : ofJson (.record columns) j = .ok v) :
    (j = .null ∧ v = .null) ∨ ∃ items fields, j = .array items ∧ v = .record fields
      ∧ items.length = columns.length ∧ fieldsOfJson columns items = .ok fields := by
  cases j with
  | null =>
    rw [ofJson_null] at h
    exact .inl ⟨rfl, (Except.ok.inj h).symm⟩
  | array items =>
    rw [ofJson_record_array] at h
    split at h
    · next hlength =>
      obtain ⟨fields, hfields, rfl⟩ := Results.map_eq_ok_iff.1 h
      exact .inr ⟨items, fields, rfl, rfl, hlength, hfields⟩
    · cases h
  | bool b => cases h
  | number n => cases h
  | string s => cases h
  | object members => cases h

end Value

/-! ## Types without floating-point numbers -/

namespace ColumnType

mutual

/-- Holds of types without floating-point numbers, at any depth. -/
def IsFloatFree : ColumnType → Prop
  | .primitive p => p ≠ .float ∧ p ≠ .double
  | .map value => IsFloatFree value
  | .record columns => ColumnsFloatFree columns

/-- The same of the types of columns. -/
def ColumnsFloatFree : List (ColumnOf ColumnType) → Prop
  | [] => True
  | ⟨_, type⟩ :: rest => IsFloatFree type ∧ ColumnsFloatFree rest

end

end ColumnType

namespace Value

open ColumnType (IsFloatFree ColumnsFloatFree)

/-- The bytes of a value are read back from their numbers. -/
theorem mapM_byteOfJson? (bs : List UInt8) :
    (bs.map fun b => Json.ofNat b.toNat).mapM byteOfJson? = some bs := by
  induction bs with
  | nil => rfl
  | cons b bs ih =>
    have hbyte : byteOfJson? (Json.ofNat b.toNat) = some b := by
      show (if b.toNat < 256 then some (UInt8.ofNat b.toNat) else none) = some b
      rw [if_pos b.toNat_lt, UInt8.ofNat_toNat]
    rw [List.map_cons, List.mapM_cons, hbyte, ih]
    rfl

/-- The numbers of bytes are exact. -/
theorem itemsExact_bytes (bs : List UInt8) :
    Json.ItemsExact (bs.map fun b => Json.ofNat b.toNat) := by
  induction bs with
  | nil => trivial
  | cons b bs ih =>
    have hlt : b.toNat < 256 := b.toNat_lt
    refine ⟨⟨?_, ?_⟩, ih⟩
    · omega
    · omega

/-- The values of a type without fractions are written exactly, and read back as they are. -/
theorem ofJson_toJson_of_isOf {p : Primitive} {v : Value} (hv : v.IsOf p)
    (hfree : p ≠ .float ∧ p ≠ .double) :
    ofJson (.primitive p) v.toJson = .ok v ∧ v.toJson.IsExact := by
  -- integers fit a word of their width, and are read as what they are; of the others nothing is
  -- lost
  cases hv with
  | int n =>
    have hmin := n.le_toInt
    have hmax := n.toInt_lt
    have hread : primitiveOfJson? .int (.ofInt n.toInt) = some (.int n) := by
      have hword : Json.asInt64? (.ofInt n.toInt) = some n.toInt := by
        show (if _ then some n.toInt else none) = _
        rw [if_pos]
        rw [Bool.and_eq_true, decide_eq_true_eq, decide_eq_true_eq]
        omega
      rw [primitiveOfJson?, hword, Option.bind_some, if_pos, Int32.ofInt_toInt]
      rw [Bool.and_eq_true, decide_eq_true_eq, decide_eq_true_eq]
      omega
    refine ⟨?_, ?_, ?_⟩
    · exact ofJson_primitive_eq_ok hread
    · omega
    · omega
  | long n =>
    have hmin := n.le_toInt
    have hmax := n.toInt_lt
    have hread : primitiveOfJson? .long (.ofInt n.toInt) = some (.long n) := by
      have hword : Json.asInt64? (.ofInt n.toInt) = some n.toInt := by
        show (if _ then some n.toInt else none) = _
        rw [if_pos]
        rw [Bool.and_eq_true, decide_eq_true_eq, decide_eq_true_eq]
        omega
      rw [primitiveOfJson?, hword, Option.map_some, Int64.ofInt_toInt]
    refine ⟨?_, ?_, ?_⟩
    · exact ofJson_primitive_eq_ok hread
    · omega
    · omega
  | float bits => exact absurd rfl hfree.1
  | double bits => exact absurd rfl hfree.2
  | string s => exact ⟨rfl, trivial⟩
  | bytes bs =>
    have hread : primitiveOfJson? .bytes (.array (bs.map fun b => .ofNat b.toNat))
        = some (.bytes bs) := by
      rw [primitiveOfJson?, mapM_byteOfJson?]
      rfl
    exact ⟨ofJson_primitive_eq_ok hread, itemsExact_bytes bs⟩
  | bool b => exact ⟨rfl, trivial⟩

/-- Where the values of entries read back, the entries do. -/
theorem entries_read_back {type : ColumnType} {members : List (String × Json)}
    {entries : List (String × Value)}
    (hvalue : ∀ {j v}, j.KeysSorted → ofJson type j = .ok v →
      ofJson type v.toJson = .ok v ∧ v.toJson.IsExact)
    (hsorted : Json.MembersKeysSorted members)
    (h : List.Forall₂ (fun m e => m.1 = e.1 ∧ ofJson type m.2 = .ok e.2) members entries) :
    List.Forall₂ (fun m e => (ofJson type m.2).map (m.1, ·) = .ok e) (entriesToJson entries) entries
      ∧ Json.MembersExact (entriesToJson entries) := by
  -- on the entries, each with the member that it was decoded from
  induction h with
  | nil => exact ⟨.nil, trivial⟩
  | @cons m e members entries he _ ih =>
    obtain ⟨key, j⟩ := m
    obtain ⟨key', v⟩ := e
    obtain ⟨hread, hexact⟩ := hvalue hsorted.1 he.2
    obtain ⟨hrest, hrestExact⟩ := ih hsorted.2
    exact ⟨.cons (Results.map_eq_ok_iff.2 ⟨v, hread, rfl⟩) hrest, hexact, hrestExact⟩

mutual

/-- What a type without floating-point numbers decodes is decoded again from its own JSON. -/
theorem ofJson_toJson (type : ColumnType) (hfree : type.IsFloatFree) {j : Json} {v : Value}
    (hj : j.KeysSorted) (h : ofJson type j = .ok v) :
    ofJson type v.toJson = .ok v ∧ v.toJson.IsExact := by
  -- along the type; what was decoded by it has the same form
  cases type with
  | primitive p =>
    rcases isOf_of_ofJson h with rfl | hv
    · exact ⟨ofJson_null _, trivial⟩
    · exact ofJson_toJson_of_isOf hv hfree
  | map value =>
    rcases ofJson_map_eq_ok h with ⟨-, rfl⟩ | ⟨members, entries, rfl, rfl, hentries⟩
    · exact ⟨ofJson_null _, trivial⟩
    · obtain ⟨hsorted, hmembers⟩ := hj
      obtain ⟨hread, hexact⟩ := entries_read_back
        (fun hj h => ofJson_toJson value hfree hj h) hmembers hentries
      refine ⟨?_, ?_, hexact⟩
      · show ofJson (.map value) (.object (entriesToJson entries)) = _
        rw [ofJson_map_object, Results.mapM_eq_ok_iff.2 hread]
        rfl
      · rw [Keyed.sorted_iff, keys_entriesToJson, ← Keyed.fst_eq_of_forall₂ hentries,
          ← Keyed.sorted_iff]
        exact hsorted
  | record columns =>
    rcases ofJson_record_eq_ok h with ⟨-, rfl⟩ | ⟨items, fields, rfl, rfl, hlength, hfields⟩
    · exact ⟨ofJson_null _, trivial⟩
    · obtain ⟨hread, hexact, hwidth⟩ :=
        fieldsOfJson_fieldsToJson columns hfree hj hlength hfields
      refine ⟨?_, hexact⟩
      show ofJson (.record columns) (.array (fieldsToJson fields)) = _
      rw [ofJson_record_array, if_pos hwidth, hread]
      rfl

/-- Fields are decoded again from their own JSON, which has an item for each column. -/
theorem fieldsOfJson_fieldsToJson (columns : List Column) (hfree : ColumnsFloatFree columns)
    {items : List Json} {fields : List Value} (hitems : Json.ItemsKeysSorted items)
    (hlength : items.length = columns.length) (h : fieldsOfJson columns items = .ok fields) :
    fieldsOfJson columns (fieldsToJson fields) = .ok fields
      ∧ Json.ItemsExact (fieldsToJson fields)
      ∧ (fieldsToJson fields).length = columns.length := by
  cases columns with
  | nil =>
    unfold fieldsOfJson at h
    obtain rfl := Except.ok.inj h
    exact ⟨rfl, trivial, rfl⟩
  | cons c columns =>
    obtain ⟨name, type⟩ := c
    obtain ⟨j, items, rfl⟩ := List.exists_cons_of_length_eq_add_one hlength
    unfold fieldsOfJson at h
    split at h
    · cases h
    · next v hv =>
      obtain ⟨rest, hrest, rfl⟩ := Results.map_eq_ok_iff.1 h
      obtain ⟨hread, hexact⟩ := ofJson_toJson type hfree.1 hitems.1 hv
      obtain ⟨hreads, hexacts, hwidth⟩ :=
        fieldsOfJson_fieldsToJson columns hfree.2 hitems.2 (Nat.succ.inj hlength) hrest
      refine ⟨?_, ⟨hexact, hexacts⟩, congrArg Nat.succ hwidth⟩
      show fieldsOfJson (⟨name, type⟩ :: columns) (v.toJson :: fieldsToJson rest) = _
      unfold fieldsOfJson
      rw [hread, hreads]
      rfl

end

end Value

/-! ## Rows -/

/-- Holds of schemas without floating-point numbers, at any depth. -/
def Schema.IsFloatFree (s : Schema) : Prop := ColumnType.ColumnsFloatFree s.columns

namespace Record

/-- Holds of rows in which the entries of all maps stand in key order. -/
def KeysSorted (r : Record) : Prop := Value.FieldsKeysSorted r

/-- An array of the width of a schema is decoded field by field. -/
theorem ofJson_array {schema : Schema} {items : List Json}
    (h : items.length = schema.columns.length) :
    ofJson schema (.array items) = Value.fieldsOfJson schema.columns items := by
  show (if _ then _ else _) = _
  rw [if_pos h]

/-- A row in the form in which it is stored is written exactly, and read back as it is. -/
theorem ofJson_toJson {schema : Schema} {row stored : Record} (hfree : schema.IsFloatFree)
    (hrow : row.KeysSorted) (h : ofJson schema row.toJson = .ok stored) :
    ofJson schema stored.toJson = .ok stored ∧ stored.toJson.IsExact := by
  have hsorted := Value.keysSorted_fieldsToJson row hrow
  unfold toJson ofJson at h
  simp only at h
  split at h
  · next hlength =>
    obtain ⟨hread, hexact, hwidth⟩ :=
      Value.fieldsOfJson_fieldsToJson schema.columns hfree hsorted hlength h
    exact ⟨(ofJson_array hwidth).trans hread, hexact⟩
  · cases h

/-- A stored row and what it is read as. -/
def ReadAs (schema : Schema) (stored again : Record) : Prop :=
  ∃ j, Json.parse? stored.toJson.render = some j ∧ ofJson schema j = .ok again

end Record

/-- The frame of a row is its JSON text in bytes and the numbers around it. -/
theorem Table.length_ofRow (row : Record) :
    (Frame.ofRow row).length = Frame.overhead + row.toJson.render.utf8ByteSize := by
  rw [Frame.ofRow, Frame.length_around, Text.length_utf8Bytes]

/-- The frames of rows spell what these are read as. -/
theorem spellsRows_flatMap {schema : Schema} {stored rows : List Record}
    (hlength : ∀ row ∈ stored, (Table.Frame.ofRow row).length < 2 ^ 32)
    (hread : List.Forall₂ (Record.ReadAs schema) stored rows) :
    SpellsRows schema (stored.flatMap Table.Frame.ofRow) rows := by
  -- on the rows: each is spelled by the frame in front
  induction hread with
  | nil => exact .nil schema
  | cons hrow _ ih =>
    obtain ⟨hfirst, hlengths⟩ := List.forall_mem_cons.1 hlength
    obtain ⟨j, hparse, hdecoded⟩ := hrow
    rw [Table.length_ofRow] at hfirst
    exact .cons_text hfirst hparse hdecoded (ih hlengths)

end TableScan
