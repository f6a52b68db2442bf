import TableScan.Proofs.Json.Readable
import TableScan.Proofs.Table.Scans
import TableScan.Proofs.Table.TypedRows
import TableScan.Proofs.Table.Writing

/-!
# Rows that are taken and rows that are read

A writer takes a row if its JSON decodes by the schema, and stores what it was decoded to. That is
written as JSON once more, and a reader decodes this by the schema again: it gets JSON of the same
form, in which floating-point numbers may have changed, and the form alone decides whether a value
of a type can be decoded (`Value.exists_ofJson_of_toValue?`). So the one thing that the reader
refuses in the payload is its depth (`Record.isSome_parse?_iff`), and the frame reads back if its
length fits the four bytes in front (`Table.Frame.read_ofRow_eq_ok_iff`). The writer checks neither:
it takes values of any depth and any size (`TableWriter.read_append_iff`).
-/

namespace TableScan

namespace Value

open Json.Syntax (toValue? toValues? toMembers?)

/-! ## Written values -/

theorem integersFit_ofDouble (bits : UInt64) : (Json.ofDouble bits).IntegersFit := by
  unfold Json.ofDouble
  split
  · trivial
  · trivial

mutual

/-- The integers in a value are no wider than a word. -/
theorem integersFit_toJson (v : Value) : v.toJson.IntegersFit := by
  cases v with
  | null => trivial
  | bool b => trivial
  | int n =>
    have hmin := n.le_toInt
    have hmax := n.toInt_lt
    exact ⟨by omega, by omega⟩
  | long n =>
    have hmin := n.le_toInt
    have hmax := n.toInt_lt
    exact ⟨by omega, by omega⟩
  | float bits => exact integersFit_ofDouble _
  | double bits => exact integersFit_ofDouble _
  | string s => trivial
  | bytes bs =>
    show Json.ItemsIntegersFit (bs.map _)
    induction bs with
    | nil => trivial
    | cons b bs ih =>
      have hlt : b.toNat < 256 := b.toNat_lt
      exact ⟨⟨by omega, by omega⟩, ih⟩
  | map entries => exact integersFit_entriesToJson entries
  | record fields => exact integersFit_fieldsToJson fields

theorem integersFit_entriesToJson (entries : List (String × Value)) :
    Json.MembersIntegersFit (entriesToJson entries) := by
  cases entries with
  | nil => trivial
  | cons e rest =>
    obtain ⟨key, v⟩ := e
    exact ⟨integersFit_toJson v, integersFit_entriesToJson rest⟩

theorem integersFit_fieldsToJson (fields : List Value) :
    Json.ItemsIntegersFit (fieldsToJson fields) := by
  cases fields with
  | nil => trivial
  | cons v rest => exact ⟨integersFit_toJson v, integersFit_fieldsToJson rest⟩

end

/-! ## Decoding what was written -/

/-- What is read of a floating-point number is a number, or null. -/
theorem exists_of_toValue?_ofDouble {bits : UInt64} {room : Nat} {j : Json}
    (h : toValue? room (Json.ofDouble bits).tree = some j) :
    j = .null ∨ ∃ n, j = .number n := by
  unfold Json.ofDouble at h
  split at h
  · rw [Json.tree] at h
    cases hs : (Json.Number.double bits).spelling? with
    | none =>
      rw [hs] at h
      exact .inl (Option.some.inj h).symm
    | some s =>
      rw [hs] at h
      obtain ⟨n, -, rfl⟩ := Option.map_eq_some_iff.1 h
      exact .inr ⟨n, rfl⟩
  · exact .inl (Option.some.inj h).symm

/-- Every number is decoded as a floating-point value. -/
theorem exists_ofJson_number {p : Primitive} (hp : p = .float ∨ p = .double) (n : Json.Number) :
    ∃ v, ofJson (.primitive p) (.number n) = .ok v := by
  rcases hp with rfl | rfl
  · cases n with
    | int n => exact ⟨_, ofJson_primitive_eq_ok rfl⟩
    | double bits => exact ⟨_, ofJson_primitive_eq_ok rfl⟩
  · cases n with
    | int n => exact ⟨_, ofJson_primitive_eq_ok rfl⟩
    | double bits => exact ⟨_, ofJson_primitive_eq_ok rfl⟩

/-- What is read of a value of a primitive type can be decoded by the type. -/
theorem exists_ofJson_primitive {p : Primitive} {v : Value} (hv : v.IsOf p) {room : Nat}
    (hroom : 0 < room) {j : Json} (h : toValue? room v.toJson.tree = some j) :
    ∃ w, ofJson (.primitive p) j = .ok w := by
  by_cases hfloat : p = .float ∨ p = .double
  -- both widths are written as a double
  · have hdouble : ∃ bits, v.toJson = Json.ofDouble bits := by
      rcases hfloat with rfl | rfl
      · cases hv with
        | float bits => exact ⟨_, rfl⟩
      · cases hv with
        | double bits => exact ⟨_, rfl⟩
    obtain ⟨bits, hbits⟩ := hdouble
    rw [hbits] at h
    rcases exists_of_toValue?_ofDouble h with rfl | ⟨n, rfl⟩
    · exact ⟨.null, ofJson_null _⟩
    · exact exists_ofJson_number hfloat n
  · -- all others are read as they were written
    obtain ⟨hread, hexact⟩ := ofJson_toJson_of_isOf hv (not_or.1 hfloat)
    have hdepth := (Json.isSome_toValue?_tree_iff _ (integersFit_toJson v) hroom).1
      (Option.isSome_of_eq_some h)
    rw [Json.toValue?_tree _ hexact hdepth] at h
    obtain rfl := Option.some.inj h
    exact ⟨v, hread⟩

/-- Members are read one by one, under their keys. -/
theorem forall₂_of_toMembers? {entries : List (String × Value)} {room : Nat}
    {members : List (String × Json)}
    (h : toMembers? room (Json.memberTrees (entriesToJson entries)) = some members) :
    List.Forall₂ (fun e m => e.1 = m.1 ∧ toValue? room e.2.toJson.tree = some m.2)
      entries members := by
  induction entries generalizing members with
  | nil =>
    obtain rfl := Option.some.inj h
    exact .nil
  | cons e rest ih =>
    obtain ⟨key, v⟩ := e
    obtain ⟨j, hj, h⟩ := Option.bind_eq_some_iff.1 h
    obtain ⟨others, hothers, h⟩ := Option.bind_eq_some_iff.1 h
    obtain rfl := Option.some.inj h
    exact .cons ⟨rfl, hj⟩ (ih hothers)

theorem toValue?_null_eq_some {room : Nat} {j : Json}
    (h : toValue? room (Value.toJson .null).tree = some j) : j = .null :=
  (Option.some.inj h).symm

mutual

/-- What is read of a value of a type can be decoded by the type. -/
theorem exists_ofJson_of_toValue? (type : ColumnType) {v : Value} (hv : v.HasType type)
    {room : Nat} (hroom : 0 < room) {j : Json} (h : toValue? room v.toJson.tree = some j) :
    ∃ w, ofJson type j = .ok w := by
  cases type with
  | primitive p =>
    cases hv with
    | null => exact ⟨.null, toValue?_null_eq_some h ▸ ofJson_null _⟩
    | primitive hp => exact exists_ofJson_primitive hp hroom h
  | map value =>
    cases hv with
    | null => exact ⟨.null, toValue?_null_eq_some h ▸ ofJson_null _⟩
    | map hentries =>
      rw [toJson, Json.tree, toValue?] at h
      split at h
      · cases h
      · next hdeep =>
        obtain ⟨members, hmembers, rfl⟩ := Option.map_eq_some_iff.1 h
        have hread := forall₂_of_toMembers? hmembers
        -- each member that is kept was read of an entry, and decodes as the values do
        obtain ⟨decoded, hdecoded⟩ : ∃ decoded, (Keyed.ofList members).mapM
            (fun m => (ofJson value m.2).map (m.1, ·)) = .ok decoded := by
          refine Results.exists_mapM_eq_ok fun m hm => ?_
          obtain ⟨e, he, -, hj⟩ := Results.exists_mem_of_forall₂ hread (Keyed.mem_of_mem_ofList hm)
          obtain ⟨w, hw⟩ := exists_ofJson_of_toValue? value (hentries e he) (by omega) hj
          exact ⟨_, Results.map_eq_ok_iff.2 ⟨w, hw, rfl⟩⟩
        exact ⟨.map decoded, by rw [ofJson_map_object, hdecoded]; rfl⟩
  | record columns =>
    cases hv with
    | null => exact ⟨.null, toValue?_null_eq_some h ▸ ofJson_null _⟩
    | record hfields =>
      rw [toJson, Json.tree, toValue?] at h
      split at h
      · cases h
      · next hdeep =>
        obtain ⟨items, hitems, rfl⟩ := Option.map_eq_some_iff.1 h
        rw [Json.trees_eq_map, fieldsToJson_eq_map, List.map_map] at hitems
        have hread := List.forall₂_map_left_iff.1 (Json.toValues?_eq_some_iff.1 hitems)
        -- one item for each column
        have hwidth : items.length = columns.length :=
          hread.length_eq.symm.trans hfields.length_eq.symm
        obtain ⟨ws, hws⟩ := exists_fieldsOfJson_of_toValue? columns hfields (by omega) hread
        exact ⟨.record ws, by rw [ofJson_record_array, if_pos hwidth, hws]; rfl⟩

/-- What is read of typed fields can be decoded by their columns. -/
theorem exists_fieldsOfJson_of_toValue? (columns : List Column) {fields : List Value}
    (hfields : List.Forall₂ (fun c v => HasType c.type v) columns fields) {room : Nat}
    (hroom : 0 < room) {items : List Json}
    (h : List.Forall₂ (fun v j => toValue? room v.toJson.tree = some j) fields items) :
    ∃ ws, fieldsOfJson columns items = .ok ws := by
  cases columns with
  | nil => exact ⟨[], by unfold fieldsOfJson; rfl⟩
  | cons c columns =>
    obtain ⟨name, type⟩ := c
    cases hfields with
    | cons hv hfields =>
      cases h with
      | cons hj h =>
        obtain ⟨w, hw⟩ := exists_ofJson_of_toValue? type hv hroom hj
        obtain ⟨ws, hws⟩ := exists_fieldsOfJson_of_toValue? columns hfields hroom h
        refine ⟨w :: ws, ?_⟩
        unfold fieldsOfJson
        rw [hw, hws]
        rfl

end

end Value

/-! ## Rows and their frames -/

/-- What is read of a row that is typed by a schema can be decoded by it. -/
theorem Record.exists_ofJson_of_parse? {schema : Schema} {row : Record}
    (hrow : row.HasTypes schema.columns) {j : Json}
    (h : Json.parse? row.toJson.render = some j) : ∃ again, Record.ofJson schema j = .ok again := by
  obtain ⟨items, rfl, hread⟩ := Json.parse?_render_array_iff.1 h
  rw [Value.fieldsToJson_eq_map] at hread
  have hread := List.forall₂_map_left_iff.1 hread
  rw [ofJson_array (hread.length_eq.symm.trans hrow.length_eq.symm)]
  exact Value.exists_fieldsOfJson_of_toValue? schema.columns hrow (by decide) hread

theorem Record.isSome_parse?_iff (row : Record) :
    (Json.parse? row.toJson.render).isSome ↔ row.toJson.depth < Json.depthLimit :=
  Json.isSome_parse?_render_iff (Value.integersFit_fieldsToJson row)

namespace Table.Frame

section Payload

variable {row : Record} (hlength : (ofRow row).length < 2 ^ 32)

include hlength

/-- A frame with a length that fits is read with the payload that its text is read as. -/
theorem read_ofRow {payload : Json} (h : Json.parse? row.toJson.render = some payload) :
    read (ofRow row) = .ok (payload, (ofRow row).length) := by
  rw [Table.length_ofRow] at hlength
  exact read_around_utf8Bytes hlength h

/-- Text that is not read makes the payload of the frame invalid. -/
theorem read_ofRow_eq_error (h : Json.parse? row.toJson.render = none) :
    read (ofRow row) = .error .invalidPayload := by
  rw [Table.length_ofRow, ← Text.length_utf8Bytes] at hlength
  rw [ofRow, read_around hlength, Json.parseBytes?, Text.ofUtf8Bytes?_utf8Bytes, Option.bind_some,
    h]

end Payload

/-- A frame that is read to its end declares its length, in four bytes. -/
theorem length_lt_of_read {frame : List UInt8} {payload : Json}
    (h : read frame = .ok (payload, frame.length)) : frame.length < 2 ^ 32 := by
  obtain ⟨hdeclared, -, -⟩ := length_of_read h
  have hlt := ofLittleEndian_lt (frame.take 4)
  have hfour : 256 ^ (frame.take 4).length ≤ 256 ^ 4 :=
    Nat.pow_le_pow_right (by decide) (List.length_take_le 4 frame)
  exact Nat.lt_of_le_of_lt (Nat.le_of_eq hdeclared) (Nat.lt_of_lt_of_le hlt hfour)

/-- What is read to the end of the frame of a row is what its text is read as. -/
theorem read_ofRow_eq_ok_iff {row : Record} {payload : Json} :
    read (ofRow row) = .ok (payload, (ofRow row).length)
      ↔ Json.parse? row.toJson.render = some payload ∧ (ofRow row).length < 2 ^ 32 := by
  constructor
  · intro hread
    have hlength := length_lt_of_read hread
    -- a text that is not read makes an invalid payload
    cases hparse : Json.parse? row.toJson.render with
    | none => cases (read_ofRow_eq_error hlength hparse).symm.trans hread
    | some j =>
      have hsame := Except.ok.inj ((read_ofRow hlength hparse).symm.trans hread)
      exact ⟨congrArg some (Prod.mk.inj hsame).1, hlength⟩
  · exact fun h => read_ofRow h.2 h.1

end Table.Frame

namespace TableWriter

variable {disk disk₁ : Disk} {dir : String} {schema : Schema} {sortColumns : List String}
  {w : TableWriter} {log log' : List Log.Entry} {before : List Record} {row : Record}
  {s : Disk × TableWriter}

/-- A row is taken in the form in which the schema decodes it, as one frame behind all others. -/
theorem exists_of_append (hsound : disk.IsSound)
    (hcreate : (create dir schema sortColumns).run disk = ⟨.ok w, disk₁, log⟩)
    (happend : (append row).run (appendEach before (disk₁, w)).2 = ⟨.ok (), s, log'⟩) :
    ∃ stored, Record.ofJson schema row.toJson = .ok stored
      ∧ s.2.rowBytes s.1
        = (appendEach before (disk₁, w)).2.2.rowBytes (appendEach before (disk₁, w)).2.1
          ++ Table.Frame.ofRow stored := by
  have hcreated := create_spec hsound hcreate
  have htakes := takes_appendEach (s := (disk₁, w)) hcreated.atEnd before
  generalize (appendEach before (disk₁, w)).2 = now at happend htakes ⊢
  have hschema : now.2.schema = schema := htakes.schema.trans hcreated.schema_eq
  -- the call succeeded, so the row was accepted
  cases haccepted : now.2.accepted row with
  | error e =>
    rw [run_append_of_error haccepted] at happend
    cases (Outcome.mk.inj happend).1
  | ok r =>
    obtain ⟨stored, key⟩ := r
    -- one frame more at the end of the row file
    have hframe := (takes_append htakes.atEnd haccepted).rowBytes
    rw [happend] at hframe
    exact ⟨stored, hschema ▸ (accepted_eq_ok_iff.1 haccepted).1, hframe⟩

/-- A row that a writer takes, whatever it took before, is stored as the schema decodes it, in one
frame behind all others. The frame is read, to its end, with a payload that the schema decodes,
exactly if fewer than `Json.depthLimit` arrays and objects enclose each other in the row and the
length of the frame fits four bytes. -/
theorem read_append_iff (hsound : disk.IsSound)
    (hcreate : (create dir schema sortColumns).run disk = ⟨.ok w, disk₁, log⟩)
    (happend : (append row).run (appendEach before (disk₁, w)).2 = ⟨.ok (), s, log'⟩) :
    ∃ stored frame, Record.ofJson schema row.toJson = .ok stored
      ∧ frame = Table.Frame.ofRow stored
      ∧ s.2.rowBytes s.1
        = (appendEach before (disk₁, w)).2.2.rowBytes (appendEach before (disk₁, w)).2.1 ++ frame
      ∧ ((∃ payload again, Table.Frame.read frame = .ok (payload, frame.length)
          ∧ Record.ofJson schema payload = .ok again)
        ↔ stored.toJson.depth < Json.depthLimit ∧ frame.length < 2 ^ 32) := by
  obtain ⟨stored, hstored, hbytes⟩ := exists_of_append hsound hcreate happend
  refine ⟨stored, _, hstored, rfl, hbytes, ?_⟩
  rw [← stored.isSome_parse?_iff, Option.isSome_iff_exists]
  constructor
  · rintro ⟨payload, again, hread, -⟩
    obtain ⟨hparse, hlength⟩ := Table.Frame.read_ofRow_eq_ok_iff.1 hread
    exact ⟨⟨payload, hparse⟩, hlength⟩
  -- the stored row is typed by the schema, so what is read of it decodes
  · rintro ⟨⟨payload, hparse⟩, hlength⟩
    obtain ⟨again, hagain⟩ :=
      Record.exists_ofJson_of_parse? (Record.hasTypes_of_ofJson hstored) hparse
    exact ⟨payload, again, Table.Frame.read_ofRow hlength hparse, hagain⟩

/-- Numbered times. -/
def timings : Schema := ⟨[⟨"id", .primitive .int⟩, ⟨"seconds", .primitive .double⟩]⟩

/-- The number comes as a wide one; the time is one and a half. -/
def timing : Record := [.long 7, .double 0x3ff8000000000000]

theorem read_append_iff_timing :
    ∃ w disk₁ s frame payload again,
      (create "t" timings []).run Disk.empty = ⟨.ok w, disk₁, []⟩
        ∧ (append timing).run (appendEach [[.int 9, .null]] (disk₁, w)).2 = ⟨.ok (), s, []⟩
        ∧ s.2.rowBytes s.1 = (appendEach [[.int 9, .null]] (disk₁, w)).2.2.rowBytes
          (appendEach [[.int 9, .null]] (disk₁, w)).2.1 ++ frame
        ∧ Table.Frame.read frame = .ok (payload, frame.length)
        ∧ Record.ofJson timings payload = .ok again := by
  let disk₁ : Disk := ⟨.dir [("t", .dir [(".schema", .file 0), ("records.dat", .file 1)])],
    [Text.utf8Bytes timings.text, []]⟩
  let w : TableWriter := ⟨"t", timings, none, none, 1, 0, [], 0⟩
  let before := (appendEach [[.int 9, .null]] (disk₁, w)).2
  have hcreate : (create "t" timings []).run Disk.empty = ⟨.ok w, disk₁, []⟩ := rfl
  have hcreated := create_spec Disk.isSound_empty hcreate
  have htakes := takes_appendEach (s := (disk₁, w)) hcreated.atEnd [[.int 9, .null]]
  have hrow : Record.ofJson timings timing.toJson
      = .ok [.int 7, .double 0x3ff8000000000000] := by
    have hfinite : Json.ofDouble 0x3ff8000000000000 = .number (.double 0x3ff8000000000000) :=
      if_pos (by decide +kernel)
    show Record.ofJson timings (.array [.ofInt 7, Json.ofDouble 0x3ff8000000000000]) = _
    rw [hfinite]
    rfl
  have haccepted : before.2.accepted timing
      = .ok ([.int 7, .double 0x3ff8000000000000], none) := by
    refine accepted_eq_ok_iff.2 ⟨htakes.schema.symm ▸ hrow, ?_⟩
    unfold nextKey
    rw [htakes.keys]
  obtain ⟨s, happend⟩ : ∃ s, (append timing).run before = ⟨.ok (), s, []⟩ :=
    ⟨_, run_append_of_ok haccepted⟩
  obtain ⟨stored, frame, hstored, rfl, hbytes, hiff⟩ :=
    read_append_iff Disk.isSound_empty hcreate happend
  obtain rfl := Except.ok.inj (hstored.symm.trans hrow)
  obtain ⟨payload, again, hread, hagain⟩ := hiff.2 ⟨by decide +kernel, by decide +kernel⟩
  exact ⟨w, disk₁, s, _, payload, again, hcreate, happend, hbytes, hread, hagain⟩

/-! ## Rows that are too deep -/

/-- Records within records, a number innermost. -/
def nestedType : Nat → ColumnType
  | 0 => .primitive .int
  | n + 1 => .record [⟨"a", nestedType n⟩]

def nestedValue : Nat → Value
  | 0 => .int 7
  | n + 1 => .record [nestedValue n]

/-- Nested records decode by their type. -/
theorem ofJson_nestedValue (n : Nat) :
    Value.ofJson (nestedType n) (nestedValue n).toJson = .ok (nestedValue n) := by
  induction n with
  | zero => rfl
  | succ n ih =>
    have hwidth : [(nestedValue n).toJson].length = [(⟨"a", nestedType n⟩ : Column)].length := rfl
    rw [nestedType, nestedValue, Value.toJson, Value.fieldsToJson, Value.fieldsToJson,
      Value.ofJson_record_array, if_pos hwidth, Value.fieldsOfJson, ih]
    rfl

/-- As many arrays enclose the number as there are records. -/
theorem depth_nestedValue (n : Nat) : (nestedValue n).toJson.depth = n := by
  induction n with
  | zero => rfl
  | succ n ih =>
    rw [nestedValue, Value.toJson, Json.depth, Value.fieldsToJson, Json.itemsDepth, ih]
    exact congrArg Nat.succ (Nat.max_eq_left (Nat.zero_le n))

def nestedSchema (n : Nat) : Schema := ⟨[⟨"a", nestedType n⟩]⟩

/-- A new table takes a row of any depth. -/
theorem append_nestedValue (n : Nat) :
    ∃ w disk₁ s, (create "t" (nestedSchema n) []).run Disk.empty = ⟨.ok w, disk₁, []⟩
      ∧ (append [nestedValue n]).run (disk₁, w) = ⟨.ok (), s, []⟩
      ∧ s.2.rowBytes s.1 = Table.Frame.ofRow [nestedValue n] := by
  let disk₁ : Disk := ⟨.dir [("t", .dir [(".schema", .file 0), ("records.dat", .file 1)])],
    [Text.utf8Bytes (nestedSchema n).text, []]⟩
  let w : TableWriter := ⟨"t", nestedSchema n, none, none, 1, 0, [], 0⟩
  have hcreate : (create "t" (nestedSchema n) []).run Disk.empty = ⟨.ok w, disk₁, []⟩ := rfl
  have hrow : Record.ofJson (nestedSchema n) (Record.toJson [nestedValue n])
      = .ok [nestedValue n] := by
    rw [Record.toJson, Value.fieldsToJson, Value.fieldsToJson, Record.ofJson_array rfl,
      nestedSchema, Value.fieldsOfJson, ofJson_nestedValue]
    rfl
  have haccepted : w.accepted [nestedValue n] = .ok ([nestedValue n], none) :=
    accepted_eq_ok_iff.2 ⟨hrow, rfl⟩
  have hcreated := create_spec Disk.isSound_empty hcreate
  have hframe := (takes_append (s := (disk₁, w)) hcreated.atEnd haccepted).rowBytes
  rw [hcreated.rowBytes_eq, List.nil_append] at hframe
  refine ⟨w, disk₁, _, hcreate, ?_, hframe⟩
  rw [run_append_of_ok (s := (disk₁, w)) haccepted]

theorem not_read_append_nestedValue :
    ∃ w disk₁ s, (create "t" (nestedSchema 127) []).run Disk.empty = ⟨.ok w, disk₁, []⟩
      ∧ (append [nestedValue 127]).run (disk₁, w) = ⟨.ok (), s, []⟩
      ∧ Table.Frame.read (s.2.rowBytes s.1) = .error .invalidPayload := by
  obtain ⟨w, disk₁, s, hcreate, happend, hframe⟩ := append_nestedValue 127
  refine ⟨w, disk₁, s, hcreate, happend, ?_⟩
  have hlength : (Table.Frame.ofRow [nestedValue 127]).length < 2 ^ 32 := by
    rw [Table.length_ofRow]
    decide +kernel
  -- the array of the row is one level more
  have hdepth : ¬ Json.depth (Record.toJson [nestedValue 127]) < Json.depthLimit := by
    show ¬ max (nestedValue 127).toJson.depth 0 + 1 < 128
    rw [depth_nestedValue]
    decide
  have hnone : Json.parse? (Record.toJson [nestedValue 127]).render = none :=
    Option.not_isSome_iff_eq_none.1 fun h => hdepth ((Record.isSome_parse?_iff _).1 h)
  rw [hframe]
  exact Table.Frame.read_ofRow_eq_error hlength hnone

end TableWriter

end TableScan
