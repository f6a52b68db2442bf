import TableScan.Proofs.Schema.Columns
import TableScan.Table.Cursor

/-!
# Projected rows

What a projection makes of a row, said by the names of the columns: `Schema.valueOf` is the value
that a row has under a name, null where the schema has no such column, and `Projection.ofRow` takes
these values in the order of the selectors, of a map only the entries under the wanted keys.

A cursor works with positions, and it uses the row up: a value that is moved into one column is gone
for the columns behind it. So it fills its columns as the names say only where no two of them come
from one position (`FieldOrigin.fill_eq_map`), and this is why a projection must not select a name
twice.

Main statement: a cursor that was opened through a projection that selects each name once makes of a
row what the projection makes of it by names (`TableCursor.projected_eq`).
-/

namespace TableScan

/-- The value of a row under a name; null where the schema lacks the name. -/
def Schema.valueOf (s : Schema) (name : String) (row : Record) : Value :=
  ((s.names.zip row).lookup name).getD .null

/-- Whether a key is one of those that are wanted; no wanted keys stand for all. -/
def FieldOrigin.wants (subfields : List String) (key : String) : Bool :=
  subfields.isEmpty || subfields.contains key

/-- What a selector makes of a row of a schema: the value under its name, of a map only the entries
whose keys it wants. -/
def Selector.valueIn (selector : Selector) (schema : Schema) (row : Record) : Value :=
  match schema.valueOf selector.name row with
  | .map entries => .map (entries.filter fun e => FieldOrigin.wants selector.subfields e.1)
  | v => v

/-- What a projection makes of a row of a schema. -/
def Projection.ofRow (p : Projection) (schema : Schema) (row : Record) : Record :=
  p.selectors.map fun selector => selector.valueIn schema row

/-- No name is selected twice. -/
def Projection.SelectsOnce (p : Projection) : Prop := (p.selectors.map Selector.name).Nodup

/-- Looking up by name is looking up by position. -/
theorem Schema.valueOf_eq_getElem? (s : Schema) (name : String) (row : Record) :
    s.valueOf name row = ((s.indexOf? name).bind fun i => row[i]?).getD .null := by
  obtain ⟨columns⟩ := s
  induction columns generalizing row with
  | nil => rfl
  | cons c rest ih =>
    unfold valueOf indexOf? names at ih ⊢
    simp only at ih ⊢
    rw [List.map_cons, List.findIdx?_cons]
    cases row with
    | nil =>
      rw [List.zip_nil_right]
      -- a row that is too short has null under every further name, whichever position it has
      cases (if c.name == name then some 0
        else (rest.findIdx? fun x => x.name == name).map fun i => i + 1) with
      | none => rfl
      | some i => rfl
    | cons v vs =>
      rw [List.zip_cons_cons]
      by_cases hc : c.name = name
      · rw [if_pos (by simp [hc]), ← hc, List.lookup_cons_self]
        rfl
      · have hne : (name == c.name) = false := by
          rw [beq_eq_false_iff_ne]
          exact Ne.symm hc
        rw [if_neg (by simp [hc]), List.lookup_cons, hne, ih vs]
        cases List.findIdx? (fun x => x.name == name) rest with
        | none => rfl
        | some i => rfl

/-! ## Narrowing -/

/-- The keys of a map; other values have none. -/
def Value.keys : Value → List String
  | .map entries => entries.map Prod.fst
  | _ => []

namespace FieldOrigin

theorem narrow_map (subfields : List String) (entries : List (String × Value)) :
    narrow subfields (.map entries) = .map (entries.filter fun e => wants subfields e.1) := by
  unfold narrow wants
  cases subfields with
  | nil => simp
  | cons key keys => rfl

@[simp] theorem narrow_nil (v : Value) : narrow [] v = v := by
  cases v <;> rfl

/-- Narrowing what is narrowed already shows the same just when it wants no key that is gone. -/
theorem narrow_eq_narrow_narrow_iff (wanted kept : List String) (v : Value) :
    narrow wanted v = narrow wanted (narrow kept v) ↔
      ∀ key ∈ v.keys, wants wanted key = true → wants kept key = true := by
  cases v with
  | map entries =>
    rw [narrow_map, narrow_map, narrow_map, Value.map.injEq, List.filter_filter]
    show _ ↔ ∀ key ∈ entries.map Prod.fst, _
    constructor
    · intro h key hkey hwanted
      obtain ⟨e, he, rfl⟩ := List.mem_map.1 hkey
      -- a wanted entry is in the first list, so it is in the second, which keeps none but the kept
      have hmem : e ∈ entries.filter fun e => wants wanted e.1 :=
        List.mem_filter.2 ⟨he, hwanted⟩
      rw [h] at hmem
      exact (Bool.and_eq_true_iff.1 (List.mem_filter.1 hmem).2).2
    · intro h
      refine List.filter_congr fun e he => ?_
      have hkey := h e.1 (List.mem_map_of_mem he)
      cases hwanted : wants wanted e.1 with
      | false => rfl
      | true => rw [hkey hwanted, Bool.and_true]
  | _ => exact ⟨fun _ _ hkey => absurd hkey List.not_mem_nil, fun _ => rfl⟩

end FieldOrigin

/-- A selector shows the value under its name, narrowed to its keys. -/
theorem Selector.valueIn_eq_narrow (selector : Selector) (schema : Schema) (row : Record) :
    selector.valueIn schema row
      = FieldOrigin.narrow selector.subfields (schema.valueOf selector.name row) := by
  unfold valueIn
  cases schema.valueOf selector.name row with
  | map entries => rw [FieldOrigin.narrow_map]
  | _ => rfl

/-- A selector without keys shows the value as it is. -/
theorem Selector.valueIn_column (name : String) (schema : Schema) (row : Record) :
    (Selector.column name).valueIn schema row = schema.valueOf name row := by
  rw [valueIn_eq_narrow]
  exact FieldOrigin.narrow_nil _

/-! ## Projecting whole rows -/

theorem lookup_zip_map {names : List String} {name : String} (g : String → Value)
    (h : name ∈ names) : (names.zip (names.map g)).lookup name = some (g name) := by
  induction names with
  | nil => cases h
  | cons n names ih =>
    rw [List.map_cons, List.zip_cons_cons, List.lookup_cons]
    by_cases hn : name = n
    · rw [hn, beq_self_eq_true]
    · rw [beq_eq_false_iff_ne.2 hn]
      exact ih ((List.mem_cons.1 h).resolve_left hn)

/-- Selecting every column of a logical schema keeps the values under its names. -/
theorem Schema.valueOf_identity {logical : Schema} {name : String} (h : name ∈ logical.names)
    (schema : Schema) (row : Record) :
    logical.valueOf name ((Projection.identity logical).ofRow schema row)
      = schema.valueOf name row := by
  have hrow : (Projection.identity logical).ofRow schema row
      = logical.names.map fun n => schema.valueOf n row := by
    unfold Projection.ofRow
    show (logical.names.map Selector.column).map _ = _
    rw [List.map_map]
    exact List.map_congr_left fun n _ => Selector.valueIn_column n schema row
  unfold Schema.valueOf
  rw [hrow, lookup_zip_map _ h]
  rfl

/-- A projection of columns of a logical schema is one of what selecting every column gives. -/
theorem Projection.ofRow_identity {p : Projection} {logical : Schema}
    (h : ∀ selector ∈ p.selectors, selector.name ∈ logical.names) (schema : Schema)
    (row : Record) :
    p.ofRow schema row = p.ofRow logical ((identity logical).ofRow schema row) := by
  refine List.map_congr_left fun selector hselector => ?_
  rw [Selector.valueIn_eq_narrow, Selector.valueIn_eq_narrow,
    Schema.valueOf_identity (h selector hselector)]

/-! ## Filling columns -/

namespace FieldOrigin

variable {c d : FieldOrigin} {columns : List FieldOrigin}

/-- The value of a column in a row from which nothing has been taken. -/
def valueIn (c : FieldOrigin) (row : Record) : Value :=
  narrow c.subfields ((c.position.bind fun p => row[p]?).getD .null)

/-- Two columns that do not come from one position. -/
def Apart (c d : FieldOrigin) : Prop := ∀ p, c.position = some p → d.position ≠ some p

theorem narrow_moveOut (c : FieldOrigin) (row : Record) :
    narrow c.subfields (c.moveOut row).1 = c.valueIn row := by
  unfold moveOut valueIn
  cases c.position <;> rfl

/-- What a column takes out of a row is not missed by a column that comes from another position. -/
theorem Apart.valueIn_moveOut (h : c.Apart d) (row : Record) :
    d.valueIn (c.moveOut row).2 = d.valueIn row := by
  unfold moveOut valueIn
  cases hc : c.position with
  | none => rfl
  | some p =>
    cases hd : d.position with
    | none => rfl
    | some q =>
      have hne : p ≠ q := fun heq => h p hc (heq ▸ hd)
      dsimp only [Option.bind_some]
      rw [List.getElem?_set_ne hne]

/-- Columns that come from different positions are filled as if each had the whole row. -/
theorem fill_eq_map (h : columns.Pairwise Apart) (row : Record) :
    fill columns row = columns.map (·.valueIn row) := by
  induction columns generalizing row with
  | nil => rfl
  | cons c columns ih =>
    obtain ⟨hfirst, hrest⟩ := List.pairwise_cons.1 h
    rw [fill, List.map_cons, narrow_moveOut, ih hrest]
    -- the columns behind see a row without the value of `c`, which none of them looks at
    have hbehind : columns.map (·.valueIn (c.moveOut row).2) = columns.map (·.valueIn row) :=
      List.map_congr_left fun d hd => (hfirst d hd).valueIn_moveOut row
    rw [hbehind]

/-- A position that is there twice is null the second time. -/
example : fill [⟨some 0, []⟩, ⟨some 0, []⟩] [.int 1] = [.int 1, .null] := rfl

/-- Selectors of different names look at different positions of a schema, if at any. -/
theorem apart_of_name_ne (schema : Schema) {a b : Selector} (h : a.name ≠ b.name) :
    (of schema a).Apart (of schema b) :=
  fun _ ha => Schema.indexOf?_ne h ha

/-- The value at a selector's position is the one under its name. -/
theorem valueIn_of (schema : Schema) (selector : Selector) (row : Record) :
    (of schema selector).valueIn row = selector.valueIn schema row := by
  rw [Selector.valueIn_eq_narrow, Schema.valueOf_eq_getElem?]
  rfl

end FieldOrigin

/-- A cursor that was opened through a projection projects rows by it. The values are moved out of
the row, so it takes that no name is selected twice. -/
theorem TableCursor.projected_eq {s : TableCursor} {p : Projection} (hp : p.SelectsOnce)
    (h : s.columns = p.selectors.map (FieldOrigin.of s.table.schema)) (row : Record) :
    s.projected row = p.ofRow s.table.schema row := by
  have hapart : (p.selectors.map (FieldOrigin.of s.table.schema)).Pairwise FieldOrigin.Apart :=
    List.pairwise_map.2 <| (List.pairwise_map.1 hp).imp fun hne =>
      FieldOrigin.apart_of_name_ne s.table.schema hne
  unfold projected Projection.ofRow
  rw [h, FieldOrigin.fill_eq_map hapart, List.map_map]
  exact List.map_congr_left fun selector _ => FieldOrigin.valueIn_of s.table.schema selector row

end TableScan
