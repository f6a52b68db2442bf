import Mathlib
import TableScan.Proofs.Projection.Chosen
import TableScan.Proofs.Reader.InTurn
import TableScan.Proofs.Reader.Through

/-!
# Reading through a chosen projection

What a host sees after it has asked for fields of the projection in force, compared with what it saw
before. The rows are the same, and each record has one field for each request.

Main statement: a chosen field shows the keys of its column that the request wants, whatever keys
the projection before had left of it; so it shows what the earlier field shows of them just when no
key that is wanted had been left out (`answers_of_chosen`).
-/

namespace TableScan

namespace ProjectionChoice

/-- Requested fields, by position: the selector before, the selector after, and what both make of a
record of the logical schema. -/
theorem fields_of_requested {logical : Schema} {before : Projection}
    {requests : List FieldRequest} {selectors : List Selector} {after : Projection}
    (hbefore : before.ResolvesIn logical) (hafter : after.selectors = selectors)
    (h : List.Forall₂ (Requested before.schema) requests selectors) {i : Nat}
    {request : FieldRequest} (hi : requests[i]? = some request) :
    ∃ selector, before.selectors[request.index]? = some selector ∧ ∀ record,
      (before.ofRow logical record)[request.index]?
          = some (FieldOrigin.narrow selector.subfields (logical.valueOf selector.name record))
        ∧ (after.ofRow logical record)[i]?
          = some (FieldOrigin.narrow request.subfields
            (logical.valueOf selector.name record)) := by
  obtain ⟨later, hlater, hrequested⟩ := Results.exists_getElem?_of_forall₂ h hi
  obtain ⟨c, hc, rfl, _⟩ := hrequested.column
  obtain ⟨selector, hselector, hselect⟩ :=
    Results.exists_getElem?_of_forall₂ hbefore.columns.flip hc
  have hname : c.name = selector.name :=
    (Schema.mem_of_find? (Projection.select_eq_ok_iff.1 hselect).1).2
  refine ⟨selector, hselector, fun record => ⟨?_, ?_⟩⟩
  · unfold Projection.ofRow
    rw [List.getElem?_map, hselector, Option.map_some, Selector.valueIn_eq_narrow]
  · unfold Projection.ofRow
    rw [List.getElem?_map, hafter, hlater, ← hname, Option.map_some, Selector.valueIn_eq_narrow]

end ProjectionChoice

open ProjectionChoice (selectorsOf)
open FieldOrigin (narrow wants)

/-- Tables that are read through the projection chosen for some requests give the rows that they
gave through the projection before: every sequence of calls is answered with the same errors and
ends, and with records of the same rows, here told by what a reader of the whole schema answers.
Field `i` of a record holds the keys of its column that request `i` wants. That is what the earlier
field shows of them just when the projection before had left out no key that the request wants. -/
theorem answers_of_chosen {disk : Disk} {paths : List String} {tables : List Table}
    {order : Option SortOrder} {logical : Schema} {choice : ProjectionChoice}
    {before : Projection} {requests : List FieldRequest} {text : String} {r : TableReader}
    (hopen : paths.mapM (Table.openAt disk) = .ok tables)
    (hunion : Schema.unionOf (tables.map Table.schema) = .ok logical)
    (hbefore : choice.current logical = .ok before)
    (hr : TableReader.ofTables disk tables order (choice.effective.getD "") = .ok r)
    (hne : requests ≠ [])
    (hchosen : ((ProjectionChoice.choose logical requests).run choice).result = .ok text) :
    ((ProjectionChoice.choose logical requests).run choice).state.effective = some text ∧
    ∃ after pruned whole,
      Projection.parse logical text = .ok after
      ∧ TableReader.ofTables disk tables order text = .ok pruned
      ∧ TableReader.ofTables disk tables order "" = .ok whole
      ∧ (∀ calls,
        RecordReader.answers disk r calls = (RecordReader.answers disk whole calls).map
            (Except.map (Option.map (before.ofRow logical)))
          ∧ RecordReader.answers disk pruned calls = (RecordReader.answers disk whole calls).map
            (Except.map (Option.map (after.ofRow logical))))
      ∧ after.selectors.length = requests.length
      ∧ ∀ (i : Nat) (request : FieldRequest), requests[i]? = some request → ∃ selector,
        before.selectors[request.index]? = some selector ∧ ∀ record,
          (before.ofRow logical record)[request.index]?
              = some (narrow selector.subfields (logical.valueOf selector.name record))
            ∧ (after.ofRow logical record)[i]?
              = some (narrow request.subfields (logical.valueOf selector.name record))
            ∧ ((after.ofRow logical record)[i]?
                = (before.ofRow logical record)[request.index]?.map (narrow request.subfields)
              ↔ ∀ key ∈ (logical.valueOf selector.name record).keys,
                wants request.subfields key = true → wants selector.subfields key = true) := by
  -- the names of all columns can be written and read back, so the text that is rendered
  -- resolves to the selectors that it was rendered from
  have hwell : logical.WellNamed := by
    refine Schema.wellNamed_of_unionOf hunion fun s hs => ?_
    obtain ⟨t, ht, rfl⟩ := List.mem_map.1 hs
    exact Table.wellNamed_of_mapM_openAt hopen t ht
  obtain ⟨htext, hforce⟩ := ProjectionChoice.run_choose_eq_ok hchosen
  obtain ⟨p, selectors, hp, hselectors, rfl⟩ := ProjectionChoice.chosenText_eq_ok htext
  obtain rfl : before = p := Except.ok.inj (hbefore.symm.trans hp)
  rw [ProjectionChoice.current_eq_parse] at hbefore
  have hresolves := Projection.resolvesIn_of_parse hbefore hwell.distinct
  obtain ⟨hrequested, _, _⟩ := ProjectionChoice.requested_of_selectorsOf hselectors
  obtain ⟨after, hafter, hlater, hnonempty⟩ :=
    ProjectionChoice.exists_parse_of_selectorsOf hwell hresolves hne hselectors
  have hresolves' := Projection.resolvesIn_of_parse hafter hwell.distinct
  -- both readers are compared with one that shows every column as it is
  have honce := (Projection.identity_resolvesIn hwell.distinct).selectsOnce
  have hwhole : Projection.parse logical "" = .ok (Projection.identity logical) := rfl
  obtain ⟨hown, hpruned⟩ := TableReader.ofTables_through hr hunion hbefore hafter
  obtain ⟨_, hwholeReader⟩ := TableReader.ofTables_through hr hunion hbefore hwhole
  refine ⟨hforce hnonempty, after, r.through after, r.through (Projection.identity logical),
    hafter, hpruned, hwholeReader, ?_, ?_, ?_⟩
  · intro calls
    constructor
    · have h := TableReader.answers_through disk hresolves.selectsOnce honce
        (Projection.ofRow_identity fun s hs => hresolves.mem_names hs) r calls
      rw [hown] at h
      exact h
    · exact TableReader.answers_through disk hresolves'.selectsOnce honce
        (Projection.ofRow_identity fun s hs => hresolves'.mem_names hs) r calls
  · rw [hlater]
    exact hrequested.length_eq.symm
  · intro i request hi
    obtain ⟨selector, hselector, hfields⟩ :=
      ProjectionChoice.fields_of_requested hresolves hlater hrequested hi
    refine ⟨selector, hselector, fun record => ?_⟩
    obtain ⟨hearlier, hshown⟩ := hfields record
    refine ⟨hearlier, hshown, ?_⟩
    rw [hearlier, hshown, Option.map_some, Option.some_inj]
    exact FieldOrigin.narrow_eq_narrow_narrow_iff _ _ _

/-- A disk with one table `t` of numbers with a map, and one row in it, whose map has the keys `x`
and `y`. -/
def taggedTable : Disk where
  root := .dir [("t", .dir [(".schema", .file 0), ("records.dat", .file 1)])]
  contents := [Text.utf8Bytes "id:int,m:map(string)",
    Table.Frame.around (Text.utf8Bytes "[7,\x7b\"x\":\"1\",\"y\":\"2\"\x7d]")]

theorem openAt_taggedTable :
    Table.openAt taggedTable "t"
      = .ok ⟨"t", ⟨[⟨"id", .primitive .int⟩, ⟨"m", .map (.primitive .string)⟩]⟩, none⟩ := by
  have htext : taggedTable.bytesOf 0 = Text.utf8Bytes "id:int,m:map(string)" := by
    simp [taggedTable, Disk.bytesOf]
  have hfile : taggedTable.root.find (Table.schemaPath "t") = .ok (.file 0) := rfl
  exact Table.openAt_of_utf8Bytes hfile htext (by cbv) rfl

theorem holdsRows_taggedTable :
    Table.HoldsRows taggedTable
      ⟨"t", ⟨[⟨"id", .primitive .int⟩, ⟨"m", .map (.primitive .string)⟩]⟩, none⟩
      [[.int 7, .map [("x", .string "1"), ("y", .string "2")]]] := by
  have hfile : taggedTable.root.find (Table.rowFilePath "t") = .ok (.file 1) := rfl
  have hbytes : taggedTable.bytesOf 1
      = Table.Frame.around (Text.utf8Bytes "[7,\x7b\"x\":\"1\",\"y\":\"2\"\x7d]") ++ [] := by
    simp [taggedTable, Disk.bytesOf]
  have hpayload : Json.parse? "[7,\x7b\"x\":\"1\",\"y\":\"2\"\x7d]"
      = some (.array [.number (.int 7), .object [("x", .string "1"), ("y", .string "2")]]) := by
    cbv
  refine ⟨1, hfile, ?_⟩
  rw [hbytes]
  exact .cons_text (by decide) hpayload rfl (.nil _)

theorem delivers_taggedTable :
    ∃ whole,
      TableReader.ofTables taggedTable
          [⟨"t", ⟨[⟨"id", .primitive .int⟩, ⟨"m", .map (.primitive .string)⟩]⟩, none⟩] none ""
        = .ok whole
      ∧ RecordReader.Delivers taggedTable whole
          [[.int 7, .map [("x", .string "1"), ("y", .string "2")]]] := by
  let logical : Schema := ⟨[⟨"id", .primitive .int⟩, ⟨"m", .map (.primitive .string)⟩]⟩
  have hunion : Schema.unionOf [logical] = .ok logical := rfl
  have hidentity : Projection.parse logical "" = .ok (Projection.identity logical) := rfl
  obtain ⟨whole, hwhole, -, hdelivers⟩ := TableReader.exists_delivers_of_holdsRows
    (.cons holdsRows_taggedTable .nil) hunion hidentity
  exact ⟨whole, hwhole, hdelivers⟩

/-- The map of the table with the key `x` alone, and the number before it once that is asked for. -/
theorem answers_of_chosen_taggedTable :
    ∃ r pruned,
      TableReader.ofTables taggedTable
          [⟨"t", ⟨[⟨"id", .primitive .int⟩, ⟨"m", .map (.primitive .string)⟩]⟩, none⟩]
          none "m#{x} , id" = .ok r
      ∧ TableReader.ofTables taggedTable
          [⟨"t", ⟨[⟨"id", .primitive .int⟩, ⟨"m", .map (.primitive .string)⟩]⟩, none⟩]
          none "id , m#{x}" = .ok pruned
      ∧ RecordReader.answers taggedTable r [.next, .next]
        = [.ok (some [.map [("x", .string "1")], .int 7]), .ok none]
      ∧ RecordReader.answers taggedTable pruned [.next, .next]
        = [.ok (some [.int 7, .map [("x", .string "1")]]), .ok none] := by
  let logical : Schema := ⟨[⟨"id", .primitive .int⟩, ⟨"m", .map (.primitive .string)⟩]⟩
  let choice := ProjectionChoice.ofText (some "m#{x} , id")
  have hopen : ["t"].mapM (Table.openAt taggedTable) = .ok [⟨"t", logical, none⟩] :=
    Results.mapM_eq_ok_iff.2 (.cons openAt_taggedTable .nil)
  have hunion : Schema.unionOf [logical] = .ok logical := rfl
  have hbefore : choice.current logical = .ok
      ⟨[⟨"m", ["x"]⟩, ⟨"id", []⟩],
        ⟨[⟨"m", .map (.primitive .string)⟩, ⟨"id", .primitive .int⟩]⟩⟩ := by cbv
  have hafter : Projection.parse logical "id , m#{x}" = .ok
      ⟨[⟨"id", []⟩, ⟨"m", ["x"]⟩],
        ⟨[⟨"id", .primitive .int⟩, ⟨"m", .map (.primitive .string)⟩]⟩⟩ := by cbv
  have hchosen : ((ProjectionChoice.choose logical [⟨1, none, []⟩, ⟨0, none, ["x"]⟩]).run
      choice).result = .ok "id , m#{x}" := by cbv
  have heffective : choice.effective.getD "" = "m#{x} , id" := by cbv
  have hparsed := (ProjectionChoice.current_eq_parse choice logical).symm.trans hbefore
  obtain ⟨r, hr, -, -⟩ := TableReader.exists_delivers_of_holdsRows
    (.cons holdsRows_taggedTable .nil) hunion hparsed
  obtain ⟨-, after, pruned, whole, hparse, hpruned, hwhole, hanswers, -, -⟩ :=
    answers_of_chosen hopen hunion hbefore hr (List.cons_ne_nil _ _) hchosen
  obtain rfl := Except.ok.inj (hparse.symm.trans hafter)
  obtain ⟨whole', hwhole', hdelivers⟩ := delivers_taggedTable
  obtain rfl : whole = whole' := Except.ok.inj (hwhole.symm.trans hwhole')
  obtain ⟨hown, hnarrowed⟩ := hanswers [.next, .next]
  have hall : RecordReader.answers taggedTable whole [.next, .next]
      = [.ok (some [.int 7, .map [("x", .string "1"), ("y", .string "2")]]), .ok none] :=
    hdelivers 2
  rw [heffective] at hr
  refine ⟨r, pruned, hr, hpruned, ?_, ?_⟩
  · rw [hown, hall]
    rfl
  · rw [hnarrowed, hall]
    rfl

/-- The key `y` of the map is not shown through `m#{x}`, and it is shown once the map is asked for
without keys: the field that comes back is then not the earlier one. -/
theorem answers_of_chosen_whole_map :
    ∃ r pruned,
      ((ProjectionChoice.choose
          ⟨[⟨"id", .primitive .int⟩, ⟨"m", .map (.primitive .string)⟩]⟩ [⟨0, none, []⟩]).run
        (ProjectionChoice.ofText (some "m#{x}"))).result = .ok "m"
      ∧ TableReader.ofTables taggedTable
          [⟨"t", ⟨[⟨"id", .primitive .int⟩, ⟨"m", .map (.primitive .string)⟩]⟩, none⟩]
          none "m#{x}" = .ok r
      ∧ TableReader.ofTables taggedTable
          [⟨"t", ⟨[⟨"id", .primitive .int⟩, ⟨"m", .map (.primitive .string)⟩]⟩, none⟩]
          none "m" = .ok pruned
      ∧ RecordReader.answers taggedTable r [.next] = [.ok (some [.map [("x", .string "1")]])]
      ∧ RecordReader.answers taggedTable pruned [.next]
        ≠ (RecordReader.answers taggedTable r [.next]).map
          (Except.map (Option.map fun record =>
            [FieldOrigin.narrow [] (record[0]?.getD .null)])) := by
  let logical : Schema := ⟨[⟨"id", .primitive .int⟩, ⟨"m", .map (.primitive .string)⟩]⟩
  have hunion : Schema.unionOf [logical] = .ok logical := rfl
  have hbefore : Projection.parse logical "m#{x}"
      = .ok ⟨[⟨"m", ["x"]⟩], ⟨[⟨"m", .map (.primitive .string)⟩]⟩⟩ := by cbv
  have hafter : Projection.parse logical "m"
      = .ok ⟨[⟨"m", []⟩], ⟨[⟨"m", .map (.primitive .string)⟩]⟩⟩ := by cbv
  obtain ⟨r, hr, -, hown⟩ := TableReader.exists_delivers_of_holdsRows
    (.cons holdsRows_taggedTable .nil) hunion hbefore
  obtain ⟨pruned, hpruned, -, hshown⟩ := TableReader.exists_delivers_of_holdsRows
    (.cons holdsRows_taggedTable .nil) hunion hafter
  have hearlier : RecordReader.answers taggedTable r [.next]
      = [.ok (some [.map [("x", .string "1")]])] := hown 1
  have hlater : RecordReader.answers taggedTable pruned [.next]
      = [.ok (some [.map [("x", .string "1"), ("y", .string "2")]])] := hshown 1
  refine ⟨r, pruned, by cbv, hr, hpruned, hearlier, ?_⟩
  rw [hearlier, hlater]
  intro h
  have hfields := Option.some.inj (Except.ok.inj (List.cons.inj h).1)
  have hentries := Value.map.inj (List.cons.inj hfields).1
  exact absurd (congrArg List.length hentries) (by decide)

end TableScan
