import TableScan.Proofs.Schema.Scanners

/-!
# Written schemas read back

A schema is writable if all its column names are names of the grammar and no name is there twice, in
nested records too. Main statement: a writable schema is read back from its text
(`Schema.parse_text`). The proof follows the scanners of types and of columns, by induction on the
type that was written.
-/

namespace TableScan

open Text (trimStart isBlank)

namespace ColumnType

mutual

/-- Holds of types whose nested records have names of the grammar, none of them twice. -/
def IsWritable : ColumnType → Prop
  | .primitive _ => True
  | .map value => IsWritable value
  | .record columns => ColumnsWritable columns ∧ (columns.map ColumnOf.name).Nodup

def ColumnsWritable : List (ColumnOf ColumnType) → Prop
  | [] => True
  | ⟨name, type⟩ :: rest =>
    Grammar.isName name.toList = true ∧ IsWritable type ∧ ColumnsWritable rest

end

end ColumnType

/-- Holds of schemas that have names of the grammar, none of them twice, in nested records too. -/
def Schema.IsWritable (s : Schema) : Prop :=
  ColumnType.ColumnsWritable s.columns ∧ s.NamesDistinct

theorem ColumnType.ColumnsWritable.isName_of_mem {columns : List Column}
    (h : ColumnsWritable columns) : ∀ c ∈ columns, Grammar.isName c.name.toList = true := by
  induction columns with
  | nil => exact fun c hc => absurd hc List.not_mem_nil
  | cons d rest ih =>
    obtain ⟨hname, -, hrest⟩ := h
    exact List.forall_mem_cons.2 ⟨hname, ih hrest⟩

/-- The columns of a writable schema have names of the grammar. -/
theorem Schema.IsWritable.isName_of_mem {s : Schema} (h : s.IsWritable) {c : Column}
    (hc : c ∈ s.columns) : Grammar.isName c.name.toList = true :=
  ColumnType.ColumnsWritable.isName_of_mem h.1 c hc

namespace Grammar

variable {rest : List Char}

/-- Holds of what may stand behind a type or a column: it does not go on with a name, and no white
space is in front of it. -/
def EndsType (rest : List Char) : Prop :=
  ∀ c ∈ rest.head?, isNamePart c = false ∧ isBlank c = false

/-- There is no white space to skip in front of it. -/
theorem EndsType.trimStart_eq (h : EndsType rest) : trimStart rest = rest := by
  cases rest with
  | nil => rfl
  | cons c rest => exact Text.trimStart_cons_of_not_blank (h c rfl).2 rest

/-- A comma or a bracket ends a type. -/
theorem endsType_of_mem {c : Char} (h : c ∈ [',', ')']) (rest : List Char) :
    EndsType (c :: rest) := by
  intro d hd
  obtain rfl : c = d := Option.some.inj hd
  simp only [List.mem_cons, List.not_mem_nil, or_false] at h
  rcases h with rfl | rfl <;> decide

/-- A name at the front is scanned up to a character that is no part of names. -/
theorem scanName_append {name : List Char} (h : isName name = true) (hrest : EndsName rest) :
    Reads (scanName (name ++ rest)) (String.ofList name) rest :=
  scanName_of_trimStart (trimStart_of_isName h rest) h hrest

/-! ## Types -/

/-- The name of a primitive is read as this primitive. -/
theorem scanType_primitive (p : Primitive) (hrest : EndsType rest) :
    Reads (scanType (p.name.toList ++ rest)) (.primitive p) rest := by
  have hname : isName p.name.toList = true := by cases p <;> decide
  have hword : primitiveOfKeyword? (lower (String.ofList p.name.toList)) = some p := by
    cases p <;> decide
  exact (ReadsType.primitive (scanName_append hname fun c hc => (hrest c hc).1) hword).reads

/-- A map is read by the type in its brackets. -/
theorem scanType_map {r : List Char} {value : ColumnType}
    (h : Reads (scanType r) value (')' :: rest)) :
    Reads (scanType ("map".toList ++ '(' :: r)) (.map value) rest := by
  have hname : isName "map".toList = true := by decide
  exact (ReadsType.map (scanName_append hname (endsName_cons rfl r)) (by decide)
    (Text.trimStart_cons_of_not_blank rfl r) h (Text.trimStart_cons_of_not_blank rfl rest)).reads

/-- Behind the opening bracket of a record stands the closing one, or its columns. -/
theorem scanType_record {r : List Char} {columns : List Column}
    (h : (r = ')' :: rest ∧ columns = []) ∨ Reads (scanColumns [] r) columns (')' :: rest)) :
    Reads (scanType ("record".toList ++ '(' :: r)) (.record columns) rest := by
  have hname : isName "record".toList = true := by decide
  have hscan := scanName_append hname (endsName_cons (c := '(') rfl r)
  have hopen : trimStart ('(' :: r) = '(' :: r := Text.trimStart_cons_of_not_blank rfl r
  have hclose : trimStart (')' :: rest) = ')' :: rest := Text.trimStart_cons_of_not_blank rfl rest
  rcases h with ⟨rfl, rfl⟩ | hcolumns
  · exact (ReadsType.emptyRecord hscan (by decide) hopen hclose).reads
  · exact (ReadsType.record hscan (by decide) hopen hcolumns hclose).reads

/-! ## Columns -/

/-- Columns are read one by one: behind each stands the end of all of them, or a comma and the other
ones. -/
theorem scanColumns_cons {before columns : List Column} {cs r tail : List Char} {name : String}
    {type : ColumnType} (htrim : trimStart cs = name.toList ++ ':' :: r)
    (hname : isName name.toList = true) (hnew : name ∉ before.map ColumnOf.name)
    (h : Reads (scanType r) type tail) (hends : EndsType tail)
    (htail : (tail = rest ∧ columns = before ++ [⟨name, type⟩] ∧ ∀ t, rest ≠ ',' :: t)
      ∨ ∃ t, tail = ',' :: t ∧ Reads (scanColumns (before ++ [⟨name, type⟩]) t) columns rest) :
    Reads (scanColumns before cs) columns rest := by
  have hscan := reads_scanName_iff.2 ⟨htrim, hname, endsName_cons rfl r⟩
  have hcolumn : ReadsColumn cs ⟨name, type⟩ tail :=
    .typed hscan (Text.trimStart_cons_of_not_blank rfl r) h
  rcases htail with ⟨rfl, rfl, hlast⟩ | ⟨t, rfl, hcolumns⟩
  · have hnone : ∀ t, trimStart tail ≠ ',' :: t := by rwa [hends.trimStart_eq]
    -- the scanner skips white space behind the last column, and there is none
    have hread := (ReadsColumns.last hcolumn hnew hnone).reads
    rwa [hends.trimStart_eq] at hread
  · exact (ReadsColumns.more hcolumn hnew hends.trimStart_eq hcolumns).reads

open ColumnType (IsWritable ColumnsWritable columnsChars)

/-- How a map is written, up to what stands behind it. -/
theorem chars_map (value : ColumnType) (rest : List Char) :
    (ColumnType.map value).chars ++ rest = "map".toList ++ '(' :: (value.chars ++ ')' :: rest) := by
  have hchars : (ColumnType.map value).chars = "map(".toList ++ value.chars ++ [')'] := rfl
  have hopen : "map(".toList = "map".toList ++ ['('] := by decide
  rw [hchars, hopen]
  simp only [List.append_assoc, List.cons_append, List.nil_append]

/-- How a record is written. -/
theorem chars_record (columns : List Column) (rest : List Char) :
    (ColumnType.record columns).chars ++ rest
      = "record".toList ++ '(' :: (columnsChars columns ++ ')' :: rest) := by
  have hchars : (ColumnType.record columns).chars
      = "record(".toList ++ columnsChars columns ++ [')'] := rfl
  have hopen : "record(".toList = "record".toList ++ ['('] := by decide
  rw [hchars, hopen]
  simp only [List.append_assoc, List.cons_append, List.nil_append]

/-- How a column is written. -/
theorem columnsChars_singleton (c : Column) (rest : List Char) :
    columnsChars [c] ++ rest = c.name.toList ++ ':' :: (c.type.chars ++ rest) := by
  have hchars : columnsChars [c] = c.name.toList ++ ':' :: c.type.chars := rfl
  rw [hchars, List.append_assoc]
  rfl

/-- How columns are written: a comma and a blank stand behind the first one. -/
theorem columnsChars_cons_cons (c d : Column) (columns : List Column) (rest : List Char) :
    columnsChars (c :: d :: columns) ++ rest
      = c.name.toList
        ++ ':' :: (c.type.chars ++ ',' :: ' ' :: (columnsChars (d :: columns) ++ rest)) := by
  have hchars : columnsChars (c :: d :: columns)
      = c.name.toList ++ ':' :: c.type.chars ++ ", ".toList ++ columnsChars (d :: columns) := rfl
  have hcomma : ", ".toList = [',', ' '] := by decide
  rw [hchars, hcomma]
  simp only [List.append_assoc, List.cons_append, List.nil_append]

/-- Columns start with the name of the first one. -/
theorem exists_columnsChars_eq (c : Column) (columns : List Column) (rest : List Char) :
    ∃ t, columnsChars (c :: columns) ++ rest = c.name.toList ++ t := by
  cases columns with
  | nil => exact ⟨_, columnsChars_singleton c rest⟩
  | cons d columns => exact ⟨_, columnsChars_cons_cons c d columns rest⟩

/-- The first character of columns is one that names start with. -/
theorem exists_columnsChars_head {c : Column} (h : isName c.name.toList = true)
    (columns : List Column) (rest : List Char) :
    ∃ d t, columnsChars (c :: columns) ++ rest = d :: t ∧ isNameStart d = true := by
  obtain ⟨t, ht⟩ := exists_columnsChars_eq c columns rest
  obtain ⟨d, part, hpart, hstart⟩ := exists_cons_of_isName h
  exact ⟨d, part ++ t, by rw [ht, hpart, List.cons_append], hstart⟩

/-- No white space is in front of columns. -/
theorem trimStart_columnsChars {c : Column} (h : isName c.name.toList = true)
    (columns : List Column) (rest : List Char) :
    trimStart (columnsChars (c :: columns) ++ rest) = columnsChars (c :: columns) ++ rest := by
  obtain ⟨t, ht⟩ := exists_columnsChars_eq c columns rest
  rw [ht]
  exact trimStart_of_isName h t

mutual

/-- The text of a type is scanned as this type, up to what stands behind it. -/
theorem scanType_chars (type : ColumnType) (htype : type.IsWritable) {rest : List Char}
    (hrest : EndsType rest) : Reads (scanType (type.chars ++ rest)) type rest := by
  cases type with
  | primitive p => exact scanType_primitive p hrest
  | map value =>
    have hends : EndsType (')' :: rest) := endsType_of_mem (by decide) rest
    rw [chars_map]
    exact scanType_map (scanType_chars value htype hends)
  | record columns =>
    obtain ⟨hcolumns, hdistinct⟩ := htype
    have hends : EndsType (')' :: rest) := endsType_of_mem (by decide) rest
    rw [chars_record]
    refine scanType_record ?_
    cases columns with
    | nil => exact .inl ⟨rfl, rfl⟩
    | cons c columns =>
      have hname : isName c.name.toList = true := hcolumns.1
      have hdistinct : ((([] : List Column) ++ c :: columns).map ColumnOf.name).Nodup := hdistinct
      exact .inr (scanColumns_chars (c :: columns) hcolumns hdistinct (List.cons_ne_nil _ _) hends
        (fun t h => by cases h) (trimStart_columnsChars hname columns _))

/-- The text of columns is scanned as these columns, behind other ones of the same schema. -/
theorem scanColumns_chars (columns : List Column) (hcolumns : ColumnsWritable columns)
    {before : List Column} (hdistinct : ((before ++ columns).map ColumnOf.name).Nodup)
    (hne : columns ≠ []) {rest : List Char} (hrest : EndsType rest) (hend : ∀ t, rest ≠ ',' :: t)
    {cs : List Char} (hcs : trimStart cs = columnsChars columns ++ rest) :
    Reads (scanColumns before cs) (before ++ columns) rest := by
  cases columns with
  | nil => exact absurd rfl hne
  | cons c columns =>
    obtain ⟨name, type⟩ := c
    obtain ⟨hname, htype, hothers⟩ := hcolumns
    have hnew : name ∉ before.map ColumnOf.name := Schema.NamesDistinct.not_mem_front hdistinct
    cases columns with
    | nil =>
      rw [columnsChars_singleton] at hcs
      exact scanColumns_cons hcs hname hnew (scanType_chars type htype hrest) hrest
        (.inl ⟨rfl, rfl, hend⟩)
    | cons d columns =>
      have hends : EndsType (',' :: ' ' :: (columnsChars (d :: columns) ++ rest)) :=
        endsType_of_mem (by decide) _
      have hothersDistinct :
          (((before ++ [(⟨name, type⟩ : Column)]) ++ d :: columns).map ColumnOf.name).Nodup := by
        rw [List.append_assoc]
        exact hdistinct
      -- the blank behind the comma is skipped
      have hspace : trimStart (' ' :: (columnsChars (d :: columns) ++ rest))
          = columnsChars (d :: columns) ++ rest := by
        rw [Text.trimStart_cons_of_blank rfl]
        exact trimStart_columnsChars hothers.1 columns rest
      have hscan := scanColumns_chars (d :: columns) hothers hothersDistinct
        (List.cons_ne_nil _ _) hrest hend hspace
      rw [List.append_assoc] at hscan
      rw [columnsChars_cons_cons] at hcs
      exact scanColumns_cons hcs hname hnew (scanType_chars type htype hends) hends
        (.inr ⟨' ' :: (columnsChars (d :: columns) ++ rest), rfl, hscan⟩)

end

end Grammar

/-- A writable schema is read back from its text. -/
theorem Schema.parse_text {s : Schema} (h : s.IsWritable) : parse s.text = .ok s := by
  obtain ⟨columns⟩ := s
  obtain ⟨hcolumns, hdistinct⟩ := h
  have hchars : (Schema.text ⟨columns⟩).toList = ColumnType.columnsChars columns :=
    String.toList_ofList
  have hscan : Grammar.scanSchema (ColumnType.columnsChars columns) = .ok columns := by
    cases columns with
    | nil => rfl
    | cons c columns =>
      have hname : Grammar.isName c.name.toList = true := hcolumns.1
      have hnil : Grammar.EndsType [] := fun d hd => by cases hd
      have htrim := Grammar.trimStart_columnsChars hname columns []
      rw [List.append_nil] at htrim
      -- behind the columns nothing is left of the text
      have hread : Reads (Grammar.scanColumns [] (ColumnType.columnsChars (c :: columns)))
          (c :: columns) [] :=
        have hdistinct : ((([] : List Column) ++ c :: columns).map ColumnOf.name).Nodup := hdistinct
        Grammar.scanColumns_chars (c :: columns) hcolumns hdistinct
          (List.cons_ne_nil _ _) hnil (fun t ht => by cases ht)
          (htrim.trans (List.append_nil _).symm)
      obtain ⟨_, hread⟩ := hread.eq_ok
      obtain ⟨d, t, hhead, hstart⟩ := Grammar.exists_columnsChars_head hname columns []
      rw [List.append_nil] at hhead
      -- the text starts with the first name, so it is neither empty nor a bracket
      unfold Grammar.scanSchema
      rw [htrim]
      split
      · next hempty => cases hhead.symm.trans hempty
      · next r hbracket =>
        obtain rfl := (List.cons.inj (hhead.symm.trans hbracket)).1
        exact absurd hstart (by decide)
      · rw [hread]
        rfl
  unfold parse
  rw [hchars, hscan]

end TableScan
