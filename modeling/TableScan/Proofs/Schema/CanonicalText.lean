import TableScan.Proofs.Schema.Sentences
import TableScan.Proofs.Schema.Text

/-!
# The canonical text of a schema

What a schema text stands for can be written: the derivation of a text has names of the grammar
only, and different ones on every level (`Schema.isWritable_of_parse`).

Main statement: the schemas that can be written are those that are read back from their own text,
and those that any text stands for; so the text of a schema is canonical among all texts that are
read as it (`Schema.text_canonical`).
-/

namespace TableScan

open ColumnType (IsWritable ColumnsWritable)

namespace Grammar

/-- All names among the tokens are names of the grammar. -/
def NamesAreNames (tokens : List Token) : Prop :=
  ∀ name, Token.name name ∈ tokens → isName name.toList = true

/-- Some of the tokens are enough. -/
theorem NamesAreNames.of_subset {tokens others : List Token} (h : NamesAreNames tokens)
    (hsub : ∀ t ∈ others, t ∈ tokens) : NamesAreNames others :=
  fun name hmem => h name (hsub _ hmem)

mutual

/-- A derived type can be written, by the names in its brackets. -/
theorem IsType.isWritable {tokens : List Token} {type : ColumnType} (h : IsType tokens type)
    (hnames : NamesAreNames tokens) : type.IsWritable := by
  cases h with
  | primitive _ => trivial
  | bareMap _ => trivial
  | @map _ inner value _ hvalue =>
    have hinner : NamesAreNames inner := hnames.of_subset fun t ht => by simp [ht]
    exact hvalue.isWritable hinner
  | @record _ inner columns _ hcolumns =>
    have hinner : NamesAreNames inner := hnames.of_subset fun t ht => by simp [ht]
    exact hcolumns.isWritable hinner

/-- So can a derived column, by its own name too. -/
theorem IsColumn.isWritable {tokens : List Token} {c : Column} (h : IsColumn tokens c)
    (hnames : NamesAreNames tokens) : isName c.name.toList = true ∧ c.type.IsWritable := by
  cases h with
  | untyped name => exact ⟨hnames name List.mem_cons_self, trivial⟩
  | typed name htype =>
    refine ⟨hnames name List.mem_cons_self, htype.isWritable (hnames.of_subset fun t ht => ?_)⟩
    exact List.mem_cons_of_mem _ (List.mem_cons_of_mem _ ht)

theorem IsColumns.isWritable {tokens : List Token} {columns : List Column}
    (h : IsColumns tokens columns) (hnames : NamesAreNames tokens) : ColumnsWritable columns := by
  cases h with
  | last hcolumn =>
    obtain ⟨hname, htype⟩ := hcolumn.isWritable hnames
    exact ⟨hname, htype, trivial⟩
  | more hcolumn hcolumns =>
    -- the names of the first column are among those of all
    have hfront := hnames.of_subset fun t ht => List.mem_append_left _ ht
    obtain ⟨hname, htype⟩ := hcolumn.isWritable hfront
    refine ⟨hname, htype, hcolumns.isWritable (hnames.of_subset fun t ht => ?_)⟩
    exact List.mem_append_right _ (List.mem_cons_of_mem _ ht)

/-- A derived schema has no name twice by its rule. -/
theorem IsSchema.isWritable {tokens : List Token} {columns : List Column}
    (h : IsSchema tokens columns) (hnames : NamesAreNames tokens) :
    ColumnsWritable columns ∧ (columns.map ColumnOf.name).Nodup := by
  cases h with
  | empty => exact ⟨trivial, List.nodup_nil⟩
  | columns hcolumns hdistinct => exact ⟨hcolumns.isWritable hnames, hdistinct⟩

end

end Grammar

namespace Schema

/-- A schema that a text stands for can be written. -/
theorem isWritable_of_parse {text : String} {s : Schema} (h : parse text = .ok s) :
    s.IsWritable := by
  obtain ⟨tokens, hcut, hschema⟩ :=
    Grammar.scanSchema_eq_ok_iff.1 (parse_eq_ok_iff_scanSchema.1 h)
  exact hschema.isWritable fun name hmem => hcut.isName_of_mem hmem

/-- The schemas that can be written are those that are read back from their text. A text that is
read stands for one of them, whose text is read as the same schema and prints as it is; other texts
are read as the same schema just when this one is theirs too. -/
theorem text_canonical :
    (∀ s : Schema, s.IsWritable ↔ parse s.text = .ok s)
      ∧ ∀ text s, parse text = .ok s →
        s.IsWritable ∧ parse s.text = .ok s ∧ (parse s.text).map Schema.text = .ok s.text
          ∧ ∀ other t, parse other = .ok t → (t.text = s.text ↔ t = s) := by
  have hback : ∀ s : Schema, s.IsWritable ↔ parse s.text = .ok s := fun s =>
    ⟨fun h => parse_text h, isWritable_of_parse⟩
  refine ⟨hback, fun text s h => ?_⟩
  have hparse : parse s.text = .ok s := (hback s).1 (isWritable_of_parse h)
  refine ⟨isWritable_of_parse h, hparse, by rw [hparse]; rfl, fun other t ht => ⟨fun heq => ?_, ?_⟩⟩
  · have hother : parse t.text = .ok t := (hback t).1 (isWritable_of_parse ht)
    rw [heq, hparse] at hother
    exact (Except.ok.inj hother).symm
  · rintro rfl
    rfl

end Schema

end TableScan
