import TableScan.Proofs.Schema.Tokens

/-!
# The sentences of the schema grammar

The grammar of written schemas as derivations over tokens, each with what it stands for:

* a schema is empty or one or more columns between commas, with different names,
* a column is a name, alone or with a colon and a type behind it,
* a type is the keyword of a primitive, `map` alone or with a type in parentheses, or `record` with
  a schema in parentheses.

Main statement: a text is read as a schema just when it is cut into a sentence that stands for this
schema, and every other text is refused as one that cannot be parsed
(`Schema.parse_eq_ok_iff_denotes`). The scanners give derivations for what they read, and read what
derivations spell, up to what may stand behind a type or a column.
-/

namespace TableScan

open Text (trimStart)

namespace Grammar

/-- The keywords of the primitives in lower case. -/
def keywords : List (String × Primitive) :=
  [("int", .int), ("long", .long), ("float", .float), ("double", .double), ("string", .string),
    ("bytes", .bytes), ("bool", .bool), ("boolean", .bool)]

mutual

/-- Tokens that stand for a type. -/
inductive IsType : List Token → ColumnType → Prop where
  | primitive {word : String} {p : Primitive} (hword : (word.toLower, p) ∈ keywords) :
      IsType [.name word] (.primitive p)
  | bareMap {word : String} (hword : word.toLower = "map") :
      IsType [.name word] (.map (.primitive .bytes))
  | map {word : String} {tokens : List Token} {value : ColumnType}
      (hword : word.toLower = "map") (hvalue : IsType tokens value) :
      IsType (.name word :: .symbol '(' :: (tokens ++ [.symbol ')'])) (.map value)
  | record {word : String} {tokens : List Token} {columns : List Column}
      (hword : word.toLower = "record") (hcolumns : IsSchema tokens columns) :
      IsType (.name word :: .symbol '(' :: (tokens ++ [.symbol ')'])) (.record columns)

/-- Tokens that stand for a column; one without a type holds bytes. -/
inductive IsColumn : List Token → Column → Prop where
  | untyped (name : String) : IsColumn [.name name] ⟨name, .primitive .bytes⟩
  | typed (name : String) {tokens : List Token} {type : ColumnType} (htype : IsType tokens type) :
      IsColumn (.name name :: .symbol ':' :: tokens) ⟨name, type⟩

/-- Tokens that stand for one or more columns. -/
inductive IsColumns : List Token → List Column → Prop where
  | last {tokens : List Token} {c : Column} (hcolumn : IsColumn tokens c) : IsColumns tokens [c]
  | more {tokens behind : List Token} {c : Column} {columns : List Column}
      (hcolumn : IsColumn tokens c) (hcolumns : IsColumns behind columns) :
      IsColumns (tokens ++ .symbol ',' :: behind) (c :: columns)

/-- Tokens that stand for the columns of a schema. -/
inductive IsSchema : List Token → List Column → Prop where
  | empty : IsSchema [] []
  | columns {tokens : List Token} {columns : List Column} (hcolumns : IsColumns tokens columns)
      (hdistinct : (columns.map ColumnOf.name).Nodup) : IsSchema tokens columns

end

/-- The text is a sentence of the grammar, and stands for the schema. -/
def Denotes (text : String) (s : Schema) : Prop :=
  ∃ tokens, CutInto text.toList tokens ∧ IsSchema tokens s.columns

/-- The keywords that are found are those of the list. -/
theorem primitiveOfKeyword?_eq_some_iff {word : String} {p : Primitive} :
    primitiveOfKeyword? word = some p ↔ (word, p) ∈ keywords := by
  constructor
  · intro h
    unfold primitiveOfKeyword? at h
    split at h
    · next hword =>
      subst hword
      obtain rfl := Option.some.inj h
      decide
    -- the other keywords are the names of the primitives
    · have hname := List.find?_some h
      rw [beq_iff_eq] at hname
      subst hname
      cases p <;> decide
  · intro h
    have hall : ∀ entry ∈ keywords, primitiveOfKeyword? entry.1 = some entry.2 := by decide
    exact hall _ h

theorem lower_eq_toLower (word : String) : lower word = word.toLower := by
  unfold lower String.toLower
  rw [← String.toList_map, String.ofList_toList]

variable {cs rest : List Char}

/-! ## What was read is a sentence -/

mutual

/-- A type that was read has a derivation, and the text leads by its tokens to the rest. -/
theorem exists_isType_of_reads {cs rest : List Char} {type : ColumnType}
    (h : Reads (scanType cs) type rest) :
    ∃ tokens, IsType tokens type ∧ LeadsTo cs tokens rest := by
  cases readsType_of_reads h with
  | primitive hname hword =>
    rw [lower_eq_toLower] at hword
    exact ⟨_, .primitive (primitiveOfKeyword?_eq_some_iff.1 hword), .name hname⟩
  | map hname hword hopen hvalue hclose =>
    rw [lower_eq_toLower] at hword
    -- the bracket has taken a character, so the value is read from less
    have hlt := length_lt_of_reads_cons hname hopen
    obtain ⟨tokens, hvalue, hinner⟩ := exists_isType_of_reads hvalue
    have hbehind := hinner.append (.symbol hclose (by decide))
    exact ⟨_, .map hword hvalue,
      (LeadsTo.name hname).append ((LeadsTo.symbol hopen (by decide)).append hbehind)⟩
  | bareMap hname hword _ =>
    rw [lower_eq_toLower] at hword
    exact ⟨_, .bareMap hword, (LeadsTo.name hname).trimStart⟩
  | emptyRecord hname hword hopen hclose =>
    rw [lower_eq_toLower] at hword
    have hbehind := (LeadsTo.symbol hopen (by decide)).append (.symbol hclose (by decide))
    exact ⟨_, .record hword .empty, (LeadsTo.name hname).append hbehind⟩
  | record hname hword hopen hcolumns hclose =>
    rw [lower_eq_toLower] at hword
    have hlt := length_lt_of_reads_cons hname hopen
    obtain ⟨tokens, own, rfl, hown, hdistinct, hinner⟩ := exists_isColumns_of_reads hcolumns
    have hbehind := hinner.append (.symbol hclose (by decide))
    exact ⟨_, .record hword (.columns hown (hdistinct List.nodup_nil)),
      (LeadsTo.name hname).append ((LeadsTo.symbol hopen (by decide)).append hbehind)⟩
termination_by (cs.length, 0)

/-- A column that was read has a derivation. -/
theorem exists_isColumn_of_readsColumn {cs rest : List Char} {c : Column}
    (h : ReadsColumn cs c rest) : ∃ tokens, IsColumn tokens c ∧ LeadsTo cs tokens rest := by
  cases h with
  | typed hname hcolon htype =>
    have hlt := length_lt_of_reads_cons hname hcolon
    obtain ⟨tokens, htype, hinner⟩ := exists_isType_of_reads htype
    exact ⟨_, .typed _ htype,
      (LeadsTo.name hname).append ((LeadsTo.symbol hcolon (by decide)).append hinner)⟩
  | untyped hname _ => exact ⟨_, .untyped _, (LeadsTo.name hname).trimStart⟩
termination_by (cs.length, 1)

/-- Columns that were read behind other ones have a derivation of their own; names that were
different before still are. -/
theorem exists_isColumns_of_reads {cs rest : List Char} {before columns : List Column}
    (h : Reads (scanColumns before cs) columns rest) :
    ∃ tokens own, columns = before ++ own ∧ IsColumns tokens own
      ∧ (Schema.NamesDistinct ⟨before⟩ → Schema.NamesDistinct ⟨columns⟩)
      ∧ LeadsTo cs tokens rest := by
  cases readsColumns_of_reads h with
  | last hcolumn hnew _ =>
    obtain ⟨tokens, hcolumn, hfront⟩ := exists_isColumn_of_readsColumn hcolumn
    exact ⟨tokens, _, rfl, .last hcolumn, fun hbefore => hbefore.concat hnew, hfront.trimStart⟩
  | more hcolumn hnew hcomma hcolumns =>
    have hlt := Nat.lt_trans (Text.length_lt_of_trimStart_cons hcomma) hcolumn.length_lt
    obtain ⟨tokens, hcolumn, hfront⟩ := exists_isColumn_of_readsColumn hcolumn
    obtain ⟨behind, own, rfl, hown, hdistinct, hmore⟩ := exists_isColumns_of_reads hcolumns
    exact ⟨_, _, List.append_assoc .., .more hcolumn hown,
      fun hbefore => hdistinct (hbefore.concat hnew),
      hfront.append ((LeadsTo.symbol hcomma (by decide)).append hmore)⟩
termination_by (cs.length, 2)

end

/-! ## Sentences are read -/

/-- Holds of the tokens that may stand behind a type or a column: none, a comma or the end of a
record. -/
def EndsColumn (behind : List Token) : Prop :=
  ∀ t ∈ behind.head?, t = .symbol ',' ∨ t = .symbol ')'

/-- Holds of the tokens that may stand behind columns: none, or the end of a record. -/
def EndsColumns (behind : List Token) : Prop := ∀ t ∈ behind.head?, t = .symbol ')'

variable {cs : List Char} {tokens behind : List Token}

/-- What may stand behind columns may stand behind one. -/
theorem EndsColumns.endsColumn (h : EndsColumns behind) : EndsColumn behind :=
  fun t ht => .inr (h t ht)

/-- In front of what ends a column stands no other symbol. -/
theorem EndsColumn.trimStart_ne {c : Char} (h : EndsColumn behind) (hcut : CutInto cs behind)
    (hsymbol : c ∈ symbols) (hother : c ≠ ',' ∧ c ≠ ')') (inner : List Char) :
    trimStart cs ≠ c :: inner := by
  intro htrim
  obtain ⟨more, rfl, -⟩ := hcut.exists_of_symbol hsymbol htrim
  rcases h (.symbol c) rfl with heq | heq
  · exact hother.1 (Token.symbol.inj heq)
  · exact hother.2 (Token.symbol.inj heq)

/-- In front of what ends columns stands no comma. -/
theorem EndsColumns.trimStart_ne (h : EndsColumns behind) (hcut : CutInto cs behind)
    (inner : List Char) : trimStart cs ≠ ',' :: inner := by
  intro htrim
  obtain ⟨more, rfl, -⟩ := hcut.exists_of_symbol (by decide) htrim
  cases h (.symbol ',') rfl

/-- Columns start with a name. -/
theorem IsColumns.exists_name {columns : List Column} (h : IsColumns tokens columns) :
    ∃ name more, tokens = .name name :: more := by
  cases h with
  | last hcolumn => cases hcolumn <;> exact ⟨_, _, rfl⟩
  | more hcolumn _ => cases hcolumn <;> exact ⟨_, _, rfl⟩

theorem endsColumn_symbol {c : Char} (h : c = ',' ∨ c = ')') (behind : List Token) :
    EndsColumn (.symbol c :: behind) := by
  intro t ht
  obtain rfl := Option.some.inj ht
  exact h.imp (congrArg Token.symbol) (congrArg Token.symbol)

theorem endsColumns_close (behind : List Token) : EndsColumns (.symbol ')' :: behind) :=
  fun _ ht => (Option.some.inj ht).symm

/-- What is between brackets is cut with the bracket behind it. -/
theorem cutInto_bracketed {word : String}
    (h : CutInto cs (.name word :: .symbol '(' :: (tokens ++ [.symbol ')']) ++ behind)) :
    ∃ r inner, Reads (scanName cs) word r ∧ trimStart r = '(' :: inner
      ∧ CutInto inner (tokens ++ .symbol ')' :: behind) := by
  obtain ⟨r, hname, h⟩ := cutInto_name_iff.1 h
  obtain ⟨inner, hopen, -, h⟩ := cutInto_symbol_iff.1 h
  have hinner : CutInto inner ((tokens ++ [.symbol ')']) ++ behind) := h
  rw [List.append_assoc] at hinner
  exact ⟨r, inner, hname, hopen, hinner⟩

mutual

/-- Behind a derivation of a type its scanner stops where the tokens behind it start. -/
theorem IsType.reads {tokens : List Token} {type : ColumnType} (h : IsType tokens type)
    {cs : List Char} {behind : List Token} (hcut : CutInto cs (tokens ++ behind))
    (hends : EndsColumn behind) :
    ∃ rest, Reads (scanType cs) type rest ∧ CutInto rest behind := by
  cases h with
  | primitive hword =>
    obtain ⟨rest, hname, hrest⟩ := cutInto_name_iff.1 hcut
    rw [← lower_eq_toLower] at hword
    exact ⟨rest, (ReadsType.primitive hname (primitiveOfKeyword?_eq_some_iff.2 hword)).reads, hrest⟩
  | bareMap hword =>
    obtain ⟨rest, hname, hrest⟩ := cutInto_name_iff.1 hcut
    rw [← lower_eq_toLower] at hword
    have hnone := hends.trimStart_ne hrest (c := '(') (by decide) (by decide)
    exact ⟨_, (ReadsType.bareMap hname hword hnone).reads,
      hrest.of_trimStart_eq (Text.trimStart_trimStart rest)⟩
  | map hword hvalue =>
    obtain ⟨r, inner, hname, hopen, hinner⟩ := cutInto_bracketed hcut
    obtain ⟨r', hvalue, hr'⟩ := hvalue.reads hinner (endsColumn_symbol (.inr rfl) behind)
    obtain ⟨rest, hclose, -, hrest⟩ := cutInto_symbol_iff.1 hr'
    rw [← lower_eq_toLower] at hword
    exact ⟨rest, (ReadsType.map hname hword hopen hvalue hclose).reads, hrest⟩
  | record hword hcolumns =>
    obtain ⟨r, inner, hname, hopen, hinner⟩ := cutInto_bracketed hcut
    rw [← lower_eq_toLower] at hword
    cases hcolumns with
    | empty =>
      obtain ⟨rest, hclose, -, hrest⟩ := cutInto_symbol_iff.1 hinner
      exact ⟨rest, (ReadsType.emptyRecord hname hword hopen hclose).reads, hrest⟩
    | columns hcolumns hdistinct =>
      obtain ⟨r', hcolumns, hr'⟩ := hcolumns.reads [] hdistinct hinner (endsColumns_close behind)
      obtain ⟨rest, hclose, -, hrest⟩ := cutInto_symbol_iff.1 hr'
      exact ⟨rest, (ReadsType.record hname hword hopen hcolumns hclose).reads, hrest⟩

/-- Behind a derivation of a column its scanner stops where the tokens behind it start. -/
theorem IsColumn.reads {tokens : List Token} {c : Column} (h : IsColumn tokens c)
    {cs : List Char} {behind : List Token} (hcut : CutInto cs (tokens ++ behind))
    (hends : EndsColumn behind) :
    ∃ rest, ReadsColumn cs c rest ∧ CutInto rest behind := by
  cases h with
  | untyped name =>
    obtain ⟨rest, hname, hrest⟩ := cutInto_name_iff.1 hcut
    have hnone := hends.trimStart_ne hrest (c := ':') (by decide) (by decide)
    exact ⟨_, .untyped hname hnone, hrest.of_trimStart_eq (Text.trimStart_trimStart rest)⟩
  | typed name htype =>
    obtain ⟨r, hname, hr⟩ := cutInto_name_iff.1 hcut
    obtain ⟨inner, hcolon, -, hinner⟩ := cutInto_symbol_iff.1 hr
    obtain ⟨rest, htype, hrest⟩ := htype.reads hinner hends
    exact ⟨rest, .typed hname hcolon htype, hrest⟩

/-- So do those of columns, behind other ones of the same schema. -/
theorem IsColumns.reads {tokens : List Token} {columns : List Column} (h : IsColumns tokens columns)
    {cs : List Char} {behind : List Token} (before : List Column)
    (hdistinct : Schema.NamesDistinct ⟨before ++ columns⟩)
    (hcut : CutInto cs (tokens ++ behind)) (hends : EndsColumns behind) :
    ∃ rest, Reads (scanColumns before cs) (before ++ columns) rest ∧ CutInto rest behind := by
  cases h with
  | last hcolumn =>
    obtain ⟨r, hcolumn, hr⟩ := hcolumn.reads hcut hends.endsColumn
    exact ⟨_, (ReadsColumns.last hcolumn hdistinct.not_mem_front (hends.trimStart_ne hr)).reads,
      hr.of_trimStart_eq (Text.trimStart_trimStart r)⟩
  | @more tokens others c columns hcolumn hcolumns =>
    rw [List.append_assoc] at hcut
    obtain ⟨r, hcolumn, hr⟩ := hcolumn.reads hcut (endsColumn_symbol (.inl rfl) _)
    obtain ⟨r', hcomma, -, hr'⟩ := cutInto_symbol_iff.1 hr
    -- the column is one of those in front of the others
    have hnew := hdistinct.not_mem_front
    rw [List.append_cons] at hdistinct ⊢
    obtain ⟨rest, hcolumns, hrest⟩ := hcolumns.reads (before ++ [c]) hdistinct hr' hends
    exact ⟨rest, (ReadsColumns.more hcolumn hnew hcomma hcolumns).reads, hrest⟩

end

/-! ## Whole texts -/

/-- A whole text is read where its tokens derive the schema, and nothing is left of it. -/
theorem scanSchema_eq_ok_iff {columns : List Column} :
    scanSchema cs = .ok columns ↔ ∃ tokens, CutInto cs tokens ∧ IsSchema tokens columns := by
  constructor
  · intro h
    unfold scanSchema at h
    split at h
    · next hnil =>
      obtain rfl := Except.ok.inj h
      exact ⟨[], cutInto_nil_iff.2 hnil, .empty⟩
    · cases h
    · split at h
      · cases h
      · next scanned hscan =>
        split at h
        · next hend =>
          obtain rfl := Except.ok.inj h
          obtain ⟨tokens, own, hown, hcolumns, hdistinct, hfront⟩ :=
            exists_isColumns_of_reads (.of_eq_ok hscan)
          obtain rfl : scanned.value = own := hown
          -- the text leads by the tokens to its end
          have hcut := hfront [] (cutInto_nil_iff.2 hend)
          rw [List.append_nil] at hcut
          exact ⟨tokens, hcut, .columns hcolumns (hdistinct List.nodup_nil)⟩
        · cases h
  · rintro ⟨tokens, hcut, hschema⟩
    unfold scanSchema
    cases hschema with
    | empty => rw [cutInto_nil_iff.1 hcut]
    | columns hcolumns hdistinct =>
      -- the first token is a name, so the text is neither blank nor starts with a bracket
      obtain ⟨name, more, hname⟩ := hcolumns.exists_name
      obtain ⟨r, hname, -⟩ := cutInto_name_iff.1 (hname ▸ hcut)
      obtain ⟨c, t, htrim, hstart⟩ := exists_head_of_reads hname
      rw [← List.append_nil tokens] at hcut
      obtain ⟨rest, hread, hrest⟩ :=
        hcolumns.reads [] hdistinct hcut (fun _ ht => by cases ht)
      obtain ⟨_, hscan⟩ := hread.eq_ok
      split
      · next hnil => cases htrim.symm.trans hnil
      · next hbracket =>
        obtain rfl := (List.cons.inj (htrim.symm.trans hbracket)).1
        exact absurd hstart (by decide)
      · rw [hscan]
        simp only [cutInto_nil_iff.1 hrest]
        rfl

end Grammar

namespace Schema

/-- Parsing is scanning the characters of the text. -/
theorem parse_eq_ok_iff_scanSchema {text : String} {s : Schema} :
    parse text = .ok s ↔ Grammar.scanSchema text.toList = .ok s.columns := by
  obtain ⟨own⟩ := s
  unfold parse
  cases Grammar.scanSchema text.toList with
  | ok columns => simp
  | error stuck => simp

/-- A text that is not read is a failure of parsing. -/
theorem group_of_parse_eq_error {text : String} {e : LoadError} (h : parse text = .error e) :
    e.group = .parse := by
  unfold parse at h
  split at h
  · cases h
  · obtain rfl := Except.error.inj h
    rfl

/-- Text is read as a schema just when it is a sentence that stands for this schema; any other text
cannot be parsed. -/
theorem parse_eq_ok_iff_denotes (text : String) :
    (∀ s, parse text = .ok s ↔ Grammar.Denotes text s)
      ∧ ((∃ e, parse text = .error e ∧ e.group = .parse) ↔ ¬ ∃ s, Grammar.Denotes text s) := by
  have hok : ∀ s, parse text = .ok s ↔ Grammar.Denotes text s := fun s =>
    parse_eq_ok_iff_scanSchema.trans Grammar.scanSchema_eq_ok_iff
  refine ⟨hok, ?_, ?_⟩
  · rintro ⟨e, herror, -⟩ ⟨s, hs⟩
    cases herror.symm.trans ((hok s).2 hs)
  · intro hnone
    cases hparse : parse text with
    | ok s => exact absurd ⟨s, (hok s).1 hparse⟩ hnone
    | error e => exact ⟨e, rfl, group_of_parse_eq_error hparse⟩

end Schema

end TableScan
