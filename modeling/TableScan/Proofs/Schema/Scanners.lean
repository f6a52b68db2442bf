import TableScan.Proofs.Schema.Columns
import TableScan.Proofs.Text.Trimming
import TableScan.Schema.Grammar

/-!
# What the scanners of schema text read

The scanners give what they read together with the rest of the text. `Reads` holds of a scanner that
gave a value and stopped at a rest, whatever the proof is that the rest is shorter.

Main statements: for each scanner, the ways in which it can read something, each with what stands at
the front of the text and behind it. Names and single characters have one way
(`reads_scanName_iff`, `reads_expect_iff`), types and columns one for each form of the grammar
(`reads_scanType_iff`, `reads_scanColumns_iff`).
-/

namespace TableScan

open Text (Scan trimStart isBlank)

/-- `Reads x value rest`: a scanner gave a value and stopped at a rest. -/
def Reads {cs : List Char} {α : Type} (x : Except Stuck (Scan cs α)) (value : α)
    (rest : List Char) : Prop :=
  ∃ s, x = .ok s ∧ s.value = value ∧ s.rest = rest

namespace Reads

variable {cs rest : List Char} {α : Type} {x : Except Stuck (Scan cs α)} {value : α}

/-- A scanner that read something has answered it, with some proof. -/
theorem eq_ok (h : Reads x value rest) : ∃ lt, x = .ok ⟨value, rest, lt⟩ := by
  obtain ⟨⟨_, _, lt⟩, hx, rfl, rfl⟩ := h
  exact ⟨lt, hx⟩

/-- What a scanner answers is what it read. -/
theorem of_eq_ok {s : Scan cs α} (h : x = .ok s) : Reads x s.value s.rest := ⟨s, h, rfl, rfl⟩

/-- Every scanner takes at least one character. -/
theorem length_lt (h : Reads x value rest) : rest.length < cs.length := by
  obtain ⟨s, -, -, rfl⟩ := h
  exact s.lt

end Reads

namespace Grammar

variable {cs rest : List Char}

/-! ## Names and single characters -/

/-- Names do not begin with white space. -/
theorem isBlank_of_isNameStart {c : Char} (h : isNameStart c = true) : isBlank c = false := by
  -- letters and the underscore, by their code points
  have hc : (65 ≤ c.toNat ∧ c.toNat ≤ 90) ∨ (97 ≤ c.toNat ∧ c.toNat ≤ 122) ∨ c.toNat = 95 := by
    unfold isNameStart at h
    rcases Bool.or_eq_true_iff.1 h with h | h
    · rcases Bool.or_eq_true_iff.1 h with h | h
      · left
        have hupper : decide (c.val ≥ 'A'.val ∧ c.val ≤ 'Z'.val) = true := h
        simpa [UInt32.le_iff_toNat_le] using hupper
      · right; left
        have hlower : (c.val ≥ 'a'.val && c.val ≤ 'z'.val) = true := h
        simpa [UInt32.le_iff_toNat_le] using hlower
    · right; right
      rw [beq_iff_eq] at h
      rw [h]
      rfl
  unfold isBlank
  simp only [Bool.or_eq_false_iff, Bool.and_eq_false_iff, decide_eq_false_iff_not,
    beq_eq_false_iff_ne]
  omega

/-- There is no white space in names. -/
theorem isBlank_of_isNamePart {c : Char} (h : isNamePart c = true) : isBlank c = false := by
  unfold isNamePart Char.isAlphanum at h
  rw [Bool.or_right_comm] at h
  rcases Bool.or_eq_true_iff.1 h with hstart | hdigit
  · exact isBlank_of_isNameStart hstart
  · have hrange : 48 ≤ c.toNat ∧ c.toNat ≤ 57 := by
      have hlimits : (c.val ≥ '0'.val && c.val ≤ '9'.val) = true := hdigit
      simpa [UInt32.le_iff_toNat_le] using hlimits
    unfold isBlank
    simp only [Bool.or_eq_false_iff, Bool.and_eq_false_iff, decide_eq_false_iff_not,
      beq_eq_false_iff_ne]
    omega

/-- Holds of what may stand behind a name. -/
def EndsName (rest : List Char) : Prop := ∀ c ∈ rest.head?, isNamePart c = false

/-- Where a name has ended, it cannot be gone on with. -/
theorem endsName_dropWhile (cs : List Char) : EndsName (cs.dropWhile isNamePart) := by
  intro c hc
  have hhead := List.head?_dropWhile_not isNamePart cs
  rwa [Option.mem_def.1 hc] at hhead

/-- A name starts with a character of its own. -/
theorem exists_cons_of_isName {name : List Char} (h : isName name = true) :
    ∃ c part, name = c :: part ∧ isNameStart c = true := by
  cases name with
  | nil => cases h
  | cons c part => exact ⟨c, part, rfl, (Bool.and_eq_true_iff.1 h).1⟩

/-- One character decides whether a name can be gone on with. -/
theorem endsName_cons {c : Char} (h : isNamePart c = false) (rest : List Char) :
    EndsName (c :: rest) := by
  intro d hd
  obtain rfl : c = d := Option.some.inj hd
  exact h

/-- Trimming stops in front of a name. -/
theorem trimStart_of_isName {name : List Char} (h : isName name = true) (rest : List Char) :
    trimStart (name ++ rest) = name ++ rest := by
  obtain ⟨c, part, rfl, hstart⟩ := exists_cons_of_isName h
  exact Text.trimStart_cons_of_not_blank (isBlank_of_isNameStart hstart) (part ++ rest)

/-- A name is scanned up to a character that is no part of names. -/
theorem scanName_of_trimStart {cs name rest : List Char} (htrim : trimStart cs = name ++ rest)
    (hname : isName name = true) (hrest : EndsName rest) :
    Reads (scanName cs) (String.ofList name) rest := by
  obtain ⟨c, part, rfl, hstart⟩ := exists_cons_of_isName hname
  obtain ⟨-, hpart⟩ := Bool.and_eq_true_iff.1 hname
  rw [List.all_eq_true] at hpart
  -- the name ends where `rest` begins, as no character of a name is in front there
  have htake : (part ++ rest).takeWhile isNamePart = part := by
    rw [List.takeWhile_append_of_pos hpart]
    cases rest with
    | nil => exact List.append_nil part
    | cons d rest => rw [List.takeWhile_cons_of_neg (by simp [hrest d rfl]), List.append_nil]
  have hdrop : (part ++ rest).dropWhile isNamePart = rest := by
    rw [List.dropWhile_append_of_pos hpart]
    cases rest with
    | nil => rfl
    | cons d rest => rw [List.dropWhile_cons_of_neg (by simp [hrest d rfl])]
  unfold scanName
  split
  · next h =>
    rw [htrim] at h
    cases h
  · next d r h =>
    rw [htrim] at h
    obtain rfl : c = d := (List.cons.inj h).1
    obtain rfl : part ++ rest = r := (List.cons.inj h).2
    rw [if_pos hstart]
    exact ⟨_, rfl, congrArg (fun l => String.ofList (c :: l)) htake, hdrop⟩

/-- A name is read as far as it goes on. -/
theorem reads_scanName_iff {name : String} :
    Reads (scanName cs) name rest ↔
      trimStart cs = name.toList ++ rest ∧ isName name.toList = true ∧ EndsName rest := by
  constructor
  -- what is taken is the longest beginning of characters of names
  · rintro ⟨s, hs, rfl, rfl⟩
    unfold scanName at hs
    split at hs
    · cases hs
    · next c r htrim =>
      split at hs
      · next hstart =>
        obtain rfl := Except.ok.inj hs
        simp only [String.toList_ofList]
        refine ⟨?_, Bool.and_eq_true_iff.2 ⟨hstart, List.all_takeWhile⟩, endsName_dropWhile r⟩
        rw [htrim, List.cons_append, List.takeWhile_append_dropWhile]
      · cases hs
  · rintro ⟨htrim, hname, hends⟩
    have h := scanName_of_trimStart htrim hname hends
    rwa [String.ofList_toList] at h

/-- A text in which a name can be read has no other character in front of it. -/
theorem exists_head_of_reads {name : String} (h : Reads (scanName cs) name rest) :
    ∃ c r, trimStart cs = c :: r ∧ isNameStart c = true := by
  obtain ⟨htrim, hname, -⟩ := reads_scanName_iff.1 h
  obtain ⟨c, part, hpart, hstart⟩ := exists_cons_of_isName hname
  exact ⟨c, part ++ rest, by rw [htrim, hpart, List.cons_append], hstart⟩

/-- A character is read just when it stands behind the white space. -/
theorem reads_expect_iff {c : Char} : Reads (expect c cs) () rest ↔ trimStart cs = c :: rest := by
  constructor
  · rintro ⟨s, hs, -, rfl⟩
    unfold expect at hs
    split at hs
    · cases hs
    · next d r htrim =>
      split at hs
      · next hd =>
        obtain rfl := Except.ok.inj hs
        exact htrim.trans (congrArg (· :: r) hd)
      · cases hs
  · intro htrim
    unfold expect
    split
    · next h => cases htrim.symm.trans h
    · next d r h =>
      obtain ⟨rfl, rfl⟩ := List.cons.inj (htrim.symm.trans h)
      rw [if_pos rfl]
      exact ⟨_, rfl, rfl, rfl⟩

/-- Behind a name and the character that follows it is less than the whole. -/
theorem length_lt_of_reads_cons {name : String} {c : Char} {inner : List Char}
    (h : Reads (scanName cs) name rest) (htrim : trimStart rest = c :: inner) :
    inner.length < cs.length :=
  Nat.lt_trans (Text.length_lt_of_trimStart_cons htrim) h.length_lt

/-! ## Types

A type starts with a name, and the name decides how it goes on. Columns are read by the same scanner
in a record and in a whole schema, so the two scanners are told apart here but used together. -/

/-- The ways in which a type is read. -/
inductive ReadsType (cs : List Char) : ColumnType → List Char → Prop where
  /-- The keyword of a primitive. -/
  | primitive {name : String} {p : Primitive} {rest : List Char}
      (hname : Reads (scanName cs) name rest)
      (hword : primitiveOfKeyword? (lower name) = some p) :
      ReadsType cs (.primitive p) rest
  /-- A map with the type of its values in parentheses. -/
  | map {name : String} {value : ColumnType} {r inner behind rest : List Char}
      (hname : Reads (scanName cs) name r) (hword : lower name = "map")
      (hopen : trimStart r = '(' :: inner) (hvalue : Reads (scanType inner) value behind)
      (hclose : trimStart behind = ')' :: rest) :
      ReadsType cs (.map value) rest
  /-- A map without parentheses has values of bytes. -/
  | bareMap {name : String} {r : List Char}
      (hname : Reads (scanName cs) name r) (hword : lower name = "map")
      (hnone : ∀ inner, trimStart r ≠ '(' :: inner) :
      ReadsType cs (.map (.primitive .bytes)) (trimStart r)
  /-- A record may have no columns. -/
  | emptyRecord {name : String} {r inner rest : List Char}
      (hname : Reads (scanName cs) name r) (hword : lower name = "record")
      (hopen : trimStart r = '(' :: inner) (hclose : trimStart inner = ')' :: rest) :
      ReadsType cs (.record []) rest
  /-- A record with its columns in parentheses. -/
  | record {name : String} {columns : List Column} {r inner behind rest : List Char}
      (hname : Reads (scanName cs) name r) (hword : lower name = "record")
      (hopen : trimStart r = '(' :: inner) (hcolumns : Reads (scanColumns [] inner) columns behind)
      (hclose : trimStart behind = ')' :: rest) :
      ReadsType cs (.record columns) rest

/-- What the scanner of types reads, it reads in one of the ways. The cases are those of the
scanner: first the name, then the keyword, then what the keyword asks for. -/
theorem readsType_of_reads {type : ColumnType} (h : Reads (scanType cs) type rest) :
    ReadsType cs type rest := by
  obtain ⟨s, hs, rfl, rfl⟩ := h
  unfold scanType at hs
  split at hs
  · cases hs
  · next name hname =>
    have hname := Reads.of_eq_ok hname
    simp only at hs
    split at hs
    · next p hword =>
      obtain rfl := Except.ok.inj hs
      exact .primitive hname hword
    · split at hs
      · next hmap =>
        split at hs
        · next inner hopen =>
          split at hs
          · cases hs
          · next value hvalue =>
            split at hs
            · cases hs
            · next close hclose =>
              obtain rfl := Except.ok.inj hs
              exact .map hname hmap hopen (.of_eq_ok hvalue)
                (reads_expect_iff.1 (.of_eq_ok hclose))
        · next hnone =>
          obtain rfl := Except.ok.inj hs
          exact .bareMap hname hmap hnone
      · split at hs
        · next hrecord =>
          split at hs
          · cases hs
          · next opened hopened =>
            have hopen := reads_expect_iff.1 (.of_eq_ok hopened)
            split at hs
            · cases hs
            · next r hclose =>
              obtain rfl := Except.ok.inj hs
              exact .emptyRecord hname hrecord hopen hclose
            · split at hs
              · cases hs
              · next columns hcolumns =>
                split at hs
                · cases hs
                · next close hclose =>
                  obtain rfl := Except.ok.inj hs
                  exact .record hname hrecord hopen (.of_eq_ok hcolumns)
                    (reads_expect_iff.1 (.of_eq_ok hclose))
        · cases hs

/-- Columns begin with a name. -/
theorem exists_scanName_of_scanColumns {before columns : List Column}
    (h : Reads (scanColumns before cs) columns rest) :
    ∃ name r, Reads (scanName cs) name r := by
  obtain ⟨s, hs, -, -⟩ := h
  unfold scanColumns at hs
  split at hs
  · cases hs
  · next name hname => exact ⟨_, _, .of_eq_ok hname⟩

/-- The keywords of types with parts are none of the primitives. -/
theorem primitiveOfKeyword?_eq_none {word : String} (h : word = "map" ∨ word = "record") :
    primitiveOfKeyword? word = none := by
  rcases h with rfl | rfl <;> decide

/-- What can be read in one of the ways is read by the scanner. In each case the ways that the
scanner tries before it are excluded. -/
theorem ReadsType.reads {type : ColumnType} (h : ReadsType cs type rest) :
    Reads (scanType cs) type rest := by
  unfold scanType
  cases h with
  | primitive hname hword =>
    obtain ⟨_, hname⟩ := hname.eq_ok
    rw [hname]
    simp only
    split
    · next p hp =>
      obtain rfl := Option.some.inj (hword.symm.trans hp)
      exact ⟨_, rfl, rfl, rfl⟩
    · next hnone => cases hword.symm.trans hnone
  | @map name value r inner behind rest hname hword hopen hvalue hclose =>
    have hother := primitiveOfKeyword?_eq_none (.inl hword)
    obtain ⟨_, hname⟩ := hname.eq_ok
    obtain ⟨_, hvalue⟩ := hvalue.eq_ok
    obtain ⟨_, hclose⟩ := (reads_expect_iff.2 hclose).eq_ok
    rw [hname]
    simp only
    split
    · next hp => cases hother.symm.trans hp
    · rw [if_pos hword]
      split
      · next hinner =>
        obtain rfl := (List.cons.inj (hopen.symm.trans hinner)).2
        rw [hvalue]
        simp only
        rw [hclose]
        exact ⟨_, rfl, rfl, rfl⟩
      · next hnone => exact absurd hopen (hnone _)
  | @bareMap name r hname hword hnone =>
    have hother := primitiveOfKeyword?_eq_none (.inl hword)
    obtain ⟨_, hname⟩ := hname.eq_ok
    rw [hname]
    simp only
    split
    · next hp => cases hother.symm.trans hp
    · rw [if_pos hword]
      exact ⟨_, rfl, rfl, rfl⟩
  | @emptyRecord name r inner rest hname hword hopen hclose =>
    have hother := primitiveOfKeyword?_eq_none (.inr hword)
    obtain ⟨_, hname⟩ := hname.eq_ok
    obtain ⟨_, hopen⟩ := (reads_expect_iff.2 hopen).eq_ok
    rw [hname]
    simp only
    split
    · next hp => cases hother.symm.trans hp
    · rw [if_neg (by rw [hword]; decide), if_pos hword, hopen]
      simp only
      split
      · next hnil => cases hclose.symm.trans hnil
      · next hr =>
        obtain rfl := (List.cons.inj (hclose.symm.trans hr)).2
        exact ⟨_, rfl, rfl, rfl⟩
      · next hne => exact absurd hclose (hne _)
  | @record name columns r inner behind rest hname hword hopen hcolumns hclose =>
    have hother := primitiveOfKeyword?_eq_none (.inr hword)
    -- columns start with a name, so the record is not closed in front of them
    obtain ⟨_, _, hfirst⟩ := exists_scanName_of_scanColumns hcolumns
    obtain ⟨c, t, htrim, hstart⟩ := exists_head_of_reads hfirst
    obtain ⟨_, hname⟩ := hname.eq_ok
    obtain ⟨_, hopen⟩ := (reads_expect_iff.2 hopen).eq_ok
    obtain ⟨_, hcolumns⟩ := hcolumns.eq_ok
    obtain ⟨_, hclose⟩ := (reads_expect_iff.2 hclose).eq_ok
    rw [hname]
    simp only
    split
    · next hp => cases hother.symm.trans hp
    · rw [if_neg (by rw [hword]; decide), if_pos hword, hopen]
      simp only
      split
      · next hnil => cases htrim.symm.trans hnil
      · next hr =>
        obtain rfl := (List.cons.inj (htrim.symm.trans hr)).1
        exact absurd hstart (by decide)
      · rw [hcolumns]
        simp only
        rw [hclose]
        exact ⟨_, rfl, rfl, rfl⟩

/-- The scanner of types reads just what the grammar of types allows. -/
theorem reads_scanType_iff {type : ColumnType} :
    Reads (scanType cs) type rest ↔ ReadsType cs type rest :=
  ⟨readsType_of_reads, ReadsType.reads⟩

/-! ## Columns -/

/-- The ways in which one column is read. -/
inductive ReadsColumn (cs : List Char) : Column → List Char → Prop where
  /-- A name, a colon and a type. -/
  | typed {name : String} {type : ColumnType} {r inner rest : List Char}
      (hname : Reads (scanName cs) name r) (hcolon : trimStart r = ':' :: inner)
      (htype : Reads (scanType inner) type rest) :
      ReadsColumn cs ⟨name, type⟩ rest
  /-- A name alone is a column of bytes. -/
  | untyped {name : String} {r : List Char}
      (hname : Reads (scanName cs) name r) (hnone : ∀ inner, trimStart r ≠ ':' :: inner) :
      ReadsColumn cs ⟨name, .primitive .bytes⟩ (trimStart r)

/-- The ways in which columns are read behind other ones: the last one, and one with more behind
it. -/
inductive ReadsColumns (before : List Column) (cs : List Char) :
    List Column → List Char → Prop where
  | last {c : Column} {r : List Char}
      (hcolumn : ReadsColumn cs c r) (hnew : c.name ∉ before.map ColumnOf.name)
      (hnone : ∀ more, trimStart r ≠ ',' :: more) :
      ReadsColumns before cs (before ++ [c]) (trimStart r)
  | more {c : Column} {columns : List Column} {r behind rest : List Char}
      (hcolumn : ReadsColumn cs c r) (hnew : c.name ∉ before.map ColumnOf.name)
      (hcomma : trimStart r = ',' :: behind)
      (hcolumns : Reads (scanColumns (before ++ [c]) behind) columns rest) :
      ReadsColumns before cs columns rest

/-- A column has some characters. -/
theorem ReadsColumn.length_lt {c : Column} (h : ReadsColumn cs c rest) :
    rest.length < cs.length := by
  cases h with
  | typed hname hcolon htype =>
    exact Nat.lt_trans htype.length_lt (length_lt_of_reads_cons hname hcolon)
  | untyped hname _ => exact Nat.lt_of_le_of_lt (Text.length_trimStart_le _) hname.length_lt

/-- What the scanner of columns reads, it reads in one of the two ways: it reads one column, refuses
a name that was there before, and looks for a comma. -/
theorem readsColumns_of_reads {before columns : List Column}
    (h : Reads (scanColumns before cs) columns rest) : ReadsColumns before cs columns rest := by
  obtain ⟨s, hs, rfl, rfl⟩ := h
  unfold scanColumns at hs
  split at hs
  · cases hs
  · next name hname =>
    have hname := Reads.of_eq_ok hname
    simp only at hs
    split at hs
    · cases hs
    · next type htype =>
      -- one column, with its type or without
      have hcolumn : ReadsColumn cs ⟨name.value, type.value⟩ type.rest := by
        split at htype
        · next inner hcolon =>
          split at htype
          · cases htype
          · next typed htyped =>
            obtain rfl := Except.ok.inj htype
            exact .typed hname hcolon (.of_eq_ok htyped)
        · next hnone =>
          obtain rfl := Except.ok.inj htype
          exact .untyped hname hnone
      split at hs
      · cases hs
      · next schema hpush =>
        obtain ⟨hnew, rfl⟩ := Schema.push_eq_ok_iff.1 hpush
        split at hs
        · next behind hcomma =>
          split at hs
          · cases hs
          · next more hmore =>
            obtain rfl := Except.ok.inj hs
            exact .more hcolumn hnew hcomma (.of_eq_ok hmore)
        · next hnone =>
          obtain rfl := Except.ok.inj hs
          exact .last hcolumn hnew hnone

/-- What stands behind a column that was read: nothing that belongs to the columns, or a comma and
more of them. -/
def scanBehind (before : List Column) (column : Scan cs Column) :
    Except Stuck (Scan cs (List Column)) :=
  match Schema.push ⟨before⟩ column.value with
  | .error _ => .error ⟨.repeatedColumn column.value.name, column.rest⟩
  | .ok schema =>
    match h : trimStart column.rest with
    | ',' :: r =>
      match scanColumns schema.columns r with
      | .error e => .error e
      | .ok columns => .ok (columns.lift (Nat.le_of_lt (column.lt_of_trimStart_cons h)))
    | r => .ok ⟨schema.columns, r, column.lt_of_trimStart h⟩

/-- Columns are one column and what stands behind it. -/
theorem scanColumns_of_readsColumn {c : Column} (h : ReadsColumn cs c rest) (before : List Column) :
    ∃ lt, scanColumns before cs = scanBehind before ⟨c, rest, lt⟩ := by
  refine ⟨h.length_lt, ?_⟩
  unfold scanColumns
  cases h with
  | typed hname hcolon htype =>
    obtain ⟨_, hname⟩ := hname.eq_ok
    obtain ⟨_, htype⟩ := htype.eq_ok
    rw [hname]
    simp only
    split
    · next heq =>
      split at heq
      · next hinner =>
        obtain rfl := (List.cons.inj (hcolon.symm.trans hinner)).2
        rw [htype] at heq
        cases heq
      · next hnone => exact absurd hcolon (hnone _)
    · next heq =>
      split at heq
      · next hinner =>
        obtain rfl := (List.cons.inj (hcolon.symm.trans hinner)).2
        rw [htype] at heq
        obtain rfl := Except.ok.inj heq
        rfl
      · next hnone => exact absurd hcolon (hnone _)
  | untyped hname hnone =>
    obtain ⟨_, hname⟩ := hname.eq_ok
    rw [hname]
    simp only
    rfl

/-- What can be read in one of the two ways is read by the scanner. -/
theorem ReadsColumns.reads {before columns : List Column}
    (h : ReadsColumns before cs columns rest) :
    Reads (scanColumns before cs) columns rest := by
  cases h with
  | @last c r hcolumn hnew hnone =>
    obtain ⟨_, hscan⟩ := scanColumns_of_readsColumn hcolumn before
    rw [hscan, scanBehind, Schema.push_eq_ok_iff.2 ⟨hnew, rfl⟩]
    simp only
    exact ⟨_, rfl, rfl, rfl⟩
  | more hcolumn hnew hcomma hcolumns =>
    obtain ⟨_, hscan⟩ := scanColumns_of_readsColumn hcolumn before
    obtain ⟨_, hcolumns⟩ := hcolumns.eq_ok
    rw [hscan, scanBehind, Schema.push_eq_ok_iff.2 ⟨hnew, rfl⟩]
    simp only
    split
    · next hbehind =>
      obtain rfl := (List.cons.inj (hcomma.symm.trans hbehind)).2
      rw [hcolumns]
      exact ⟨_, rfl, rfl, rfl⟩
    · next hnone => exact absurd hcomma (hnone _)

/-- The scanner of columns reads just what the grammar of columns allows. -/
theorem reads_scanColumns_iff {before columns : List Column} :
    Reads (scanColumns before cs) columns rest ↔ ReadsColumns before cs columns rest :=
  ⟨readsColumns_of_reads, ReadsColumns.reads⟩

end Grammar

end TableScan
