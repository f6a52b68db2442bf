import TableScan.Proofs.Results
import TableScan.Proofs.Schema.Walks

/-!
# Schema text by byte positions

The parser of schemas, as a walk of a cursor through the text (`Walk.wholeSchema`). Its calls are
nested hardly deeper than the text is long: each of them but the first reads a name, or goes on to
one that does, before it makes another.

The scanners of characters are told as sequences first, without the proofs that a rest is shorter
(`Grammar.outcome_scanType`, `Grammar.outcome_scanColumns`). Main statement: the walk follows the
scanner of whole texts (`Walk.follows_wholeSchema`).
-/

namespace TableScan

open Text (Scan trimStart length_trimStart_le)
open Walk (complete ifNext outcome)

/-! ## Scanners in sequence -/

namespace Grammar

/-- What is read of columns where there may be none: in front of the end or of a closing bracket. -/
def columnsIn (cs : List Char) : Except Stuck (List Column × List Char) :=
  match trimStart cs with
  | [] => .ok ([], [])
  | ')' :: r => .ok ([], ')' :: r)
  | _ => outcome (scanColumns [] cs)

/-- What is read of a type behind the keyword of maps. -/
def mapBehind (cs : List Char) : Except Stuck (ColumnType × List Char) :=
  ifNext '(' cs
    (fun r => do
      let (value, r) ← outcome (scanType r)
      let (_, r) ← outcome (expect ')' r)
      return (.map value, r))
    fun r => .ok (.map (.primitive .bytes), r)

/-- What is read of a type behind the keyword of records. -/
def recordBehind (cs : List Char) : Except Stuck (ColumnType × List Char) := do
  let (_, r) ← outcome (expect '(' cs)
  let (nested, r) ← columnsIn r
  let (_, r) ← outcome (expect ')' r)
  return (.record nested, r)

/-- What is read of a type behind its first word. -/
def typeBehind (word : String) (cs : List Char) : Except Stuck (ColumnType × List Char) :=
  match primitiveOfKeyword? (lower word) with
  | some p => .ok (.primitive p, cs)
  | none =>
    if lower word = "map" then mapBehind cs
    else if lower word = "record" then recordBehind cs
    else .error ⟨.unknownType (lower word), cs⟩

/-- The type of a column behind its name. -/
def columnTypeBehind (cs : List Char) : Except Stuck (ColumnType × List Char) :=
  ifNext ':' cs (fun r => outcome (scanType r)) fun r => .ok (.primitive .bytes, r)

/-- What is read behind the name of a column. -/
def columnsBehind (before : List Column) (word : String) (cs : List Char) :
    Except Stuck (List Column × List Char) := do
  let (type, r) ← columnTypeBehind cs
  match Schema.push ⟨before⟩ ⟨word, type⟩ with
  | .error _ => .error ⟨.repeatedColumn word, r⟩
  | .ok schema =>
    ifNext ',' r (fun r => outcome (scanColumns schema.columns r)) fun r => .ok (schema.columns, r)

variable {cs r : List Char}

/-- There are no columns at the end of the text. -/
theorem columnsIn_of_end (h : trimStart cs = []) : columnsIn cs = .ok ([], []) := by
  unfold columnsIn
  rw [h]

/-- Nor are there any in front of a closing bracket. -/
theorem columnsIn_of_close (h : trimStart cs = ')' :: r) : columnsIn cs = .ok ([], ')' :: r) := by
  unfold columnsIn
  rw [h]
  rfl

/-- In front of all else there are some. -/
theorem columnsIn_of_ne (hend : trimStart cs ≠ []) (hclose : ∀ r, trimStart cs ≠ ')' :: r) :
    columnsIn cs = outcome (scanColumns [] cs) := by
  unfold columnsIn
  split
  · next h => exact absurd h hend
  · next r h => exact absurd h (hclose r)
  · rfl

/-- The type of a column takes characters, or white space at most. -/
theorem length_le_of_columnTypeBehind {type : ColumnType}
    (h : columnTypeBehind cs = .ok (type, r)) : r.length ≤ cs.length := by
  -- with a colon a type is read, without one it is bytes
  rcases Walk.ifNext_cases ':' cs _ _ with ⟨inner, hinner, heq⟩ | ⟨-, heq⟩
  · rw [columnTypeBehind, heq] at h
    exact Nat.le_of_lt (Nat.lt_trans (Walk.length_lt_of_outcome h)
      (Text.length_lt_of_trimStart_cons hinner))
  · rw [columnTypeBehind, heq] at h
    obtain ⟨-, rfl⟩ := Prod.mk.inj (Except.ok.inj h)
    exact length_trimStart_le cs

/-- A type is read by its first word. -/
theorem outcome_scanType (cs : List Char) :
    outcome (scanType cs) = outcome (scanName cs) >>= fun p => typeBehind p.1 p.2 := by
  rw [scanType]
  cases scanName cs with
  | error stuck => rfl
  | ok word =>
    show _ = typeBehind word.value word.rest
    unfold typeBehind
    dsimp only
    cases primitiveOfKeyword? (lower word.value) with
    | some p => rfl
    | none =>
      dsimp only
      split
      · -- a map, with a type in brackets or without
        unfold mapBehind
        split
        · next r hr =>
          rw [Walk.ifNext_of_eq hr]
          cases scanType r with
          | error stuck => rfl
          | ok value =>
            show _ = outcome (expect ')' value.rest) >>= _
            dsimp only
            cases expect ')' value.rest <;> rfl
        · next hne =>
          rw [Walk.ifNext_of_ne hne]
          rfl
      · split
        · -- a record, whose columns end where there are none or behind the last of them
          unfold recordBehind
          cases expect '(' word.rest with
          | error stuck => rfl
          | ok opened =>
            show _ = columnsIn opened.rest >>= _
            dsimp only
            split
            · next h =>
              rw [columnsIn_of_end h]
              rfl
            · next r h =>
              rw [columnsIn_of_close h]
              rfl
            · next hend hclose =>
              rw [columnsIn_of_ne hend hclose]
              cases scanColumns [] opened.rest with
              | error stuck => rfl
              | ok columns =>
                show _ = outcome (expect ')' columns.rest) >>= _
                dsimp only
                cases expect ')' columns.rest <;> rfl
        · rfl

/-- Columns are read by the name of the first one. -/
theorem outcome_scanColumns (before : List Column) (cs : List Char) :
    outcome (scanColumns before cs)
      = outcome (scanName cs) >>= fun p => columnsBehind before p.1 p.2 := by
  rw [scanColumns]
  cases scanName cs with
  | error stuck => rfl
  | ok word =>
    show _ = columnsBehind before word.value word.rest
    unfold columnsBehind
    dsimp only
    split
    · next stuck htyped =>
      -- the type of the column fails, and with it the columns
      have htype : columnTypeBehind word.rest = .error stuck := by
        unfold columnTypeBehind
        split at htyped
        · next r hr =>
          rw [Walk.ifNext_of_eq hr]
          split at htyped
          · next hscan =>
            rw [hscan, Except.error.inj htyped]
            rfl
          · cases htyped
        · cases htyped
      rw [htype]
      rfl
    · next type htyped =>
      -- the type is there, and the name decides whether it is taken
      have htype : columnTypeBehind word.rest = .ok (type.value, type.rest) := by
        unfold columnTypeBehind
        split at htyped
        · next r hr =>
          rw [Walk.ifNext_of_eq hr]
          split at htyped
          · cases htyped
          · next hscan =>
            rw [hscan, ← Except.ok.inj htyped]
            rfl
        · next hne =>
          rw [Walk.ifNext_of_ne hne, ← Except.ok.inj htyped]
      rw [htype]
      show outcome (match Schema.push ⟨before⟩ ⟨word.value, type.value⟩ with
        | .error _ => _
        | .ok schema => _) = match Schema.push ⟨before⟩ ⟨word.value, type.value⟩ with
        | .error _ => _
        | .ok schema => _
      cases Schema.push ⟨before⟩ ⟨word.value, type.value⟩ with
      | error e => rfl
      | ok schema =>
        dsimp only
        split
        · next r hr =>
          rw [Walk.ifNext_of_eq hr]
          cases scanColumns schema.columns r <;> rfl
        · next hne =>
          rw [Walk.ifNext_of_ne hne]
          rfl

/-- A list of columns as a schema. -/
def schemaOf (x : Except Stuck (List Column × List Char)) : Except Stuck (Schema × List Char) :=
  x.map fun p => (⟨p.1⟩, p.2)

/-- A whole text is its columns, and nothing behind them. -/
theorem map_scanSchema (cs : List Char) :
    (scanSchema cs).map (fun columns => (Schema.mk columns, ([] : List Char)))
      = schemaOf (columnsIn cs) >>= complete := by
  unfold scanSchema
  split
  · next h =>
    rw [columnsIn_of_end h]
    rfl
  · next r h =>
    rw [columnsIn_of_close h]
    rfl
  · next hend hclose =>
    rw [columnsIn_of_ne hend hclose]
    cases scanColumns [] cs with
    | error stuck => rfl
    | ok columns =>
      show _ = complete (Schema.mk columns.value, columns.rest)
      unfold complete
      dsimp only
      cases trimStart columns.rest <;> rfl

end Grammar

/-! ## The parser as a walk -/

namespace Walk

open Grammar (schemaOf)

/-- A column at the end of a schema, under a name that is not taken. -/
def push (schema : Schema) (c : Column) : Walk Schema :=
  match schema.push c with
  | .error _ => refuse (.repeatedColumn c.name)
  | .ok longer => return longer

/-- The type of a column behind its name: bytes, if there is none. -/
def typed (type : Walk ColumnType) : Walk ColumnType := do
  let colon ← eat ':'
  if colon then type else return .primitive .bytes

/-- The type of a map behind the keyword. -/
def mapOf (type : Walk ColumnType) : Walk ColumnType := do
  let opened ← eat '('
  if opened then do
    let value ← type
    expect ')'
    return .map value
  else return .map (.primitive .bytes)

/-- The type of a record behind the keyword. -/
def recordOf (columns : Walk Schema) : Walk ColumnType := do
  expect '('
  let nested ← columns
  expect ')'
  return .record nested.columns

mutual

/-- The columns of a schema, up to the end or a closing bracket. -/
def columns : (calls : Nat) → Walk Schema
  | 0 => lost
  | calls + 1 => do
    let ended ← atEnd
    if ended then return .empty
    else do
      let next ← peek
      if next = some ')' then return .empty else columnsAfter calls .empty

/-- One or more columns between commas, after those of the same schema before them. -/
def columnsAfter : (calls : Nat) → (before : Schema) → Walk Schema
  | 0, _ => lost
  | calls + 1, before => do
    let word ← name
    let type ← typed (columnType calls)
    let longer ← push before ⟨word, type⟩
    let more ← eat ','
    if more then columnsAfter calls longer else return longer

/-- A type by its first word; those of maps and records go on in brackets. -/
def columnType : (calls : Nat) → Walk ColumnType
  | 0 => lost
  | calls + 1 => do
    let word ← name
    match Grammar.primitiveOfKeyword? (Grammar.lower word) with
    | some p => return .primitive p
    | none =>
      if Grammar.lower word = "map" then mapOf (columnType calls)
      else if Grammar.lower word = "record" then recordOf (columns calls)
      else refuse (.unknownType (Grammar.lower word))

end

/-- The schema of a whole text. -/
def wholeSchema (calls : Nat) : Walk Schema := whole (columns calls)

/-! ## The walk follows the scanners -/

variable {calls : Nat} {cs : List Char}

/-- A new name is taken. -/
theorem follows_push {schema longer : Schema} {c : Column} (h : schema.push c = .ok longer)
    (cs : List Char) : Follows (push schema c) cs (.ok (longer, cs)) := by
  unfold push
  rw [h]
  exact follows_pure longer cs

theorem follows_push_error {schema : Schema} {c : Column} {e : LoadError}
    (h : schema.push c = .error e) (cs : List Char) :
    Follows (push schema c) cs (.error ⟨.repeatedColumn c.name, cs⟩) := by
  unfold push
  rw [h]
  exact follows_refuse (.repeatedColumn c.name) cs

/-- The type behind a name is followed where the walk of types follows the scanner. -/
theorem follows_typed {type : Walk ColumnType}
    (h : ∀ r, trimStart cs = ':' :: r → Follows type r (outcome (Grammar.scanType r))) :
    Follows (typed type) cs (Grammar.columnTypeBehind cs) :=
  follows_eat_bind h (follows_pure _ _)

/-- So is the type of the values of a map. -/
theorem follows_mapOf {type : Walk ColumnType}
    (h : ∀ r, trimStart cs = '(' :: r → Follows type r (outcome (Grammar.scanType r))) :
    Follows (mapOf type) cs (Grammar.mapBehind cs) := by
  refine follows_eat_bind (fun r hr => ?_) (follows_pure _ _)
  refine (h r hr).bind fun value r _ => ?_
  exact (follows_expect ')' _).bind fun _ r _ => follows_pure (ColumnType.map value) r

/-- So are the columns of a record. -/
theorem follows_recordOf {nested : Walk Schema}
    (h : ∀ r, outcome (Grammar.expect '(' cs) = .ok ((), r) →
      Follows nested r (schemaOf (Grammar.columnsIn r))) :
    Follows (recordOf nested) cs (Grammar.recordBehind cs) := by
  refine (follows_expect '(' _).bind fun _ r hr => ?_
  -- the scanner keeps a list of columns where the walk keeps a schema
  have hfollows := (h r hr).bind (f := fun p => do
    let (_, r) ← outcome (Grammar.expect ')' p.2)
    return (ColumnType.record p.1.columns, r)) fun schema r _ =>
      (follows_expect ')' _).bind fun _ r _ => follows_pure (ColumnType.record schema.columns) r
  rw [schemaOf, Results.bind_map] at hfollows
  exact hfollows

/-- There are no columns in front of the end or of a closing bracket, and some in front of all else,
where white space has been skipped by then. -/
theorem follows_columns
    (h : ∀ ds, trimStart ds = trimStart cs →
      Follows (columnsAfter calls .empty) ds (schemaOf (outcome (Grammar.scanColumns [] cs)))) :
    Follows (columns (calls + 1)) cs (schemaOf (Grammar.columnsIn cs)) := by
  rw [columns]
  refine (follows_atEnd cs).bind_ok ?_
  by_cases hend : trimStart cs = []
  · rw [Grammar.columnsIn_of_end hend, hend]
    exact follows_pure _ _
  rw [List.isEmpty_eq_false_iff.2 hend]
  refine (follows_peek _).bind_ok ?_
  rw [Text.trimStart_trimStart]
  -- white space is skipped by now, so the next character decides
  by_cases hclose : ∃ r, trimStart cs = ')' :: r
  · obtain ⟨r, hr⟩ := hclose
    rw [Grammar.columnsIn_of_close hr, hr]
    exact follows_pure _ _
  · have hne : ∀ r, trimStart cs ≠ ')' :: r := not_exists.1 hclose
    rw [Grammar.columnsIn_of_ne hend hne, if_neg (head?_ne_some hne)]
    exact h _ (Text.trimStart_trimStart cs)

/- More calls are left than characters. Each call reads a name or a bracket before it makes the next
one, which keeps it so. -/
mutual

/-- The walk of types follows the scanner. -/
theorem follows_columnType {calls : Nat} {cs : List Char} (h : cs.length < calls) :
    Follows (columnType calls) cs (outcome (Grammar.scanType cs)) := by
  obtain ⟨calls, rfl⟩ := Nat.exists_eq_succ_of_ne_zero (Nat.ne_zero_of_lt h)
  rw [columnType, Grammar.outcome_scanType]
  refine (follows_name rfl).bind fun word r hword => ?_
  have hlt := length_lt_of_outcome hword
  unfold Grammar.typeBehind
  dsimp only
  cases Grammar.primitiveOfKeyword? (Grammar.lower word) with
  | some p => exact follows_pure _ r
  | none =>
    dsimp only
    split
    · -- a map
      refine follows_mapOf fun inner hinner => follows_columnType ?_
      have hless := Text.length_lt_of_trimStart_cons hinner
      omega
    · split
      · -- a record: one call looks for its end, the next one reads a name
        refine follows_recordOf fun inner hinner => ?_
        have hless := length_lt_of_outcome hinner
        obtain ⟨calls, rfl⟩ : ∃ less, calls = less + 1 := ⟨calls - 1, by omega⟩
        exact follows_columns fun ds hds => follows_columnsAfter (by omega) hds .empty
      · exact follows_refuse _ r

/-- The walk of columns follows the scanner, behind columns of the same schema. -/
theorem follows_columnsAfter {calls : Nat} {cs ds : List Char} (h : cs.length < calls)
    (hds : trimStart ds = trimStart cs) (before : Schema) :
    Follows (columnsAfter calls before) ds
      (schemaOf (outcome (Grammar.scanColumns before.columns cs))) := by
  obtain ⟨calls, rfl⟩ := Nat.exists_eq_succ_of_ne_zero (Nat.ne_zero_of_lt h)
  rw [columnsAfter, Grammar.outcome_scanColumns, schemaOf, Results.map_bind]
  refine (follows_name hds).bind fun word r hword => ?_
  have hlt := length_lt_of_outcome hword
  unfold Grammar.columnsBehind
  rw [Results.map_bind]
  refine (follows_typed fun inner hinner => follows_columnType ?_).bind fun type r' htype => ?_
  · have hless := Text.length_lt_of_trimStart_cons hinner
    omega
  -- what the type has left is shorter than what the name had
  have hle := Grammar.length_le_of_columnTypeBehind htype
  dsimp only
  cases hpush : before.push ⟨word, type⟩ with
  | error e => exact (follows_push_error hpush r').bind_error
  | ok longer =>
    refine (follows_push hpush r').bind_ok ?_
    rw [map_ifNext]
    refine follows_eat_bind (fun inner hinner => ?_) (follows_pure longer _)
    have hless := Text.length_lt_of_trimStart_cons hinner
    exact follows_columnsAfter (by omega) rfl longer

end

/-- The walk of the parser follows the scanner of whole texts. -/
theorem follows_wholeSchema {calls : Nat} {cs : List Char} (h : cs.length + 1 < calls) :
    Follows (wholeSchema calls) cs
      ((Grammar.scanSchema cs).map fun columns => (Schema.mk columns, [])) := by
  obtain ⟨calls, rfl⟩ : ∃ less, calls = less + 1 := ⟨calls - 1, by omega⟩
  rw [Grammar.map_scanSchema]
  exact follows_whole (follows_columns fun ds hds => follows_columnsAfter (by omega) hds .empty)

end Walk

end TableScan
