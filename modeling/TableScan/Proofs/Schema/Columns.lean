import TableScan.Proofs.Results
import TableScan.Schema.Union

/-!
# Columns by name

A schema is a list of columns that are found by their names. Main statements: building a schema
column by column keeps the columns as they are given and succeeds just when no name comes twice
(`ofColumns_eq_ok_iff`), and in such a schema every column is the one that its name finds
(`find?_of_mem`).
-/

namespace TableScan.Schema

/-! ## Finding columns -/

/-- What a name finds is a column of that name. -/
theorem mem_of_find? {s : Schema} {name : String} {c : Column} (h : s.find? name = some c) :
    c ∈ s.columns ∧ c.name = name := by
  refine ⟨List.mem_of_find?_eq_some h, ?_⟩
  have := List.find?_some h
  simpa using this

/-- The position of a name and the column of a name are one finding. -/
theorem find?_eq_bind_indexOf? (s : Schema) (name : String) :
    s.find? name = (s.indexOf? name).bind fun i => s.columns[i]? :=
  List.find?_eq_bind_findIdx?_getElem?

/-- A column that is found has a position. -/
theorem exists_indexOf?_of_find? {s : Schema} {name : String} {c : Column}
    (h : s.find? name = some c) : ∃ i, s.indexOf? name = some i ∧ s.columns[i]? = some c := by
  rw [find?_eq_bind_indexOf?] at h
  exact Option.bind_eq_some_iff.1 h

/-- At the position of a name stands that name. -/
theorem getElem?_names_of_indexOf? {s : Schema} {name : String} {i : Nat}
    (h : s.indexOf? name = some i) : s.names[i]? = some name := by
  obtain ⟨hlt, hfound, -⟩ := List.findIdx?_eq_some_iff_getElem.1 h
  have hname : s.columns[i].name = name := eq_of_beq hfound
  rw [names, List.getElem?_map, List.getElem?_eq_getElem hlt, Option.map_some, hname]

/-- Two names never have the same position, whether or not the schema repeats a name. -/
theorem indexOf?_ne {s : Schema} {a b : String} (hne : a ≠ b) {i : Nat}
    (h : s.indexOf? a = some i) : s.indexOf? b ≠ some i := by
  intro hb
  -- at one position stands one name
  have hsame := (getElem?_names_of_indexOf? h).symm.trans (getElem?_names_of_indexOf? hb)
  exact hne (Option.some.inj hsame)

/-- A name has a position just when it is there. -/
theorem indexOf?_isSome_iff {s : Schema} {name : String} :
    (s.indexOf? name).isSome ↔ name ∈ s.names := by
  simp only [indexOf?, names, List.findIdx?_isSome, List.any_eq_true, List.mem_map, beq_iff_eq]

/-- A name finds a column just when it is there. -/
theorem find?_isSome_iff {s : Schema} {name : String} :
    (s.find? name).isSome ↔ name ∈ s.names := by
  simp only [find?, names, List.find?_isSome, List.mem_map, beq_iff_eq]

theorem find?_eq_none_iff {s : Schema} {name : String} :
    s.find? name = none ↔ name ∉ s.names := by
  rw [← find?_isSome_iff, Option.not_isSome_iff_eq_none]

/-- Where no name is there twice, a name finds its column. -/
theorem find?_of_mem {s : Schema} (hs : s.NamesDistinct) {c : Column} (h : c ∈ s.columns) :
    s.find? c.name = some c := by
  obtain ⟨columns⟩ := s
  induction columns with
  | nil => simp at h
  | cons d rest ih =>
    obtain ⟨hd, hrest⟩ := List.nodup_cons.1 hs
    rcases List.mem_cons.1 h with rfl | h
    · simp [find?]
    -- a column behind the first one has another name, so the first is passed over
    · have hne : d.name ≠ c.name := fun e => hd (e ▸ List.mem_map_of_mem h)
      simpa [find?, hne] using ih hrest h

instance (s : Schema) : Decidable s.NamesDistinct := inferInstanceAs (Decidable s.names.Nodup)

/-- Some of the columns repeat no name if all of them do not. -/
theorem NamesDistinct.sublist {columns kept : List Column} (h : NamesDistinct ⟨columns⟩)
    (hkept : kept.Sublist columns) : NamesDistinct ⟨kept⟩ :=
  List.Nodup.sublist (hkept.map ColumnOf.name) h

/-! ## Adding columns -/

/-- A new name at the end is no repeat. -/
theorem NamesDistinct.concat {columns : List Column} {c : Column} (h : NamesDistinct ⟨columns⟩)
    (hnew : c.name ∉ columns.map ColumnOf.name) : NamesDistinct ⟨columns ++ [c]⟩ := by
  show ((columns ++ [c]).map ColumnOf.name).Nodup
  rw [List.map_append, List.nodup_append]
  refine ⟨h, List.pairwise_singleton _ c.name, ?_⟩
  rintro name hname _ hlast rfl
  obtain rfl := List.mem_singleton.1 hlast
  exact hnew hname

/-- In a schema without repeats the name of a column is none of those in front of it. -/
theorem NamesDistinct.not_mem_front {before columns : List Column} {c : Column}
    (h : NamesDistinct ⟨before ++ c :: columns⟩) : c.name ∉ before.map ColumnOf.name := by
  have hnodup : ((before ++ c :: columns).map ColumnOf.name).Nodup := h
  rw [List.map_append, List.nodup_append] at hnodup
  exact fun hmem => hnodup.2.2 c.name hmem c.name List.mem_cons_self rfl

/-- A column is added at the end, if its name is new. -/
theorem push_eq_ok_iff {s s' : Schema} {c : Column} :
    s.push c = .ok s' ↔ c.name ∉ s.names ∧ s' = ⟨s.columns ++ [c]⟩ := by
  unfold push
  by_cases h : c.name ∈ s.names
  · rw [if_pos (indexOf?_isSome_iff.2 h)]
    simp [h]
  · rw [if_neg (mt indexOf?_isSome_iff.1 h)]
    simp [h, eq_comm]

/-- Columns can be added one after another just when their names are new and not repeated. -/
theorem foldlM_push_eq_ok_iff {columns : List Column} {s s' : Schema} :
    columns.foldlM push s = .ok s' ↔
      s' = ⟨s.columns ++ columns⟩ ∧ (columns.map ColumnOf.name).Nodup
        ∧ ∀ c ∈ columns, c.name ∉ s.names := by
  induction columns generalizing s with
  | nil => simp [pure, Except.pure, eq_comm]
  | cons c rest ih =>
    rw [List.foldlM_cons, Results.bind_eq_ok_iff, List.map_cons, List.nodup_cons,
      List.forall_mem_cons]
    constructor
    · rintro ⟨pushed, hpush, h⟩
      obtain ⟨hc, rfl⟩ := push_eq_ok_iff.1 hpush
      obtain ⟨rfl, hnodup, hnew⟩ := ih.1 h
      -- the rest is new to a schema that has the first column too
      simp only [names, List.map_append, List.map_cons, List.map_nil, List.mem_append,
        List.mem_singleton, not_or] at hnew
      refine ⟨by simp, ⟨?_, hnodup⟩, hc, fun d hd => (hnew d hd).1⟩
      intro hmem
      obtain ⟨d, hd, hname⟩ := List.mem_map.1 hmem
      exact (hnew d hd).2 hname
    · rintro ⟨rfl, ⟨hnot, hnodup⟩, hc, hnew⟩
      refine ⟨⟨s.columns ++ [c]⟩, push_eq_ok_iff.2 ⟨hc, rfl⟩, ih.2 ⟨by simp, hnodup, ?_⟩⟩
      intro d hd
      simp only [names, List.map_append, List.map_cons, List.map_nil, List.mem_append,
        List.mem_singleton, not_or]
      exact ⟨hnew d hd, fun e => hnot (e ▸ List.mem_map_of_mem hd)⟩

/-- Adding columns repeats no name. -/
theorem NamesDistinct.foldlM_push {columns : List Column} {s s' : Schema} (h : s.NamesDistinct)
    (hpushed : columns.foldlM push s = .ok s') : s'.NamesDistinct := by
  obtain ⟨rfl, hnodup, hnew⟩ := foldlM_push_eq_ok_iff.1 hpushed
  show ((s.columns ++ columns).map ColumnOf.name).Nodup
  rw [List.map_append, List.nodup_append]
  refine ⟨h, hnodup, ?_⟩
  rintro _ hold name hname rfl
  obtain ⟨c, hc, rfl⟩ := List.mem_map.1 hname
  exact hnew c hc hold

/-- Columns are refused for a repeated name and for nothing else. -/
theorem foldlM_push_eq_error {columns : List Column} {s : Schema} {e : LoadError}
    (h : columns.foldlM push s = .error e) : ∃ name, e = .parse (.columnRepeated name) := by
  induction columns generalizing s with
  | nil => cases h
  | cons c rest ih =>
    rw [List.foldlM_cons] at h
    rcases Results.bind_eq_error_iff.1 h with hpush | ⟨pushed, -, hrest⟩
    · unfold push at hpush
      split at hpush
      · exact ⟨c.name, (Except.error.inj hpush).symm⟩
      · cases hpush
    · exact ih hrest

/-- The schema of some columns holds them as they are given, and there is one just when no name
comes twice. -/
theorem ofColumns_eq_ok_iff {columns : List Column} {s : Schema} :
    ofColumns columns = .ok s ↔ s = ⟨columns⟩ ∧ s.NamesDistinct := by
  rw [ofColumns, foldlM_push_eq_ok_iff]
  constructor
  · rintro ⟨rfl, hnodup, -⟩
    exact ⟨rfl, hnodup⟩
  · rintro ⟨rfl, hnodup⟩
    exact ⟨rfl, hnodup, fun c _ => List.not_mem_nil⟩

end TableScan.Schema
