import Mathlib.Data.List.Induction
import TableScan.Proofs.Schema.CanonicalText
import TableScan.Schema.Union

/-!
# Unions of schemas

Which schemas merge, and into what. Each schema is merged into what the ones in front of it made, so
a column is only ever compared with the first one of its name. That this decides about any two of
the schemas is an invariant of the fold: as long as it goes on, the columns so far agree on their
names, and its state is the first column of each name, in order (`firstSeen`).

`Schema.WellNamed` holds of the schemas that tables have: their names are names of the grammar, and
none is there twice.

Main statements: the union exists exactly when any two schemas agree where they share a name, and
has the first column of each name (`unionOf_exact`); it finds under every name the column that each
of the schemas has under it (`find?_of_unionOf`), and is well-named where all of them are
(`wellNamed_of_unionOf`).
-/

namespace TableScan

/-- The names are names of the grammar, and none is there twice. -/
structure Schema.WellNamed (s : Schema) : Prop where
  names : ∀ c ∈ s.columns, Grammar.isName c.name.toList = true
  distinct : s.NamesDistinct

namespace Schema

/-- A schema that was read is well-named. -/
theorem wellNamed_of_parse {text : String} {s : Schema} (h : parse text = .ok s) :
    s.WellNamed :=
  ⟨fun _ hc => (isWritable_of_parse h).isName_of_mem hc, (isWritable_of_parse h).2⟩

/-! ## The first column of each name -/

/-- The first column of each name, in order. -/
def firstSeen (columns : List Column) : List Column :=
  columns.eraseDupsBy fun c d => c.name == d.name

/-- The first column hides those of its name behind it. -/
theorem firstSeen_cons (c : Column) (columns : List Column) :
    firstSeen (c :: columns) = c :: firstSeen (columns.filter (·.name ≠ c.name)) := by
  unfold firstSeen
  rw [List.eraseDupsBy_cons]
  congr 2
  refine List.filter_congr fun d _ => ?_
  simp

/-- A column leaves only those of other names behind it, so lists are taken apart by that. -/
theorem firstSeen_induction {motive : List Column → Prop} (nil : motive [])
    (cons : ∀ c columns, motive (columns.filter (·.name ≠ c.name)) → motive (c :: columns)) :
    ∀ columns, motive columns
  | [] => nil
  | c :: columns => cons c columns (firstSeen_induction nil cons _)
termination_by columns => columns.length
decreasing_by exact Nat.lt_succ_of_le (List.length_filter_le _ _)

/-- Columns are left out, and nothing else. -/
theorem firstSeen_sublist (columns : List Column) : (firstSeen columns).Sublist columns := by
  induction columns using firstSeen_induction with
  | nil => exact .slnil
  | cons c columns ih =>
    rw [firstSeen_cons]
    exact (ih.trans List.filter_sublist).cons_cons c

/-- No name is there twice. -/
theorem namesDistinct_firstSeen (columns : List Column) : NamesDistinct ⟨firstSeen columns⟩ := by
  induction columns using firstSeen_induction with
  | nil => exact List.nodup_nil
  | cons c columns ih =>
    rw [firstSeen_cons]
    refine List.nodup_cons.2 ⟨fun hmem => ?_, ih⟩
    obtain ⟨d, hd, hname⟩ := List.mem_map.1 hmem
    -- what is left behind the first column has another name
    have hother := (List.mem_filter.1 ((firstSeen_sublist _).mem hd)).2
    simp [hname] at hother

/-- Leaving out one name changes nothing for the others. -/
theorem find?_filter_ne {name other : String} (h : name ≠ other) (columns : List Column) :
    find? ⟨columns.filter (·.name ≠ other)⟩ name = find? ⟨columns⟩ name := by
  unfold find?
  rw [List.find?_filter]
  congr 1
  funext c
  by_cases hc : c.name = name <;> simp [hc, h]

/-- The other names are still there. -/
theorem mem_names_filter_ne {name other : String} (h : name ≠ other) {columns : List Column} :
    name ∈ names ⟨columns.filter (·.name ≠ other)⟩ ↔ name ∈ names ⟨columns⟩ := by
  rw [← find?_isSome_iff, ← find?_isSome_iff, find?_filter_ne h]

/-- A name finds the same column in both. -/
theorem find?_firstSeen (columns : List Column) (name : String) :
    find? ⟨firstSeen columns⟩ name = find? ⟨columns⟩ name := by
  induction columns using firstSeen_induction with
  | nil => rfl
  | cons c columns ih =>
    rw [firstSeen_cons]
    by_cases hname : c.name = name
    · simp [find?, hname]
    · rw [find?_filter_ne (Ne.symm hname)] at ih
      unfold find? at ih ⊢
      rw [List.find?_cons, List.find?_cons, ih]

/-- The names are those of all columns. -/
theorem mem_names_firstSeen {columns : List Column} {name : String} :
    name ∈ names ⟨firstSeen columns⟩ ↔ name ∈ names ⟨columns⟩ := by
  rw [← find?_isSome_iff, ← find?_isSome_iff, find?_firstSeen]

/-- Where no name is there twice every column is the first one of its name. -/
theorem firstSeen_of_namesDistinct {columns : List Column} (h : NamesDistinct ⟨columns⟩) :
    firstSeen columns = columns := by
  induction columns using firstSeen_induction with
  | nil => rfl
  | cons c columns ih =>
    obtain ⟨hc, hcolumns⟩ := List.nodup_cons.1 h
    have hall : columns.filter (·.name ≠ c.name) = columns := by
      refine List.filter_eq_self.2 fun d hd => decide_eq_true fun hname => hc ?_
      exact hname ▸ List.mem_map_of_mem hd
    rw [hall] at ih
    rw [firstSeen_cons, hall, ih hcolumns]

/-- Names may be left out before or after. -/
theorem firstSeen_filter (p : String → Bool) (columns : List Column) :
    firstSeen (columns.filter (p ·.name)) = (firstSeen columns).filter (p ·.name) := by
  induction columns using firstSeen_induction with
  | nil => rfl
  | cons c columns ih =>
    rw [firstSeen_cons]
    by_cases hc : p c.name = true
    -- the column stays: the others may be left out in either order
    · have hswap : (columns.filter (p ·.name)).filter (·.name ≠ c.name)
          = (columns.filter (·.name ≠ c.name)).filter (p ·.name) := by
        rw [List.filter_filter, List.filter_filter]
        exact List.filter_congr fun d _ => Bool.and_comm _ _
      have hkept : ∀ l : List Column, (c :: l).filter (p ·.name) = c :: l.filter (p ·.name) :=
        fun _ => List.filter_cons_of_pos hc
      rw [hkept, hkept, firstSeen_cons, hswap, ih]
    · -- the column is left out, and the others of its name with it
      have hout : (columns.filter (·.name ≠ c.name)).filter (p ·.name)
          = columns.filter (p ·.name) := by
        rw [List.filter_filter]
        refine List.filter_congr fun d _ => ?_
        by_cases hname : d.name = c.name
        · rw [hname, Bool.eq_false_iff.2 hc, Bool.false_and]
        · rw [decide_eq_true hname, Bool.and_true]
      have hleft : ∀ l : List Column, (c :: l).filter (p ·.name) = l.filter (p ·.name) :=
        fun _ => List.filter_cons_of_neg hc
      rw [hleft, hleft, ← ih, hout]

/-- Behind other columns those of new names are seen first. -/
theorem firstSeen_append (columns more : List Column) :
    firstSeen (columns ++ more)
      = firstSeen columns ++ (firstSeen more).filter (·.name ∉ names ⟨columns⟩) := by
  induction columns using firstSeen_induction generalizing more with
  | nil =>
    have hall : (firstSeen more).filter (·.name ∉ names ⟨[]⟩) = firstSeen more :=
      List.filter_eq_self.2 fun d _ => decide_eq_true List.not_mem_nil
    rw [List.nil_append, hall]
    rfl
  | cons c columns ih =>
    -- what the first column leaves of both parts is the list that is shorter
    have hnew : (firstSeen (more.filter (·.name ≠ c.name))).filter
          (·.name ∉ names ⟨columns.filter (·.name ≠ c.name)⟩)
        = (firstSeen more).filter (·.name ∉ names ⟨c :: columns⟩) := by
      rw [firstSeen_filter (fun name => decide (name ≠ c.name)), List.filter_filter]
      refine List.filter_congr fun d _ => ?_
      by_cases hname : d.name = c.name
      · simp [names, hname]
      · have hcons : names ⟨c :: columns⟩ = c.name :: names ⟨columns⟩ := rfl
        rw [decide_eq_true hname, Bool.and_true, decide_eq_decide, mem_names_filter_ne hname, hcons,
          List.mem_cons, or_iff_right hname]
    rw [List.cons_append, firstSeen_cons, List.filter_append, ih, hnew, firstSeen_cons,
      List.cons_append]

/-! ## Merging two schemas -/

/-- Where the schemas share a name, their columns have one type. -/
def AgreesWith (s t : Schema) : Prop :=
  ∀ c ∈ s.columns, ∀ d ∈ t.columns, c.name = d.name → c.type = d.type

instance (s t : Schema) : Decidable (s.AgreesWith t) :=
  inferInstanceAs (Decidable (∀ c ∈ s.columns, ∀ d ∈ t.columns, c.name = d.name → c.type = d.type))

/-- It does not matter which of the two comes first. -/
theorem AgreesWith.symm {s t : Schema} (h : s.AgreesWith t) : t.AgreesWith s :=
  fun c hc d hd hname => (h d hd c hc hname.symm).symm

/-- Columns may be compared one by one. -/
theorem AgreesWith.cons {s : Schema} {d : Column} {rest : List Column} (h : s.AgreesWith ⟨rest⟩)
    (hd : ∀ c ∈ s.columns, c.name = d.name → c.type = d.type) : s.AgreesWith ⟨d :: rest⟩ :=
  fun c hc => List.forall_mem_cons.2 ⟨hd c hc, h c hc⟩

/-- A schema without repeats agrees with itself. -/
theorem NamesDistinct.agreesWith_self {s : Schema} (h : s.NamesDistinct) : s.AgreesWith s := by
  intro c hc d hd hname
  have hfound := find?_of_mem h hd
  rw [← hname, find?_of_mem h hc] at hfound
  exact congrArg ColumnOf.type (Option.some.inj hfound)

/-- The failure names a column that both schemas have, and its type in each. -/
inductive ConflictsWith (s t : Schema) : LoadError → Prop where
  | intro {c d : Column} (hc : c ∈ s.columns) (hd : d ∈ t.columns) (hname : c.name = d.name)
      (htype : c.type ≠ d.type) :
      ConflictsWith s t (.columnConflict d.name c.type.text d.type.text none)

namespace ConflictsWith

variable {s t : Schema} {e : LoadError}

/-- Schemas with a conflict do not agree. -/
theorem not_agreesWith (h : s.ConflictsWith t e) : ¬ s.AgreesWith t := by
  obtain ⟨hc, hd, hname, htype⟩ := h
  exact fun hagree => htype (hagree _ hc _ hd hname)

/-- A conflict is a failure of merging schemas. -/
theorem group (h : s.ConflictsWith t e) : e.group = .schemaUnion := by
  obtain ⟨⟩ := h
  rfl

theorem cons {rest : List Column} (h : s.ConflictsWith ⟨rest⟩ e) (d : Column) :
    s.ConflictsWith ⟨d :: rest⟩ e := by
  obtain ⟨hc, hd, hname, htype⟩ := h
  exact .intro hc (List.mem_cons_of_mem d hd) hname htype

end ConflictsWith

/-- The columns that are added are those of new names, unless one of the others has another type. -/
theorem additions_cases {s : Schema} (hs : s.NamesDistinct) (columns : List Column) :
    (s.AgreesWith ⟨columns⟩ ∧ s.additions columns = .ok (columns.filter (·.name ∉ s.names)))
      ∨ ∃ e, s.ConflictsWith ⟨columns⟩ e ∧ s.additions columns = .error e := by
  induction columns with
  | nil => exact .inl ⟨fun c _ d hd => absurd hd List.not_mem_nil, rfl⟩
  | cons d rest ih =>
    unfold additions
    cases hold : s.find? d.name with
    | some old =>
      obtain ⟨hmem, hname⟩ := mem_of_find? hold
      simp only
      by_cases htype : old.type = d.type
      · rw [if_pos htype]
        refine ih.imp ?_ fun ⟨e, he, hfail⟩ => ⟨e, he.cons d, hfail⟩
        rintro ⟨hagree, hok⟩
        -- the name finds one column of the schema, so any other is the one that was compared
        have hhead : ∀ c ∈ s.columns, c.name = d.name → c.type = d.type := by
          intro c hc hcd
          have hfound := find?_of_mem hs hc
          rw [hcd, hold] at hfound
          rw [← Option.some.inj hfound, htype]
        have hin : d.name ∈ s.names := hname ▸ List.mem_map_of_mem hmem
        exact ⟨hagree.cons hhead, by rw [hok, List.filter_cons_of_neg (by simpa using hin)]⟩
      · rw [if_neg htype]
        exact .inr ⟨_, .intro hmem List.mem_cons_self hname htype, rfl⟩
    | none =>
      have hnew : d.name ∉ s.names := find?_eq_none_iff.1 hold
      simp only
      rcases ih with ⟨hagree, hok⟩ | ⟨e, he, hfail⟩
      · have hhead : ∀ c ∈ s.columns, c.name = d.name → c.type = d.type := fun c hc hcd =>
          absurd (hcd ▸ List.mem_map_of_mem hc) hnew
        refine .inl ⟨hagree.cons hhead, ?_⟩
        rw [hok, List.filter_cons_of_pos (by simpa using hnew)]
      · exact .inr ⟨e, he.cons d, by rw [hfail]⟩

/-- Merging appends the columns of new names, or fails where the two schemas differ. -/
theorem union_cases {s t : Schema} (hs : s.NamesDistinct) (ht : t.NamesDistinct) :
    (s.AgreesWith t ∧ s.union t = .ok ⟨s.columns ++ t.columns.filter (·.name ∉ s.names)⟩)
      ∨ ∃ e, s.ConflictsWith t e ∧ s.union t = .error e := by
  unfold union
  rcases additions_cases hs t.columns with ⟨hagree, hok⟩ | ⟨e, he, hfail⟩
  · refine .inl ⟨hagree, ?_⟩
    rw [hok]
    refine foldlM_push_eq_ok_iff.2 ⟨rfl, ht.sublist List.filter_sublist, fun c hc => ?_⟩
    exact of_decide_eq_true (List.mem_filter.1 hc).2
  · exact .inr ⟨e, he, by rw [hfail]⟩

/-! ## Merging schemas -/

/-- No columns are merged with some as those. -/
theorem empty_union {s : Schema} (h : s.NamesDistinct) : empty.union s = .ok s := by
  have hempty : empty.NamesDistinct := List.nodup_nil
  rcases union_cases hempty h with ⟨-, hok⟩ | ⟨e, ⟨hc, -⟩, -⟩
  · have hall : s.columns.filter (·.name ∉ empty.names) = s.columns :=
      List.filter_eq_self.2 fun c _ => decide_eq_true List.not_mem_nil
    rw [hok, hall]
    rfl
  · exact absurd hc List.not_mem_nil

/-- A union of schemas repeats no name, even where the schemas do: a column is only added under a
name that is not taken. -/
theorem namesDistinct_of_unionOf {schemas : List Schema} {u : Schema}
    (h : unionOf schemas = .ok u) : u.NamesDistinct := by
  -- by the schemas that are merged in, over any schema without repeats
  have hfold : ∀ (schemas : List Schema) (s : Schema), s.NamesDistinct →
      schemas.foldlM union s = .ok u → u.NamesDistinct := by
    intro schemas
    induction schemas with
    | nil =>
      intro s hs h
      exact Except.ok.inj h ▸ hs
    | cons t rest ih =>
      intro s hs h
      obtain ⟨merged, hmerged, h⟩ := Results.bind_eq_ok_iff.1 h
      unfold union at hmerged
      split at hmerged
      · exact ih merged (hs.foldlM_push hmerged) h
      · cases hmerged
  exact hfold schemas empty List.nodup_nil h

/-- The union of schemas goes on from the first one. -/
theorem unionOf_cons {s : Schema} (h : s.NamesDistinct) (rest : List Schema) :
    unionOf (s :: rest) = rest.foldlM union s := by
  show (empty.union s >>= fun u => rest.foldlM union u) = _
  rw [empty_union h]
  rfl

/-- One schema alone is its own union. -/
theorem unionOf_singleton {s : Schema} (h : s.NamesDistinct) : unionOf [s] = .ok s :=
  unionOf_cons h []

/-- The last schema is merged into the union of the ones in front of it. -/
theorem unionOf_concat (schemas : List Schema) (t : Schema) :
    unionOf (schemas ++ [t]) = unionOf schemas >>= fun u => u.union t := by
  unfold unionOf
  rw [List.foldlM_append]
  simp

/-- Any two of the schemas agree. -/
def AllAgree (schemas : List Schema) : Prop :=
  ∀ s ∈ schemas, ∀ t ∈ schemas, s.AgreesWith t

/-- One more schema agrees with all if it agrees with those in front of it. -/
theorem AllAgree.concat {schemas : List Schema} {t : Schema} (h : AllAgree schemas)
    (hlast : ∀ s ∈ schemas, s.AgreesWith t) (ht : t.NamesDistinct) : AllAgree (schemas ++ [t]) := by
  intro a ha b hb
  rcases List.mem_append.1 ha with ha | ha <;> rcases List.mem_append.1 hb with hb | hb
  · exact h a ha b hb
  · exact List.mem_singleton.1 hb ▸ hlast a ha
  · exact List.mem_singleton.1 ha ▸ (hlast b hb).symm
  · rw [List.mem_singleton.1 ha, List.mem_singleton.1 hb]
    exact ht.agreesWith_self

/-- A column is its name and its type. -/
theorem eq_of_name_type {c d : Column} (hname : c.name = d.name) (htype : c.type = d.type) :
    c = d := by
  obtain ⟨_, _⟩ := c
  obtain ⟨_, _⟩ := d
  obtain rfl := hname
  obtain rfl := htype
  rfl

/-- Where the schemas agree, each of their columns is the first one of its name. -/
theorem AllAgree.find?_firstSeen {schemas : List Schema} (h : AllAgree schemas) {s : Schema}
    (hs : s ∈ schemas) {c : Column} (hc : c ∈ s.columns) :
    find? ⟨firstSeen (schemas.flatMap columns)⟩ c.name = some c := by
  have hin : c ∈ schemas.flatMap columns := List.mem_flatMap.2 ⟨s, hs, hc⟩
  have hname : c.name ∈ names ⟨schemas.flatMap columns⟩ := List.mem_map_of_mem hin
  obtain ⟨first, hfirst⟩ := Option.isSome_iff_exists.1 (find?_isSome_iff.2 hname)
  obtain ⟨hmem, hsame⟩ := mem_of_find? hfirst
  obtain ⟨t, ht, hd⟩ := List.mem_flatMap.1 hmem
  -- the first column of the name may be in another schema, which agrees about the type
  have htype := h t ht s hs first hd c hc hsame
  rw [Schema.find?_firstSeen, hfirst, eq_of_name_type hsame htype]

/-- As long as the schemas agree their union is the first column of each name; it fails at two that
do not. -/
theorem unionOf_cases {schemas : List Schema} (h : ∀ s ∈ schemas, s.NamesDistinct) :
    (AllAgree schemas ∧ unionOf schemas = .ok ⟨firstSeen (schemas.flatMap columns)⟩)
      ∨ ∃ s ∈ schemas, ∃ t ∈ schemas, ∃ e, s.ConflictsWith t e ∧ unionOf schemas = .error e := by
  induction schemas using List.reverseRecOn with
  | nil => exact .inl ⟨fun s hs => absurd hs List.not_mem_nil, rfl⟩
  | append_singleton schemas t ih =>
    have ht : t.NamesDistinct := h t List.mem_concat_self
    rw [unionOf_concat]
    rcases ih fun s hs => h s (List.mem_append_left _ hs) with
      ⟨hagree, hok⟩ | ⟨a, ha, b, hb, e, he, hfail⟩
    · rw [hok]
      rcases union_cases (namesDistinct_firstSeen (schemas.flatMap columns)) ht with
        ⟨hlast, hmerged⟩ | ⟨e, he, hfail⟩
      · -- every column so far is the first of its name, and those agree with the new schema
        have hall : ∀ s ∈ schemas, s.AgreesWith t := fun s hs c hc =>
          hlast c (mem_of_find? (hagree.find?_firstSeen hs hc)).1
        refine .inl ⟨hagree.concat hall ht, hmerged.trans ?_⟩
        rw [List.flatMap_append, List.flatMap_singleton, firstSeen_append,
          firstSeen_of_namesDistinct ht]
        simp only [mem_names_firstSeen]
      · obtain ⟨hc, hd, hname, htype⟩ := he
        obtain ⟨s, hs, hc⟩ := List.mem_flatMap.1 ((firstSeen_sublist _).mem hc)
        exact .inr ⟨s, List.mem_append_left _ hs, t, List.mem_concat_self, _,
          .intro hc hd hname htype, hfail⟩
    · refine .inr ⟨a, List.mem_append_left _ ha, b, List.mem_append_left _ hb, e, he, ?_⟩
      rw [hfail]
      rfl

/-- Schemas that have a union agree, and the union is the first column of each name. -/
theorem allAgree_of_unionOf {schemas : List Schema} {u : Schema} (h : unionOf schemas = .ok u)
    (hall : ∀ s ∈ schemas, s.NamesDistinct) :
    AllAgree schemas ∧ u = ⟨firstSeen (schemas.flatMap columns)⟩ := by
  rcases unionOf_cases hall with ⟨hagree, hok⟩ | ⟨s, hs, t, ht, e, he, hfail⟩
  · exact ⟨hagree, Except.ok.inj (h.symm.trans hok)⟩
  · cases h.symm.trans hfail

/-- The union of well-named schemas is well-named. -/
theorem wellNamed_of_unionOf {schemas : List Schema} {u : Schema} (h : unionOf schemas = .ok u)
    (hall : ∀ t ∈ schemas, t.WellNamed) : u.WellNamed := by
  obtain ⟨-, rfl⟩ := allAgree_of_unionOf h fun t ht => (hall t ht).distinct
  refine ⟨fun c hc => ?_, namesDistinct_firstSeen _⟩
  obtain ⟨t, ht, hc⟩ := List.mem_flatMap.1 ((firstSeen_sublist _).mem hc)
  exact (hall t ht).names c hc

/-- In a union every name finds the column that any of the schemas has under it. -/
theorem find?_of_unionOf {schemas : List Schema} {u t : Schema} (h : unionOf schemas = .ok u)
    (hall : ∀ t ∈ schemas, t.WellNamed) (ht : t ∈ schemas) {c : Column} (hc : c ∈ t.columns) :
    u.find? c.name = some c := by
  obtain ⟨hagree, rfl⟩ := allAgree_of_unionOf h fun t ht => (hall t ht).distinct
  exact hagree.find?_firstSeen ht hc

/-- Schemas without repeats have a union exactly when any two of them agree on the names that they
share. It has the first column of each name of all of them, in order, and each of their columns
under its name; where two of them differ the failure is one of merging schemas. -/
theorem unionOf_exact {schemas : List Schema} (h : ∀ s ∈ schemas, s.NamesDistinct) :
    ((∃ u, unionOf schemas = .ok u) ↔ ∀ s ∈ schemas, ∀ t ∈ schemas, s.AgreesWith t)
      ∧ (∀ u, unionOf schemas = .ok u →
          u.columns = firstSeen (schemas.flatMap columns) ∧ u.NamesDistinct
            ∧ ∀ s ∈ schemas, ∀ c ∈ s.columns, u.find? c.name = some c)
      ∧ ((¬ ∀ s ∈ schemas, ∀ t ∈ schemas, s.AgreesWith t) →
          ∃ e, unionOf schemas = .error e ∧ e.group = .schemaUnion) := by
  refine ⟨⟨fun ⟨u, hu⟩ => (allAgree_of_unionOf hu h).1, fun hagree => ?_⟩, fun u hu => ?_,
    fun hdiffer => ?_⟩
  · rcases unionOf_cases h with ⟨-, hok⟩ | ⟨s, hs, t, ht, e, he, -⟩
    · exact ⟨_, hok⟩
    · exact absurd (hagree s hs t ht) he.not_agreesWith
  · obtain ⟨hagree, rfl⟩ := allAgree_of_unionOf hu h
    exact ⟨rfl, namesDistinct_firstSeen _, fun s hs c hc => hagree.find?_firstSeen hs hc⟩
  · rcases unionOf_cases h with ⟨hagree, -⟩ | ⟨s, hs, t, ht, e, he, hfail⟩
    · exact absurd hagree hdiffer
    · exact ⟨e, hfail, he.group⟩

/-- A column of a primitive type, and a record of one column. -/
def withRecord (p : Primitive) : Schema :=
  ⟨[⟨"a", .primitive .int⟩, ⟨"r", .record [⟨"x", .primitive p⟩]⟩]⟩

/-- A new column in front of one that `withRecord` has. -/
def longFirst : Schema := ⟨[⟨"c", .primitive .long⟩, ⟨"a", .primitive .int⟩]⟩

theorem unionOf_withRecord :
    (∀ s ∈ [withRecord .int, longFirst], s.NamesDistinct)
      ∧ (∃ u, unionOf [withRecord .int, longFirst] = .ok u ∧ u.names = ["a", "r", "c"])
      ∧ (∀ s ∈ [withRecord .int, withRecord .long], s.NamesDistinct)
      ∧ ∃ e, unionOf [withRecord .int, withRecord .long] = .error e ∧ e.group = .schemaUnion := by
  have hmerging : ∀ s ∈ [withRecord .int, longFirst], s.NamesDistinct := by decide
  have hdiffering : ∀ s ∈ [withRecord .int, withRecord .long], s.NamesDistinct := by decide
  obtain ⟨hiff, hcolumns, -⟩ := unionOf_exact hmerging
  obtain ⟨-, -, hfails⟩ := unionOf_exact hdiffering
  obtain ⟨u, hu⟩ := hiff.2 (by decide)
  refine ⟨hmerging, ⟨u, hu, ?_⟩, hdiffering, hfails (by decide)⟩
  rw [names, (hcolumns u hu).1]
  decide

end Schema

end TableScan
