import Mathlib.Data.List.Nodup
import TableScan.Proofs.Schema.Union

/-!
# Unions of unions

Schemas that are merged in groups first, and schemas in another order. Whether there is a union is a
matter of any two schemas, so neither matters for it; which column comes first of its name is a
matter of order, but not of groups.

Main statement: the union of some schemas is the union of the unions of their groups, and in another
order they have a union of the same columns (`unionOf_regrouped`).
-/

namespace TableScan.Schema

/-! ## First columns of parts -/

/-- The first columns of a list in two parts are known from the first columns of the parts. -/
theorem firstSeen_append_congr {columns columns' more more' : List Column}
    (h : firstSeen columns = firstSeen columns') (hmore : firstSeen more = firstSeen more') :
    firstSeen (columns ++ more) = firstSeen (columns' ++ more') := by
  have hnames : ∀ name, name ∈ names ⟨columns⟩ ↔ name ∈ names ⟨columns'⟩ := fun name => by
    rw [← mem_names_firstSeen, h, mem_names_firstSeen]
  rw [firstSeen_append, firstSeen_append, h, hmore]
  simp only [hnames]

/-- Of every part the first columns may be taken beforehand. -/
theorem firstSeen_flatMap_firstSeen {α : Type} (part : α → List Column) (parts : List α) :
    firstSeen (parts.flatMap fun a => firstSeen (part a)) = firstSeen (parts.flatMap part) := by
  induction parts with
  | nil => rfl
  | cons a parts ih =>
    rw [List.flatMap_cons, List.flatMap_cons]
    exact firstSeen_append_congr (firstSeen_of_namesDistinct (namesDistinct_firstSeen (part a))) ih

/-! ## Groups -/

/-- What schemas merge into if they agree: the first column of each name. -/
def merged (schemas : List Schema) : Schema := ⟨firstSeen (schemas.flatMap columns)⟩

/-- Schemas have a union just when they agree. -/
theorem unionOf_eq_ok_iff {schemas : List Schema} (h : ∀ s ∈ schemas, s.NamesDistinct)
    {u : Schema} : unionOf schemas = .ok u ↔ AllAgree schemas ∧ u = merged schemas := by
  refine ⟨fun hu => allAgree_of_unionOf hu h, ?_⟩
  rintro ⟨hagree, rfl⟩
  rcases unionOf_cases h with ⟨-, hok⟩ | ⟨s, hs, t, ht, e, he, -⟩
  · exact hok
  · exact absurd (hagree s hs t ht) he.not_agreesWith

/-- The columns of schemas that agree are all in what they merge into. -/
theorem AllAgree.mem_merged {schemas : List Schema} (h : AllAgree schemas) {s : Schema}
    (hs : s ∈ schemas) {c : Column} (hc : c ∈ s.columns) : c ∈ (merged schemas).columns :=
  (mem_of_find? (h.find?_firstSeen hs hc)).1

/-- What was merged into a schema is a column of one of them. -/
theorem exists_of_mem_merged {schemas : List Schema} {c : Column}
    (h : c ∈ (merged schemas).columns) : ∃ s ∈ schemas, c ∈ s.columns :=
  List.mem_flatMap.1 ((firstSeen_sublist _).mem h)

/-- Two schemas differ inside one group, or what their groups merge into differs as they do. -/
theorem allAgree_flatten_iff {groups : List (List Schema)} :
    AllAgree groups.flatten
      ↔ (∀ group ∈ groups, AllAgree group) ∧ AllAgree (groups.map merged) := by
  constructor
  · intro h
    have hin : ∀ group ∈ groups, ∀ s ∈ group, s ∈ groups.flatten := fun group hgroup s hs =>
      List.mem_flatten.2 ⟨group, hgroup, hs⟩
    refine ⟨fun group hgroup s hs t ht => h s (hin group hgroup s hs) t (hin group hgroup t ht), ?_⟩
    intro s hs t ht c hc d hd
    obtain ⟨left, hleft, rfl⟩ := List.mem_map.1 hs
    obtain ⟨right, hright, rfl⟩ := List.mem_map.1 ht
    obtain ⟨own, hown, hc⟩ := exists_of_mem_merged hc
    obtain ⟨other, hother, hd⟩ := exists_of_mem_merged hd
    exact h own (hin left hleft own hown) other (hin right hright other hother) c hc d hd
  -- either schema's columns are in what its group merges into
  · rintro ⟨hgroups, hmerged⟩ s hs t ht c hc d hd
    obtain ⟨left, hleft, hs⟩ := List.mem_flatten.1 hs
    obtain ⟨right, hright, ht⟩ := List.mem_flatten.1 ht
    exact hmerged _ (List.mem_map_of_mem hleft) _ (List.mem_map_of_mem hright)
      c ((hgroups left hleft).mem_merged hs hc) d ((hgroups right hright).mem_merged ht hd)

/-- Groups merge into what all of them merge into at once. -/
theorem merged_map_merged (groups : List (List Schema)) :
    merged (groups.map merged) = merged groups.flatten := by
  have hparts : (groups.map merged).flatMap columns
      = groups.flatMap fun group => firstSeen (group.flatMap columns) := List.flatMap_map ..
  have hflat : groups.flatten.flatMap columns
      = groups.flatMap fun group => group.flatMap columns := by
    rw [List.flatten_eq_flatMap, List.flatMap_assoc]
    rfl
  rw [merged, hparts, firstSeen_flatMap_firstSeen, merged, hflat]

/-- Groups have unions when the schemas of each agree. -/
theorem mapM_unionOf_eq_ok_iff {groups : List (List Schema)}
    (h : ∀ group ∈ groups, ∀ s ∈ group, s.NamesDistinct) {unions : List Schema} :
    groups.mapM unionOf = .ok unions
      ↔ (∀ group ∈ groups, AllAgree group) ∧ unions = groups.map merged := by
  induction groups generalizing unions with
  | nil => simp [pure, Except.pure, eq_comm]
  | cons group groups ih =>
    obtain ⟨hgroup, hgroups⟩ := List.forall_mem_cons.1 h
    rw [Results.mapM_eq_ok_iff, List.forall₂_cons_left_iff, List.forall_mem_cons, List.map_cons]
    constructor
    · rintro ⟨u, rest, hu, hrest, rfl⟩
      obtain ⟨hagree, rfl⟩ := (unionOf_eq_ok_iff hgroup).1 hu
      obtain ⟨hagrees, rfl⟩ := (ih hgroups).1 (Results.mapM_eq_ok_iff.2 hrest)
      exact ⟨⟨hagree, hagrees⟩, rfl⟩
    · rintro ⟨⟨hagree, hagrees⟩, rfl⟩
      exact ⟨merged group, groups.map merged, (unionOf_eq_ok_iff hgroup).2 ⟨hagree, rfl⟩,
        Results.mapM_eq_ok_iff.1 ((ih hgroups).2 ⟨hagrees, rfl⟩), rfl⟩

/-- Schemas that are merged in groups and then again merge as they do at once. -/
theorem unionOf_flatten_eq_ok_iff {groups : List (List Schema)}
    (h : ∀ group ∈ groups, ∀ s ∈ group, s.NamesDistinct) {u : Schema} :
    unionOf groups.flatten = .ok u
      ↔ ∃ unions, groups.mapM unionOf = .ok unions ∧ unionOf unions = .ok u := by
  have hflat : ∀ s ∈ groups.flatten, s.NamesDistinct := fun s hs => by
    obtain ⟨group, hgroup, hs⟩ := List.mem_flatten.1 hs
    exact h group hgroup s hs
  -- what a group merges into repeats no name
  have hunions : ∀ s ∈ groups.map merged, s.NamesDistinct := fun s hs => by
    obtain ⟨group, -, rfl⟩ := List.mem_map.1 hs
    exact namesDistinct_firstSeen _
  rw [unionOf_eq_ok_iff hflat, allAgree_flatten_iff]
  constructor
  · rintro ⟨⟨hagrees, hagree⟩, rfl⟩
    exact ⟨groups.map merged, (mapM_unionOf_eq_ok_iff h).2 ⟨hagrees, rfl⟩,
      (unionOf_eq_ok_iff hunions).2 ⟨hagree, (merged_map_merged groups).symm⟩⟩
  · rintro ⟨unions, hmapM, hu⟩
    obtain ⟨hagrees, rfl⟩ := (mapM_unionOf_eq_ok_iff h).1 hmapM
    obtain ⟨hagree, rfl⟩ := (unionOf_eq_ok_iff hunions).1 hu
    exact ⟨⟨hagrees, hagree⟩, merged_map_merged groups⟩

/-! ## Another order -/

/-- Order does not matter for agreeing. -/
theorem AllAgree.perm {schemas others : List Schema} (h : AllAgree schemas)
    (hperm : schemas.Perm others) : AllAgree others := fun s hs t ht =>
  h s (hperm.mem_iff.2 hs) t (hperm.mem_iff.2 ht)

theorem NamesDistinct.nodup {s : Schema} (h : s.NamesDistinct) : s.columns.Nodup :=
  List.Nodup.of_map ColumnOf.name h

/-- Schemas that agree merge into the same columns in any order. -/
theorem AllAgree.perm_merged {schemas others : List Schema} (h : AllAgree schemas)
    (hperm : schemas.Perm others) : (merged schemas).columns.Perm (merged others).columns := by
  have hothers := h.perm hperm
  -- both have every column once, so it is enough that they have the same ones
  refine (List.perm_ext_iff_of_nodup (namesDistinct_firstSeen _).nodup
    (namesDistinct_firstSeen _).nodup).2 fun c => ⟨fun hc => ?_, fun hc => ?_⟩
  · obtain ⟨s, hs, hc⟩ := exists_of_mem_merged hc
    exact hothers.mem_merged (hperm.mem_iff.1 hs) hc
  · obtain ⟨s, hs, hc⟩ := exists_of_mem_merged hc
    exact h.mem_merged (hperm.mem_iff.2 hs) hc

/-- The union of schemas in groups is the union of the unions of the groups: there is one just when
there are the others, and it is the same schema with its columns in the same order. In another order
schemas have a union just when they have one, and of the same columns. -/
theorem unionOf_regrouped {groups : List (List Schema)} {schemas others : List Schema}
    (hgroups : ∀ group ∈ groups, ∀ s ∈ group, s.NamesDistinct)
    (hschemas : ∀ s ∈ schemas, s.NamesDistinct) (hperm : schemas.Perm others) :
    (∀ u, unionOf groups.flatten = .ok u
        ↔ ∃ unions, groups.mapM unionOf = .ok unions ∧ unionOf unions = .ok u)
      ∧ ((∃ u, unionOf schemas = .ok u) ↔ ∃ v, unionOf others = .ok v)
      ∧ ∀ u v, unionOf schemas = .ok u → unionOf others = .ok v → u.columns.Perm v.columns := by
  have hothers : ∀ s ∈ others, s.NamesDistinct := fun s hs => hschemas s (hperm.mem_iff.2 hs)
  refine ⟨fun u => unionOf_flatten_eq_ok_iff hgroups, ⟨?_, ?_⟩, ?_⟩
  · rintro ⟨u, hu⟩
    have hagree := ((unionOf_eq_ok_iff hschemas).1 hu).1
    exact ⟨merged others, (unionOf_eq_ok_iff hothers).2 ⟨hagree.perm hperm, rfl⟩⟩
  · rintro ⟨v, hv⟩
    have hagree := ((unionOf_eq_ok_iff hothers).1 hv).1
    exact ⟨merged schemas, (unionOf_eq_ok_iff hschemas).2 ⟨hagree.perm hperm.symm, rfl⟩⟩
  · intro u v hu hv
    obtain ⟨hagree, rfl⟩ := (unionOf_eq_ok_iff hschemas).1 hu
    obtain ⟨-, rfl⟩ := (unionOf_eq_ok_iff hothers).1 hv
    exact hagree.perm_merged hperm

/-- Two schemas that agree, one of them twice, in groups and in another order. -/
theorem unionOf_regrouped_withRecord :
    (∃ unions u, [[withRecord .int, longFirst], [], [longFirst]].mapM unionOf = .ok unions
        ∧ unionOf unions = .ok u ∧ u.names = ["a", "r", "c"])
      ∧ ∃ v, unionOf [longFirst, withRecord .int] = .ok v ∧ v.names = ["c", "a", "r"] := by
  have hgroups : ∀ group ∈ [[withRecord .int, longFirst], [], [longFirst]],
      ∀ s ∈ group, s.NamesDistinct := by decide
  have hschemas : ∀ s ∈ [withRecord .int, longFirst], s.NamesDistinct := by decide
  have hperm : [withRecord .int, longFirst].Perm [longFirst, withRecord .int] := .swap ..
  obtain ⟨hregroup, hiff, -⟩ := unionOf_regrouped hgroups hschemas hperm
  obtain ⟨unions, hunions, hu⟩ :=
    (hregroup ⟨(withRecord .int).columns ++ [⟨"c", .primitive .long⟩]⟩).1 rfl
  obtain ⟨v, hv⟩ := hiff.1 ⟨⟨(withRecord .int).columns ++ [⟨"c", .primitive .long⟩]⟩, rfl⟩
  have hnames : v = ⟨longFirst.columns ++ [⟨"r", .record [⟨"x", .primitive .int⟩]⟩]⟩ :=
    Except.ok.inj (hv.symm.trans rfl)
  exact ⟨⟨unions, _, hunions, hu, rfl⟩, v, hv, hnames ▸ rfl⟩

end TableScan.Schema
