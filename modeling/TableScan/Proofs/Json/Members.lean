import TableScan.Proofs.Json.Text
import TableScan.Proofs.Keyed
import TableScan.Proofs.Results

/-!
# Members of objects

An object keeps its members in the order in which they are written, and records with fixed fields
are read from it by name. Where no two members have the same name, each is found by its own: main
statements `fields?_tree`, for any names at once, and `fields?_of_mem`, for the name of a member.
-/

namespace TableScan.Json.Syntax

theorem memberTrees_eq_map (members : List (String × Json)) :
    memberTrees members = members.map fun m => (some m.1, m.2.tree) := by
  induction members with
  | nil => rfl
  | cons m rest ih => rw [memberTrees, ih, List.map_cons]

/-- The fields of an object whose members have distinct names are found by their names. -/
theorem fields?_tree {members : List (String × Json)} (h : (members.map Prod.fst).Nodup)
    (names : List String) :
    fields? names (Json.object members).tree
      = some (names.map fun name => (Keyed.find? name members).map tree) := by
  have hnamed : ∀ f : Option String × Syntax → Option (String × Syntax),
      (∀ k s, f (some k, s) = some (k, s)) →
        (memberTrees members).mapM f = some (members.map fun m => (m.1, m.2.tree)) := by
    intro f hf
    have hall : ∀ m ∈ memberTrees members, f m = some (m.1.getD "", m.2) := by
      rw [memberTrees_eq_map]
      intro m hm
      obtain ⟨m, -, rfl⟩ := List.mem_map.1 hm
      exact hf _ _
    rw [Results.mapM_eq_some hall, memberTrees_eq_map, List.map_map]
    rfl
  have hkeys : ((members.map fun m => (m.1, m.2.tree)).map Prod.fst).Nodup := by
    rw [List.map_map]
    exact h
  unfold fields? tree
  simp only
  rw [hnamed _ fun _ _ => rfl]
  refine Results.mapM_eq_some fun name _ => ?_
  rw [Keyed.filter_key_of_nodup hkeys, Keyed.find?_map]
  cases Keyed.find? name members with
  | none => rfl
  | some j => rfl

/-- A member of an object whose members have distinct names is read by its name. -/
theorem fields?_of_mem {members : List (String × Json)} (h : (members.map Prod.fst).Nodup)
    {name : String} {j : Json} (hm : (name, j) ∈ members) :
    fields? [name] (Json.object members).tree = some [some j.tree] := by
  rw [fields?_tree h, List.map_singleton, Keyed.find?_of_mem h hm]
  rfl

end TableScan.Json.Syntax
