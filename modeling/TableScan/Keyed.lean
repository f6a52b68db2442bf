/-!
# Keyed lists

Association lists in strictly ascending order of their keys: the form in which settings, map
values and free JSON objects are held, so that equal contents have one representation.

Main statements: a key reads back what `insert` wrote under it (`find?_insert_self`), and the other
keys read as before (`find?_insert_of_ne`).
-/

namespace TableScan.Keyed

variable {α : Type}

/-- The keys ascend strictly. -/
def Sorted (entries : List (String × α)) : Prop := entries.Pairwise fun a b => a.1 < b.1

/-- The value under a key. -/
def find? (key : String) (entries : List (String × α)) : Option α := entries.lookup key

/-- Sets the value under a key, at its place in the order. -/
def insert (key : String) (value : α) : List (String × α) → List (String × α)
  | [] => [(key, value)]
  | (k, v) :: rest =>
    if key < k then (key, value) :: (k, v) :: rest
    else if key = k then (key, value) :: rest
    else (k, v) :: insert key value rest

def erase (key : String) (entries : List (String × α)) : List (String × α) :=
  entries.filter fun e => e.1 != key

/-- The keyed list of some entries; of several under one key the last stays. -/
def ofList (entries : List (String × α)) : List (String × α) :=
  entries.foldl (fun acc e => insert e.1 e.2 acc) []

/-- A key reads back what was written under it. -/
@[simp] theorem find?_insert_self (key : String) (value : α) (entries : List (String × α)) :
    find? key (insert key value entries) = some value := by
  induction entries with
  | nil => simp [find?, insert]
  | cons e rest ih =>
    obtain ⟨k, v⟩ := e
    simp only [insert]
    split
    · simp [find?]
    · split
      · simp [find?]
      · next h =>
        have : (key == k) = false := by simpa using h
        simpa [find?, List.lookup_cons, this] using ih

/-- Other keys read as before. -/
theorem find?_insert_of_ne {key other : String} (h : other ≠ key) (value : α)
    (entries : List (String × α)) :
    find? other (insert key value entries) = find? other entries := by
  have hk : (other == key) = false := by simpa using h
  induction entries with
  | nil => simp [find?, insert, List.lookup_cons, hk]
  | cons e rest ih =>
    obtain ⟨k, v⟩ := e
    simp only [insert]
    split
    · simp [find?, List.lookup_cons, hk]
    · split
      · next _ heq => subst heq; simp [find?, List.lookup_cons, hk]
      · simp only [find?, List.lookup_cons] at ih ⊢
        split <;> simp_all

end TableScan.Keyed
