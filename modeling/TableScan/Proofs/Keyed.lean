import Mathlib.Data.List.Nodup
import Mathlib.Data.String.Basic
import TableScan.Keyed

/-!
# Lookups and changes in keyed lists

What a key finds behind a filter, a map and in entries with distinct keys; how entries in key order
are built up and what is in them; and what writing an entry that is there already changes, which is
nothing (`insert_insert_self`, `insert_insert_of_ne`).
-/

namespace TableScan.Keyed

variable {α : Type}

/-! ## Lookups -/

/-- A key that a filter keeps reads as before. -/
theorem find?_filter {keep : String → Bool} {key : String} (h : keep key = true)
    (entries : List (String × α)) :
    find? key (entries.filter fun e => keep e.1) = find? key entries := by
  induction entries with
  | nil => rfl
  | cons e rest ih =>
    obtain ⟨k, v⟩ := e
    simp only [find?] at ih ⊢
    -- the entry of the key itself stays; any other one may go
    by_cases hk : key = k
    · have hkeep : keep k = true := hk ▸ h
      rw [List.filter_cons_of_pos (by simpa using hkeep), ← hk, List.lookup_cons_self,
        List.lookup_cons_self]
    · have hne : (key == k) = false := by simpa using hk
      by_cases hkeep : keep k = true
      · rw [List.filter_cons_of_pos (by simpa using hkeep), List.lookup_cons, List.lookup_cons,
          hne, ih]
      · rw [List.filter_cons_of_neg (by simpa using hkeep), List.lookup_cons, hne, ih]

/-- A key finds the image of what it found. -/
theorem find?_map {β : Type} (f : α → β) (key : String) (entries : List (String × α)) :
    find? key (entries.map fun e => (e.1, f e.2)) = (find? key entries).map f := by
  induction entries with
  | nil => rfl
  | cons e rest ih =>
    rw [find?, List.map_cons, List.lookup_cons, find?, List.lookup_cons]
    cases key == e.1 with
    | true => rfl
    | false => exact ih

/-- Of entries with distinct keys at most one has a given key. -/
theorem filter_key_of_nodup {entries : List (String × α)}
    (h : (entries.map Prod.fst).Nodup) (key : String) :
    entries.filter (·.1 == key) = (find? key entries).toList.map fun a => (key, a) := by
  induction entries with
  | nil => rfl
  | cons e rest ih =>
    obtain ⟨k, a⟩ := e
    obtain ⟨hnot, hrest⟩ := List.nodup_cons.1 h
    rw [find?, List.filter_cons, List.lookup_cons]
    by_cases hkey : k = key
    · subst hkey
      -- no other entry has this key
      have hnone : rest.filter (·.1 == k) = [] := by
        refine List.filter_eq_nil_iff.2 fun e he heq => hnot ?_
        rw [← beq_iff_eq.1 heq]
        exact List.mem_map.2 ⟨e, he, rfl⟩
      rw [beq_self_eq_true, if_pos rfl, hnone]
      rfl
    · rw [beq_eq_false_iff_ne.2 hkey, beq_eq_false_iff_ne.2 (Ne.symm hkey)]
      exact ih hrest

/-- Of entries with distinct keys each is found by its own key. -/
theorem find?_of_mem {entries : List (String × α)} (h : (entries.map Prod.fst).Nodup)
    {key : String} {a : α} (he : (key, a) ∈ entries) : find? key entries = some a := by
  have hmem : (key, a) ∈ entries.filter (·.1 == key) :=
    List.mem_filter.2 ⟨he, beq_self_eq_true _⟩
  rw [filter_key_of_nodup h] at hmem
  obtain ⟨found, hfound, heq⟩ := List.mem_map.1 hmem
  obtain rfl := (Prod.mk.inj heq).2
  exact Option.mem_toList.1 hfound

/-! ## Entries in key order -/

theorem insert_of_forall_lt {key : String} {entries : List (String × α)}
    (h : ∀ e ∈ entries, e.1 < key) (value : α) :
    insert key value entries = entries ++ [(key, value)] := by
  induction entries with
  | nil => rfl
  | cons e rest ih =>
    obtain ⟨k, v⟩ := e
    obtain ⟨hlt, hrest⟩ := List.forall_mem_cons.1 h
    have hnot : ¬ key < k := lt_asymm hlt
    have hne : ¬ key = k := fun heq => lt_irrefl k (heq ▸ hlt)
    rw [insert, if_neg hnot, if_neg hne, ih hrest]
    rfl

/-- Entries that are in key order already stay as they are. -/
theorem ofList_of_sorted {entries : List (String × α)} (h : Sorted entries) :
    ofList entries = entries := by
  -- every entry comes behind those that are there
  have hfold : ∀ before, (∀ e ∈ before, ∀ f ∈ entries, e.1 < f.1) →
      entries.foldl (fun acc e => insert e.1 e.2 acc) before = before ++ entries := by
    induction h with
    | nil => exact fun before _ => (List.append_nil before).symm
    | @cons e rest he _ ih =>
      intro before hbefore
      have hfirst : ∀ b ∈ before, b.1 < e.1 := fun b hb => hbefore b hb e List.mem_cons_self
      rw [List.foldl_cons, insert_of_forall_lt hfirst, ih, List.append_assoc]
      · rfl
      · intro b hb f hf
        rcases List.mem_append.1 hb with hb | hb
        · exact hbefore b hb f (List.mem_cons_of_mem _ hf)
        · obtain rfl := List.mem_singleton.1 hb
          exact he f hf
  exact hfold [] fun e he => absurd he List.not_mem_nil

theorem mem_of_mem_insert {key : String} {value : α}
    {entries : List (String × α)} {e : String × α} (h : e ∈ insert key value entries) :
    e = (key, value) ∨ e ∈ entries := by
  induction entries with
  | nil => exact .inl (List.mem_singleton.1 h)
  | cons f rest ih =>
    obtain ⟨k, v⟩ := f
    rw [insert] at h
    split at h
    · exact List.mem_cons.1 h
    · split at h
      · exact (List.mem_cons.1 h).imp id (List.mem_cons_of_mem _)
      · rcases List.mem_cons.1 h with rfl | h
        · exact .inr List.mem_cons_self
        · exact (ih h).imp id (List.mem_cons_of_mem _)

/-- Only entries of the list are in it once it is put in order. -/
theorem mem_of_mem_ofList {entries : List (String × α)} {e : String × α}
    (h : e ∈ ofList entries) : e ∈ entries := by
  -- the induction is on the entries that are still to be inserted
  have hfold : ∀ (rest acc : List (String × α)),
      e ∈ rest.foldl (fun acc e => insert e.1 e.2 acc) acc → e ∈ acc ∨ e ∈ rest := by
    intro rest
    induction rest with
    | nil => exact fun acc h => .inl h
    | cons f rest ih =>
      intro acc h
      rcases ih _ h with h | h
      · rcases mem_of_mem_insert h with rfl | h
        · exact .inr List.mem_cons_self
        · exact .inl h
      · exact .inr (List.mem_cons_of_mem _ h)
  exact (hfold entries [] h).resolve_left List.not_mem_nil

/-! ## Writing an entry again -/

/-- Writing an entry again changes nothing. -/
theorem insert_insert_self (key : String) (value : α) (entries : List (String × α)) :
    insert key value (insert key value entries) = insert key value entries := by
  induction entries with
  | nil => simp [insert]
  | cons e rest ih =>
    obtain ⟨k, v⟩ := e
    simp only [insert]
    split
    · simp [insert]
    · next hlt =>
      split
      · simp [insert]
      · next hne => simp [insert, hlt, hne, ih]

/-- An entry that is there is still there after another key was written. -/
theorem insert_insert_of_ne {key other : String} (hne : key ≠ other) {value : α} (w : α)
    {entries : List (String × α)} (h : insert key value entries = entries) :
    insert key value (insert other w entries) = insert other w entries := by
  induction entries with
  | nil => cases h
  | cons e rest ih =>
    obtain ⟨k, v⟩ := e
    rw [insert] at h
    split at h
    · -- an entry in front of the first one would make the list longer
      have hlength := congrArg List.length h
      simp at hlength
    · next hlt =>
      split at h
      -- the entry is the first one, with this value
      · next heq =>
        subst heq
        obtain ⟨heads, -⟩ := List.cons.inj h
        obtain ⟨-, rfl⟩ := Prod.mk.inj heads
        by_cases hbefore : other < key
        · simp [insert, hbefore, hbefore.asymm, hne]
        · simp [insert, hbefore, hne.symm]
      · next hkey =>
        have hrest := (List.cons.inj h).2
        by_cases hbefore : other < k
        · have hback : ¬ key < other := fun hlt' => hlt (hlt'.trans hbefore)
          simp [insert, hbefore, hback, hne, hlt, hkey, hrest]
        · by_cases hsame : other = k
          · subst hsame
            simp [insert, hlt, hkey, hrest]
          · simp [insert, hbefore, hsame, hlt, hkey, ih hrest]

end TableScan.Keyed
