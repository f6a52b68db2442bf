import Mathlib.Data.List.Sort
import TableScan.Table.Basic

/-!
# Rows with their keys

The rows of sorted tables as one list in the order of their keys. `sortByKey` is stable: rows of one
key stay in the order in which they came.

Main statements: a row that is below all rows before it and not above any behind it is sorted to the
front (`sortByKey_append_cons`), and leaving rows out of the sorted list is leaving them out before
it is sorted (`filter_sortByKey`).
-/

namespace TableScan

/-- A row of a schema with its key. -/
structure KeyedRow where
  key : RowKey
  schema : Schema
  row : Record
  deriving Repr

namespace RowKey

/-- Keys that do not descend step by step do not descend. -/
theorem not_lt_trans {a b c : RowKey} (hab : ¬ b < a) (hbc : ¬ c < b) : ¬ c < a := by
  have hab' : a.bytes ≤ b.bytes := hab
  have hbc' : b.bytes ≤ c.bytes := hbc
  exact List.le_trans hab' hbc'

/-- Of two keys one is not below the other. -/
theorem not_lt_total (a b : RowKey) : ¬ b < a ∨ ¬ a < b := List.le_total a.bytes b.bytes

/-- Of two keys not both are below the other. -/
theorem not_lt_of_lt {a b : RowKey} (h : a < b) : ¬ b < a := List.lt_asymm h

/-- Different keys are in one order or in the other. -/
theorem lt_of_not_lt_of_ne {a b : RowKey} (h : ¬ a < b) (hne : a ≠ b) : b < a := by
  by_contra hnot
  have hbytes : a.bytes = b.bytes := List.le_antisymm hnot h
  cases a
  cases b
  exact hne (congrArg RowKey.mk hbytes)

/-- What is below a key is below every key that is not below this one. -/
theorem lt_of_lt_of_not_lt {a b c : RowKey} (hab : a < b) (hbc : ¬ c < b) : a < c := by
  by_contra hac
  exact not_lt_trans hbc hac hab

/-- What is not above a key is below every key above it. -/
theorem lt_of_not_lt_of_lt {a b c : RowKey} (hab : ¬ b < a) (hbc : b < c) : a < c := by
  by_contra hac
  exact not_lt_trans hac hab hbc

end RowKey

namespace KeyedRow

/-- Whether one row may stand before another. -/
def le (a b : KeyedRow) : Bool := !decide (b.key < a.key)

/-- A row may stand before another one if its key is not above. -/
theorem le_iff {a b : KeyedRow} : a.le b = true ↔ ¬ b.key < a.key := by
  simp [le]

/-- The rows in the order of their keys; those of one key in the order in which they are given. -/
def sortByKey (l : List KeyedRow) : List KeyedRow := l.mergeSort le

/-- No rows are sorted to no rows. -/
@[simp] theorem sortByKey_nil : sortByKey [] = [] := List.mergeSort_nil

/-- Holds of rows whose keys do not descend. -/
def Ascending (l : List KeyedRow) : Prop := l.Pairwise fun a b => ¬ b.key < a.key

/-- The order of rows is transitive. -/
theorem le_trans (a b c : KeyedRow) (hab : a.le b = true) (hbc : b.le c = true) :
    a.le c = true :=
  le_iff.2 (RowKey.not_lt_trans (le_iff.1 hab) (le_iff.1 hbc))

/-- Of two rows one may stand before the other. -/
theorem le_total (a b : KeyedRow) : (a.le b || b.le a) = true := by
  rw [Bool.or_eq_true, le_iff, le_iff]
  exact RowKey.not_lt_total a.key b.key

/-- Sorted rows do not descend. -/
theorem ascending_sortByKey (l : List KeyedRow) : Ascending (sortByKey l) :=
  (List.pairwise_mergeSort le_trans le_total l).imp le_iff.1

/-- Puts a row into ascending rows, before those of its key. -/
def insert (e : KeyedRow) (l : List KeyedRow) : List KeyedRow :=
  l.orderedInsert (fun a b => a.le b = true) e

/-- A row goes to the front of rows that it may stand before. -/
theorem insert_cons_of_le {e b : KeyedRow} (h : e.le b = true) (l : List KeyedRow) :
    insert e (b :: l) = e :: b :: l := if_pos h

/-- A row goes behind a row that is below it. -/
theorem insert_cons_of_not_le {e b : KeyedRow} (h : ¬ e.le b = true) (l : List KeyedRow) :
    insert e (b :: l) = b :: insert e l := if_neg h

/-- Sorting puts the first row into the sorted rest, before the rows of its key. -/
theorem sortByKey_cons (e : KeyedRow) (l : List KeyedRow) :
    sortByKey (e :: l) = insert e (sortByKey l) := by
  -- the rows that the first one goes behind are below it; the induction is on them
  obtain ⟨before, behind, hcons, hrest, hbelow⟩ := List.mergeSort_cons le_trans le_total e l
  have hsorted := ascending_sortByKey (e :: l)
  unfold sortByKey at hsorted ⊢
  rw [hcons] at hsorted ⊢
  rw [hrest]
  clear hcons hrest
  induction before with
  | nil =>
    cases behind with
    | nil => rfl
    | cons b behind =>
      have hle : e.le b = true := le_iff.2 (List.rel_of_pairwise_cons hsorted List.mem_cons_self)
      show e :: b :: behind = insert e (b :: behind)
      rw [insert_cons_of_le hle]
  | cons a before ih =>
    have hnot : ¬ e.le a = true := by simpa using hbelow a List.mem_cons_self
    have htail := ih (fun b hb => hbelow b (List.mem_cons_of_mem _ hb)) hsorted.tail
    show a :: (before ++ e :: behind) = insert e (a :: (before ++ behind))
    rw [insert_cons_of_not_le hnot, ← htail]

/-- The first of the least rows is sorted to the front. -/
theorem sortByKey_append_cons {before behind : List KeyedRow} {e : KeyedRow}
    (hbefore : ∀ a ∈ before, e.key < a.key) (hbehind : ∀ b ∈ behind, ¬ b.key < e.key) :
    sortByKey (before ++ e :: behind) = e :: sortByKey (before ++ behind) := by
  -- on the rows before, all of which are above the row that comes to the front
  induction before with
  | nil =>
    rw [List.nil_append, List.nil_append, sortByKey_cons]
    cases hl : sortByKey behind with
    | nil => rfl
    | cons b l =>
      have hb : b ∈ behind := by
        refine (List.mergeSort_perm behind le).mem_iff.1 ?_
        show b ∈ sortByKey behind
        rw [hl]
        exact List.mem_cons_self
      rw [insert_cons_of_le (le_iff.2 (hbehind b hb))]
  | cons a before ih =>
    have hnot : ¬ a.le e = true := by
      rw [le_iff, not_not]
      exact hbefore a List.mem_cons_self
    rw [List.cons_append, sortByKey_cons, ih fun b hb => hbefore b (List.mem_cons_of_mem _ hb),
      insert_cons_of_not_le hnot, ← sortByKey_cons, List.cons_append]

/-- Rows are left out of a sorted list as they are left out before sorting, where with a row all
that may stand behind it stay. -/
theorem filter_sortByKey {p : KeyedRow → Bool}
    (hp : ∀ a b : KeyedRow, ¬ b.key < a.key → p a = true → p b = true) (l : List KeyedRow) :
    (sortByKey l).filter p = sortByKey (l.filter p) := by
  induction l with
  | nil => simp
  | cons e l ih =>
    rw [sortByKey_cons]
    by_cases he : p e = true
    · rw [List.filter_cons_of_pos he, sortByKey_cons, ← ih]
      -- on the sorted rest: from the place of `e` on everything stays, and before it rows are kept
      -- or left out as without `e`
      induction sortByKey l with
      | nil => exact List.filter_cons_of_pos he
      | cons b sorted ihs =>
        by_cases hb : e.le b = true
        · have hpb : p b = true := hp e b (le_iff.1 hb) he
          rw [insert_cons_of_le hb, List.filter_cons_of_pos he,
            List.filter_cons_of_pos hpb, insert_cons_of_le hb]
        · rw [insert_cons_of_not_le hb]
          by_cases hpb : p b = true
          · rw [List.filter_cons_of_pos hpb, List.filter_cons_of_pos hpb, ihs,
              insert_cons_of_not_le hb]
          · rw [List.filter_cons_of_neg hpb, List.filter_cons_of_neg hpb, ihs]
    -- a row that is left out is left out wherever it was put
    · rw [List.filter_cons_of_neg he, ← ih, insert, List.orderedInsert_eq_take_drop,
        List.filter_append, List.filter_cons_of_neg he, ← List.filter_append,
        List.takeWhile_append_dropWhile]

/-- What holds of the first of ascending rows and of all that may stand behind it holds of all. -/
theorem Ascending.forall_mem {l : List KeyedRow} {P : KeyedRow → Prop} (hl : Ascending l)
    (hP : ∀ a b : KeyedRow, ¬ b.key < a.key → P a → P b) (hhead : ∀ e ∈ l.head?, P e) :
    ∀ e ∈ l, P e := by
  cases l with
  | nil =>
    intro e he
    cases he
  | cons a l =>
    intro e he
    rcases List.mem_cons.1 he with rfl | he
    · exact hhead e rfl
    · exact hP a e (List.rel_of_pairwise_cons hl he) (hhead a rfl)

/-- In ascending rows those below a key stand in front. -/
theorem dropWhile_below {l : List KeyedRow} (hl : Ascending l) (key : RowKey) :
    l.dropWhile (fun e => decide (e.key < key)) = l.filter fun e => !decide (e.key < key) := by
  induction l with
  | nil => rfl
  | cons e l ih =>
    by_cases he : e.key < key
    · rw [List.dropWhile_cons_of_pos (by simpa using he), ih hl.tail,
        List.filter_cons_of_neg (by simpa using he)]
    · -- what stands behind a row that stays stays with it
      have hall : ∀ b ∈ e :: l, (!decide (b.key < key)) = true := by
        intro b hb
        rcases List.mem_cons.1 hb with rfl | hb
        · simpa using he
        · have hle : ¬ b.key < e.key := List.rel_of_pairwise_cons hl hb
          have hbk : ¬ b.key < key := fun hbk => he (RowKey.lt_of_not_lt_of_lt hle hbk)
          simpa using hbk
      rw [List.dropWhile_cons_of_neg (by simpa using he), List.filter_eq_self.2 hall]

end KeyedRow

/-- The rows of a table with the keys that an order gives them. -/
def Table.keyedRows (order : SortOrder) (t : Table) (rows : List Record) :
    LoadResult (List KeyedRow) := do
  let keys ← KeyLayout.ofOrder order t.schema
  rows.mapM fun row => (keys.keyOfRecord row).map fun key => ⟨key, t.schema, row⟩

end TableScan
