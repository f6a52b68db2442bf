import Mathlib
import TableScan.Log
import TableScan.Proofs.Json.Members
import TableScan.Proofs.Text.ByteOrder

/-!
# Lines of the log

Texts from outside, such as locations and error messages, reach the log as the event, the keys and
the values of entries. None of them gets out of its place: the text of a string has no control
characters (`le_toNat_of_mem_quoteChars`), so a line is one line, and what is read back from it are
the strings that were put in. The fields are sorted by their keys, which makes their order in an
entry irrelevant (`sortedFields_of_perm`).

Main statement: the line of an entry with distinct keys is one line, and spells the entry
(`ended_line_spells`).
-/

namespace TableScan

/-! ## Text without control characters -/

namespace Json

theorem le_toNat_digitChar {n : Nat} (h : n < 16) : 0x20 ≤ n.digitChar.toNat := by
  interval_cases n <;> decide

/-- What stands for a character in quoted text is no control character. -/
theorem le_toNat_of_mem_escapedChar {c d : Char} (h : d ∈ escapedChar c) : 0x20 ≤ d.toNat := by
  -- most escapes are a backslash and a letter
  have hletter : ∀ e : Char, 0x20 ≤ e.toNat → d ∈ ['\\', e] → 0x20 ≤ d.toNat := by
    intro e he hd
    rcases List.mem_cons.1 hd with rfl | hd
    · decide
    · rw [List.mem_singleton.1 hd]
      exact he
  unfold escapedChar at h
  split at h
  · exact hletter '"' (by decide) h
  · exact hletter '\\' (by decide) h
  · exact hletter 'b' (by decide) h
  · exact hletter 'f' (by decide) h
  · exact hletter 'n' (by decide) h
  · exact hletter 'r' (by decide) h
  · exact hletter 't' (by decide) h
  · split at h
    · next hcontrol =>
      rw [Syntax.toList_hex hcontrol] at h
      simp only [List.cons_append, List.nil_append, List.mem_cons, List.not_mem_nil, or_false] at h
      rcases h with rfl | rfl | rfl | rfl | rfl | rfl
      · decide
      · decide
      · decide
      · decide
      · exact le_toNat_digitChar (by omega)
      · exact le_toNat_digitChar (by omega)
    · next hplain =>
      rw [List.mem_singleton.1 h]
      exact Nat.not_lt.1 hplain

/-- Quoted text has no control characters. -/
theorem le_toNat_of_mem_quoteChars {s : String} {d : Char} (h : d ∈ quoteChars s) :
    0x20 ≤ d.toNat := by
  have hquote : 0x20 ≤ '"'.toNat := by decide
  rcases List.mem_append.1 h with h | h
  · rcases List.mem_cons.1 h with rfl | h
    · exact hquote
    · obtain ⟨c, -, hd⟩ := List.mem_flatMap.1 h
      exact le_toNat_of_mem_escapedChar hd
  · rw [List.mem_singleton.1 h]
    exact hquote

theorem le_toNat_of_mem_membersChars {members : List (String × String)} {d : Char}
    (h : d ∈ membersChars (members.map fun m => (m.1, .string m.2))) : 0x20 ≤ d.toNat := by
  have hcolon : 0x20 ≤ ':'.toNat := by decide
  have hcomma : 0x20 ≤ ','.toNat := by decide
  induction members with
  | nil => cases h
  | cons m rest ih =>
    -- one member: a quoted key, a colon and a quoted text
    have hmember : d ∈ quoteChars m.1 ++ ':' :: quoteChars m.2 → 0x20 ≤ d.toNat := by
      intro h
      rcases List.mem_append.1 h with h | h
      · exact le_toNat_of_mem_quoteChars h
      · rcases List.mem_cons.1 h with rfl | h
        · exact hcolon
        · exact le_toNat_of_mem_quoteChars h
    cases rest with
    | nil => exact hmember h
    | cons n rest =>
      -- a comma stands between this member and the next
      have hsplit : d ∈ (quoteChars m.1 ++ ':' :: quoteChars m.2)
          ++ ',' :: membersChars ((n :: rest).map fun m => (m.1, .string m.2)) := by
        simpa [membersChars, chars] using h
      rcases List.mem_append.1 hsplit with h | h
      · exact hmember h
      · rcases List.mem_cons.1 h with rfl | h
        · exact hcomma
        · exact ih h

end Json

namespace Log

/-! ## Which lines are written -/

/-- Warnings are written unless only errors are. -/
theorem lines_of_warnings {least : Severity} (hleast : least.rank ≤ Severity.warn.rank)
    {entries : List Entry} (h : ∀ e ∈ entries, e.severity = .warn) :
    lines least entries = entries.map Entry.line := by
  have hpass : entries.filter (·.passes least) = entries := by
    refine List.filter_eq_self.2 fun e he => ?_
    unfold Entry.passes
    rw [h e he]
    exact decide_eq_true hleast
  unfold lines
  rw [hpass]

/-- Entries are written one after another. -/
theorem lines_append (least : Severity) (entries more : List Entry) :
    lines least (entries ++ more) = lines least entries ++ lines least more := by
  unfold lines
  rw [List.filter_append, List.map_append]

namespace Entry

/-! ## One line -/

/-- The fields in the order in which they are written. -/
def sortedFields (e : Entry) : List (String × String) :=
  e.fields.mergeSort fun a b => decide (a.1 ≤ b.1)

/-- The members of the object that is written, in their order. -/
def members (e : Entry) : List (String × String) :=
  ("event", e.event) :: ("severity", e.severity.name) :: e.sortedFields

/-- The object that is written. -/
def object (e : Entry) : Json := .object (e.members.map fun m => (m.1, .string m.2))

theorem line_eq (e : Entry) : e.line = e.object.render := rfl

theorem perm_sortedFields (e : Entry) : e.sortedFields.Perm e.fields := List.mergeSort_perm _ _

/-- Fields with distinct keys are written in strictly ascending order of these. -/
theorem pairwise_sortedFields {e : Entry} (h : (e.fields.map Prod.fst).Nodup) :
    e.sortedFields.Pairwise fun a b => a.1 < b.1 := by
  have hsorted : e.sortedFields.Pairwise fun a b => decide (a.1 ≤ b.1) = true := by
    refine List.pairwise_mergeSort (fun a b c hab hbc => ?_) (fun a b => ?_) _
    · exact decide_eq_true ((of_decide_eq_true hab).trans (of_decide_eq_true hbc))
    · rw [Bool.or_eq_true, decide_eq_true_eq, decide_eq_true_eq]
      exact le_total a.1 b.1
  -- sorted and without equal keys, so strictly ascending
  have hdistinct : e.sortedFields.Pairwise fun a b => a.1 ≠ b.1 :=
    List.pairwise_map.1 ((e.perm_sortedFields.map Prod.fst).nodup_iff.2 h)
  exact (hsorted.and hdistinct).imp fun hab => lt_of_le_of_ne (of_decide_eq_true hab.1) hab.2

/-- Entries whose fields differ in their order alone are written in the same order. -/
theorem sortedFields_of_perm {e f : Entry} (hfields : f.fields.Perm e.fields)
    (h : (e.fields.map Prod.fst).Nodup) : f.sortedFields = e.sortedFields := by
  have h' : (f.fields.map Prod.fst).Nodup := (hfields.map Prod.fst).nodup_iff.2 h
  have hperm : f.sortedFields.Perm e.sortedFields :=
    f.perm_sortedFields.trans (hfields.trans e.perm_sortedFields.symm)
  exact hperm.eq_of_pairwise (fun a b _ _ hab hba => absurd hab (lt_asymm hba))
    (pairwise_sortedFields h') (pairwise_sortedFields h)

/-- Nor is there another difference in their lines. -/
theorem line_of_perm {e f : Entry} (hseverity : f.severity = e.severity)
    (hevent : f.event = e.event) (hfields : f.fields.Perm e.fields)
    (h : (e.fields.map Prod.fst).Nodup) : f.line = e.line := by
  unfold line
  have hsorted := sortedFields_of_perm hfields h
  unfold sortedFields at hsorted
  rw [hseverity, hevent, hsorted]

/-- A line has no control characters. -/
theorem le_toNat_of_mem_line {e : Entry} {d : Char} (h : d ∈ e.line.toList) : 0x20 ≤ d.toNat := by
  rw [line_eq, Json.render, String.toList_ofList] at h
  rcases List.mem_append.1 h with h | h
  · rcases List.mem_cons.1 h with rfl | h
    · decide
    · exact Json.le_toNat_of_mem_membersChars h
  · rw [List.mem_singleton.1 h]
    decide

theorem tree_object (e : Entry) :
    e.object.tree = .object (e.members.map fun m => (some m.1, .string (some m.2))) := by
  unfold object
  rw [Json.tree, Json.Syntax.memberTrees_eq_map, List.map_map]
  rfl

/-- The line spells its members, in their order and each with its text. -/
theorem parse_line (e : Entry) : Json.Syntax.parse e.line.toList
    = some (.object (e.members.map fun m => (some m.1, .string (some m.2)))) := by
  rw [line_eq, Json.Syntax.parse_render, tree_object]

/-- From an entry with distinct keys the text of each is read. -/
theorem fields?_of_mem_members {e : Entry} (h : (e.members.map Prod.fst).Nodup)
    {name value : String} (hm : (name, value) ∈ e.members) :
    Json.Syntax.fields? [name] (.object (e.members.map fun m => (some m.1, .string (some m.2))))
      = some [some (.string (some value))] := by
  -- the object has the keys of the members
  have hkeys : ((e.members.map fun m => (m.1, Json.string m.2)).map Prod.fst).Nodup := by
    rw [List.map_map]
    exact h
  rw [← tree_object]
  exact Json.Syntax.fields?_of_mem hkeys (List.mem_map.2 ⟨_, hm, rfl⟩)

/-- What is written for an entry whose keys are distinct, and no `event` or `severity`, is one line.
It is an object of the event, the severity and the fields in the order of the bytes of their keys,
from which each text is read back as it was given under its key. The order of the fields in the
entry does not matter. -/
theorem ended_line_spells (e : Entry)
    (hkeys : ("event" :: "severity" :: e.fields.map Prod.fst).Nodup) :
    (ended e.line).toList.count '\n' = 1
      ∧ (∃ text fields tree, ended e.line = text ++ "\n"
        ∧ fields.Perm e.fields
        ∧ (fields.Pairwise fun a b => Text.utf8Bytes a.1 < Text.utf8Bytes b.1)
        ∧ Json.Syntax.parse text.toList = some tree
        ∧ tree = .object ((("event", e.event) :: ("severity", e.severity.name) :: fields).map
          fun m => (some m.1, .string (some m.2)))
        ∧ ∀ name value,
          (name, value) ∈ ("event", e.event) :: ("severity", e.severity.name) :: fields →
            Json.Syntax.fields? [name] tree = some [some (.string (some value))])
      ∧ ∀ fields, fields.Perm e.fields →
        ended (Entry.line ⟨e.severity, e.event, fields⟩) = ended e.line := by
  have hfields : (e.fields.map Prod.fst).Nodup := (List.nodup_cons.1 (List.nodup_cons.1 hkeys).2).2
  have hmembers : (e.members.map Prod.fst).Nodup :=
    ((((e.perm_sortedFields.map Prod.fst).cons _).cons _).nodup_iff).2 hkeys
  refine ⟨?_, ⟨e.line, e.sortedFields, _, rfl, e.perm_sortedFields, ?_, e.parse_line, rfl,
    fun name value => fields?_of_mem_members hmembers⟩, fun fields hperm => ?_⟩
  -- the line itself has no control character, so the break at the end is the only one
  · have hnone : e.line.toList.count '\n' = 0 :=
      List.count_eq_zero.2 fun h => absurd (le_toNat_of_mem_line h) (by decide)
    rw [ended, String.toList_append, List.count_append, hnone]
    rfl
  · exact (pairwise_sortedFields hfields).imp Text.utf8Bytes_lt_iff.2
  · exact congrArg ended (line_of_perm rfl rfl hperm hfields)

/-- An entry with line breaks, quotes and a control character in what it tells, and a key that is
empty. -/
def breaks : Entry := ⟨.warn, "line\nbreak", [("z\n", "say \"x\"\n"), ("é\\", "\x00"), ("", "")]⟩

theorem ended_line_spells_breaks :
    ("event" :: "severity" :: breaks.fields.map Prod.fst).Nodup
      ∧ (ended breaks.line).toList.count '\n' = 1
      ∧ (∃ text tree, ∃ fields : List (String × String), ended breaks.line = text ++ "\n"
        ∧ (fields.Pairwise fun a b => Text.utf8Bytes a.1 < Text.utf8Bytes b.1)
        ∧ Json.Syntax.parse text.toList = some tree
        ∧ Json.Syntax.fields? ["event"] tree = some [some (.string (some "line\nbreak"))])
      ∧ ended (Entry.line ⟨.warn, "line\nbreak", breaks.fields.reverse⟩) = ended breaks.line := by
  have hkeys : ("event" :: "severity" :: breaks.fields.map Prod.fst).Nodup := by decide
  obtain ⟨hone, ⟨text, fields, tree, htext, -, hsorted, hparse, -, hread⟩, hperm⟩ :=
    ended_line_spells breaks hkeys
  exact ⟨hkeys, hone, ⟨text, tree, fields, htext, hsorted, hparse, hread _ _ List.mem_cons_self⟩,
    hperm _ (List.reverse_perm _)⟩

end Entry

end Log

end TableScan
