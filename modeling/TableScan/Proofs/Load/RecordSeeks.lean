import TableScan.Proofs.Load.Failures
import TableScan.Proofs.RowKey.RecordKeys

/-!
# Seeks by records and by tuples

A partition may be positioned by a record that is laid out like those of its reader, or by a tuple
of the values of its sort columns. The first way lays out keys of records at every seek; the second
one uses the layout of tuples that was made together with the order. These belong to each other
whatever was called before and whichever calls failed (`Partition.MatchesOrder`), so both ways have
one key.

Main statement: keys of records are those of the tuples that are taken out of them, and so a record
and its tuple position a partition in the same way (`SortOrder.recordKeys_eq_tupleKeys`).
-/

namespace TableScan

open Step (Keeps)

namespace Partition

variable {ρ : Type}

/-- A partition that has an order has the layout of its tuples too. -/
def MatchesOrder (it : Partition ρ) : Prop :=
  ∀ order, it.sortOrder = some order →
    ∃ tuples, KeyLayout.forTuples order = .ok tuples ∧ it.tupleKeys = some tuples

/-! ## What a seek needs -/

/-- A partition that has started may seek. -/
theorem run_allowIn_seek {it : Partition ρ} (hstate : it.state = .initialized) :
    (allowIn "seek_near" [.initialized]).run it = ⟨.ok (), it, []⟩ := by
  unfold allowIn
  rw [Step.run_bind_get, hstate]
  rfl

/-- The parts of a seek are the order and the reader that the partition holds. -/
theorem run_seekParts_eq {it : Partition ρ} {order : SortOrder} {reader : ρ}
    (horder : it.sortOrder = some order) (hreader : it.reader = some reader) :
    seekParts.run it = ⟨.ok (order, reader), it, []⟩ := by
  unfold seekParts
  rw [Step.run_bind_get, horder, hreader]
  rfl

/-! ## Calls -/

/-- Asking for permission changes nothing. -/
theorem keeps_allowIn (operation : String) (allowed : List PartitionState) :
    Keeps (MatchesOrder (ρ := ρ)) (allowIn operation allowed) := by
  intro it hit
  rw [state_run_allowIn]
  exact hit

/-- The order and its tuples are adopted together or not at all. -/
theorem keeps_adoptOrder (order : SortOrder) :
    Keeps (MatchesOrder (ρ := ρ)) (adoptOrder order) := by
  intro it hit
  refine Keeps.bind_still rfl hit fun tuples htuples => ?_
  -- the order that was adopted is the one whose tuples were laid out
  intro adopted hadopted
  obtain rfl := Option.some.inj hadopted
  exact ⟨tuples, htuples, rfl⟩

/-- A start adopts an order for a sorted plan only. -/
theorem keeps_start (engine : StorageEngine ρ) (job : JobSettings) :
    Keeps MatchesOrder (start engine job) := by
  refine (keeps_allowIn _ _).bind fun _ => Keeps.bind_get fun it hit => ?_
  refine Keeps.bind (P := MatchesOrder) (Keeps.ofResult _) (fun task => ?_) it hit
  split
  · refine (Keeps.ofResult _).bind fun order => (keeps_adoptOrder order).bind fun _ => ?_
    refine (Keeps.ofResult _).bind fun reader => (Keeps.event _ _).bind fun _ => ?_
    exact (Keeps.update fun _ hit => hit).bind fun _ => Keeps.update fun _ hit => hit
  · refine (Keeps.ofResult _).bind fun reader => (Keeps.event _ _).bind fun _ => ?_
    exact (Keeps.update fun _ hit => hit).bind fun _ => Keeps.update fun _ hit => hit

/-- A reader that is attached takes over the order of the plan. -/
theorem keeps_attach (reader : ρ) (share : InputShare) :
    Keeps MatchesOrder (attach reader share) := by
  refine (keeps_allowIn _ _).bind fun _ => Keeps.bind_get fun it hit => ?_
  dsimp only
  cases it.plan.sortOrder with
  | none => exact hit
  | some order =>
    dsimp only
    split
    · refine Keeps.bind (keeps_adoptOrder order) (fun _ => ?_) it hit
      exact (Keeps.event _ _).bind fun _ _ hit => hit
    · exact hit

theorem keeps_seekParts : Keeps (MatchesOrder (ρ := ρ)) seekParts := by
  intro it hit
  rw [(run_seekParts it).1]
  exact hit

theorem keeps_onReader {α : Type} (reader : ρ) (step : Step ρ α) :
    Keeps MatchesOrder (onReader reader step) := fun _ hit => hit

variable [RecordReader ρ]

/-- A seek moves the reader. -/
theorem keeps_seekTo (disk : Disk) (reader : ρ) (key : RowKey) :
    Keeps MatchesOrder (seekTo disk reader key) :=
  (keeps_onReader reader _).bind fun _ => Keeps.bind_get fun _ hit => hit

/-- Taking a record moves the reader and the state. -/
theorem keeps_next (disk : Disk) : Keeps (MatchesOrder (ρ := ρ)) (next disk) := by
  refine Keeps.bind_get fun it hit => ?_
  split
  · exact hit
  · refine Keeps.bind (keeps_allowIn _ _) (fun _ => ?_) it hit
    split
    · exact Keeps.fail _
    · next reader _ =>
      refine (keeps_onReader reader _).bind fun found => ?_
      cases found with
      | none => exact Keeps.bind_get fun _ hit => hit
      | some record => exact fun _ hit => hit

/-- Closing gives up the reader. -/
theorem keeps_close : Keeps (MatchesOrder (ρ := ρ)) close := by
  refine Keeps.bind_get fun it hit => ?_
  split
  · exact hit
  · have hrelease : Keeps (MatchesOrder (ρ := ρ)) release := by
      intro it hit
      unfold Step.run release
      split
      · exact hit
      · exact hit
    have hentered : MatchesOrder ((enter .closed).run it).state := hit
    exact Keeps.bind_of_state hentered fun _ => hrelease.bind fun _ => Keeps.event _ _

/-- No call separates the order from its tuples. -/
theorem keeps_perform (disk : Disk) (call : LifeCall ρ) :
    Keeps MatchesOrder (call.perform disk) := by
  cases call with
  | start engine job => exact (keeps_start engine job).bind fun _ => Keeps.pure _
  | attach reader share => exact (keeps_attach reader share).bind fun _ => Keeps.pure _
  | later call =>
    cases call with
    | seekRecord target =>
      refine Keeps.bind ?_ fun _ => Keeps.pure _
      refine (keeps_allowIn _ _).bind fun _ => keeps_seekParts.bind fun parts => ?_
      refine (Keeps.ofResult _).bind fun keys => (Keeps.ofResult _).bind fun key => ?_
      exact keeps_seekTo disk parts.2 key
    | seekValues values =>
      refine Keeps.bind ?_ fun _ => Keeps.pure _
      refine (keeps_allowIn _ _).bind fun _ => keeps_seekParts.bind fun parts => ?_
      refine Keeps.bind_get fun it hit => ?_
      cases it.tupleKeys with
      | none => exact hit
      | some keys =>
        exact Keeps.bind (Keeps.ofResult _) (fun key => keeps_seekTo disk parts.2 key) it hit
    | next => exact keeps_next disk
    | close => exact keeps_close.bind fun _ => Keeps.pure _

/-- Behind any calls of a new partition its order and its tuples belong to each other. -/
theorem matchesOrder_behind {it : Partition ρ} (hit : it.MatchesOrder)
    (calls : List (Disk × LifeCall ρ)) : (behind it calls).MatchesOrder :=
  List.foldlRecOn calls _ hit fun it hit c _ => keeps_perform c.1 c.2 it hit

/-! ## Seeks -/

variable {it : Partition ρ} {reader : ρ} {order : SortOrder} {disk : Disk}

/-- Where there is an order, a seek by a record goes to the key of the record. -/
theorem run_seekRecord_of_ofOrder {g : KeyLayout} (hstate : it.state = .initialized)
    (horder : it.sortOrder = some order) (hreader : it.reader = some reader)
    (hg : KeyLayout.ofOrder order (RecordReader.schema reader) = .ok g) (target : Record) :
    (seekRecord disk target).run it
      = (Step.ofResult (g.keyOfRecord target) >>= seekTo disk reader).run it := by
  have hkeys : (Step.ofResult (KeyLayout.ofOrder order (RecordReader.schema reader))).run it
      = ⟨.ok g, it, []⟩ := by rw [Step.run_ofResult, hg]
  unfold seekRecord
  rw [Step.run_bind_ok (run_allowIn_seek hstate),
    Step.run_bind_ok (run_seekParts_eq horder hreader), Step.run_bind_ok hkeys]
  rfl

/-- Where there is an order, a seek by a tuple goes to the key of the tuple. -/
theorem run_seekValues_of_tupleKeys {tuples : KeyLayout} (hstate : it.state = .initialized)
    (horder : it.sortOrder = some order) (hreader : it.reader = some reader)
    (htuples : it.tupleKeys = some tuples) (values : List Value) :
    (seekValues disk values).run it
      = (Step.ofResult (tuples.keyOfTuple values) >>= seekTo disk reader).run it := by
  unfold seekValues
  rw [Step.run_bind_ok (run_allowIn_seek hstate),
    Step.run_bind_ok (run_seekParts_eq horder hreader), Step.run_bind_get, htuples]
  rfl

/-- A record that reaches all sort columns of the reader and the tuple of its fields position a
partition in the same way, or fail in the same way. -/
theorem run_seekRecord_eq_run_seekValues (hit : it.MatchesOrder)
    (horder : it.sortOrder = some order) (hreader : it.reader = some reader)
    (hoccurs : order.OccursIn (RecordReader.schema reader)) {target : Record}
    (hreaches : order.Reaches (RecordReader.schema reader) target) :
    (seekRecord disk target).run it
      = (seekValues disk (order.valuesIn (RecordReader.schema reader) target)).run it := by
  -- before or after its time a seek is refused either way, with one error
  by_cases hstate : it.state = .initialized
  · obtain ⟨tuples, htuples, hheld⟩ := hit order horder
    obtain ⟨g, hg⟩ := KeyLayout.exists_ofOrder_iff.2 hoccurs
    rw [run_seekRecord_of_ofOrder hstate horder hreader hg,
      run_seekValues_of_tupleKeys hstate horder hreader hheld,
      KeyLayout.keyOfRecord_eq_keyOfTuple hg htuples hreaches]
  · have hrefused : (allowIn "seek_near" [.initialized]).run it
        = ⟨.error (.state "seek_near" it.state.name), it, []⟩ := by
      unfold allowIn
      rw [Step.run_bind_get, if_neg]
      · rfl
      · rw [List.contains_iff_mem, List.mem_singleton]
        exact hstate
    unfold seekRecord seekValues
    rw [Step.run_bind_error hrefused, Step.run_bind_error hrefused]

end Partition

namespace SortOrder

/-- An order that names no column twice lays out keys of records of a schema just where each of its
columns is of a primitive type and occurs there with this type. Then the key of a record is the one
of the tuple of its fields for the sort columns, or both fail with one error; a record that is too
short for a sort column is refused. So a partition that goes by this order, whatever was called
before, takes a record that is laid out like those of its reader and the tuple of its fields for one
and the same: what the two seeks answer, what they leave and what they report is equal. -/
theorem recordKeys_eq_tupleKeys {order : SortOrder} (hdistinct : order.schema.NamesDistinct)
    (layout : Schema) :
    ((∃ g, KeyLayout.ofOrder order layout = .ok g) ↔ order.OccursIn layout)
      ∧ (∀ g, KeyLayout.ofOrder order layout = .ok g →
          ∃ tuples, KeyLayout.forTuples order = .ok tuples ∧ ∀ record,
            (order.Reaches layout record →
                g.keyOfRecord record = tuples.keyOfTuple (order.valuesIn layout record))
              ∧ (¬ order.Reaches layout record →
                ∃ fault, g.keyOfRecord record = .error (.configuration fault)))
      ∧ ∀ {ρ : Type} [RecordReader ρ] (plan : LoadPlan) (calls : List (Disk × LifeCall ρ))
          (it : Partition ρ) (reader : ρ), Partition.behind (.ofPlan plan) calls = it →
          it.sortOrder = some order → it.reader = some reader →
          RecordReader.schema reader = layout → order.OccursIn layout →
          ∀ (disk : Disk) (target : Record), order.Reaches layout target →
            (Partition.seekRecord disk target).run it
              = (Partition.seekValues disk (order.valuesIn layout target)).run it := by
  refine ⟨KeyLayout.exists_ofOrder_iff, fun g hg => ?_, ?_⟩
  -- columns that occur in a schema are of primitive types, so the tuples have a layout too
  · have hoccurs := KeyLayout.exists_ofOrder_iff.1 ⟨g, hg⟩
    obtain ⟨tuples, htuples⟩ :=
      KeyLayout.exists_forTuples_iff.2 ⟨hdistinct, fun c hc => (hoccurs c hc).1⟩
    exact ⟨tuples, htuples, fun record => ⟨KeyLayout.keyOfRecord_eq_keyOfTuple hg htuples,
      KeyLayout.exists_keyOfRecord_eq_error hg⟩⟩
  · rintro ρ _ plan calls it reader rfl horder hreader rfl hoccurs disk target hreaches
    have hnew : (Partition.ofPlan plan : Partition ρ).MatchesOrder := fun _ hnone => by cases hnone
    exact Partition.run_seekRecord_eq_run_seekValues (Partition.matchesOrder_behind hnew calls)
      horder hreader hoccurs hreaches

/-- Files with the time of their last change, a name and a size. -/
def listing : Schema :=
  ⟨[⟨"at", .primitive .long⟩, ⟨"name", .primitive .string⟩, ⟨"size", .primitive .int⟩]⟩

/-- The greatest files last, of equal sizes by name. -/
def bySize : SortOrder := ⟨⟨[⟨"size", .primitive .int⟩, ⟨"name", .primitive .string⟩]⟩⟩

/-- A plan for the files by size. -/
def listingPlan : LoadPlan := ⟨"ls", "1", ["files"], none, true, listing, some bySize⟩

/-- A partition of files by size, with a reader that the host has opened. -/
def openListing : Partition TableReader :=
  Partition.behind (.ofPlan listingPlan)
    [(.empty, .attach ⟨listing, true, []⟩ ⟨0, ["files"]⟩)]

/-- The size and the name of a file make its key, in this order, wherever they stand in the record.
A record without a size is refused, and going to a file is going to its size and its name. -/
theorem recordKeys_eq_tupleKeys_bySize :
    ∃ g tuples, KeyLayout.ofOrder bySize listing = .ok g
      ∧ KeyLayout.forTuples bySize = .ok tuples
      ∧ g.keyOfRecord [.long 7, .string "a", .int 5] = tuples.keyOfTuple [.int 5, .string "a"]
      ∧ (∃ fault, g.keyOfRecord [.long 7, .string "a"] = .error (.configuration fault))
      ∧ (Partition.seekRecord .empty [.long 7, .string "a", .int 5]).run openListing
        = (Partition.seekValues .empty [.int 5, .string "a"]).run openListing := by
  have hdistinct : bySize.schema.NamesDistinct := by decide
  have hoccurs : bySize.OccursIn listing := by
    intro c hc
    rcases List.mem_pair.1 hc with rfl | rfl
    · exact ⟨rfl, rfl⟩
    · exact ⟨rfl, rfl⟩
  have hreaches : bySize.Reaches listing [.long 7, .string "a", .int 5] := by
    intro c hc i hi
    rcases List.mem_pair.1 hc with rfl | rfl
    · obtain rfl := Option.some.inj hi
      decide
    · obtain rfl := Option.some.inj hi
      decide
  have hshort : ¬ bySize.Reaches listing [.long 7, .string "a"] := fun h =>
    absurd (h ⟨"size", .primitive .int⟩ List.mem_cons_self 2 rfl) (by decide)
  obtain ⟨hlayouts, hkeys, hseeks⟩ := recordKeys_eq_tupleKeys hdistinct listing
  obtain ⟨g, hg⟩ := hlayouts.2 hoccurs
  obtain ⟨tuples, htuples, hrecords⟩ := hkeys g hg
  refine ⟨g, tuples, hg, htuples, (hrecords _).1 hreaches, (hrecords _).2 hshort, ?_⟩
  exact hseeks listingPlan _ openListing ⟨listing, true, []⟩ rfl rfl rfl rfl hoccurs .empty _
    hreaches

end SortOrder

end TableScan
