import TableScan.Proofs.Reader.InTurn
import TableScan.Proofs.Table.Salvage

/-!
# Readers after failures

A reader whose call has failed can be called again, and goes on with what the failed call left.
`TableReader.Gives` says that it will then hand out a record: tables read in turn have a row left in
front of everything that blocks them, merged ones have an entry and none of them is stuck.

`Continues` is what such a predicate has to do with the calls. Main statements: a reader that gives
hands out a record, or fails and has less to come, and one that does not give stays so
(`continues_next`), also where it is positioned (`gives_of_gives_seekTo`).
-/

namespace TableScan

/-- `Gives` decides whether calls are going to hand out a record: while it holds, a call does so or
fails and leaves less; where it does not hold, no call does and it does not come to hold. -/
structure Continues {σ : Type} (Gives : σ → Prop) (left : σ → Nat) (s : σ)
    (o : Outcome σ (Option Record)) : Prop where
  goes : Gives s → (∃ record, o.result = .ok (some record))
    ∨ (∃ cause, o.result = .error cause) ∧ Gives o.state ∧ left o.state < left s
  silent : ¬ Gives s → (∀ record, o.result ≠ .ok (some record)) ∧ ¬ Gives o.state

/-- A part decides for the whole of which it is the only part that matters. -/
theorem Continues.map {σ τ : Type} {Gives : σ → Prop} {Gives' : τ → Prop} {left : σ → Nat}
    {left' : τ → Nat} {s : σ} {o : Outcome σ (Option Record)} (h : Continues Gives left s o)
    (put : σ → τ) (hgives : ∀ s, Gives' (put s) ↔ Gives s) (hleft : ∀ s, left' (put s) = left s) :
    Continues Gives' left' (put s) ⟨o.result, put o.state, o.log⟩ := by
  constructor
  · rw [hgives, hgives, hleft, hleft]
    exact h.goes
  · rw [hgives, hgives]
    exact h.silent

namespace TableReader

open TableCursor (HasEntry IsStuck SameStanding LosesOnly loadHead dropBelow)

variable {disk : Disk} {cursors cursors' : List TableCursor}

/-- What is left of the row files of all cursors; every failed read takes some of it. -/
def bytesLeft (disk : Disk) (cursors : List TableCursor) : Nat :=
  (cursors.map (TableCursor.bytesLeft disk)).sum

theorem bytesLeft_cons (disk : Disk) (s : TableCursor) (rest : List TableCursor) :
    bytesLeft disk (s :: rest) = s.bytesLeft disk + bytesLeft disk rest := by
  rw [bytesLeft, List.map_cons, List.sum_cons, bytesLeft]

/-! ## In turn -/

/-- Of tables read in turn a row is left, and no table in front of it is blocked. -/
def GivesInTurn (disk : Disk) : List TableCursor → Prop
  | [] => False
  | s :: rest => s.rowsLeft disk ≠ [] ∨ ¬ s.IsBlocked ∧ GivesInTurn disk rest

/-- A call of tables read in turn goes on to a row or stays silent. -/
theorem continues_nextInTurn (disk : Disk) (cursors : List TableCursor) :
    Continues (GivesInTurn disk) (bytesLeft disk) cursors (nextInTurn disk cursors) := by
  induction cursors with
  | nil => exact ⟨fun h => h.elim, fun h => ⟨(fun _ hresult => by cases hresult), h⟩⟩
  | cons s rest ih =>
    have hadvance := TableCursor.advance_nextRow disk s
    unfold nextInTurn
    generalize TableCursor.nextRow disk s = o at hadvance
    cases hadvance with
    -- a table at its end has no row, so the tables behind it decide
    | @ended s' log hopen hrows hdone hle hsame =>
      have hgives : GivesInTurn disk (s :: rest) ↔ GivesInTurn disk rest := by
        show (_ ∨ _ ∧ _) ↔ _
        rw [or_iff_right (not_not_intro hrows), and_iff_right hopen]
      constructor
      · intro h
        refine (ih.goes (hgives.1 h)).imp_right ?_
        rintro ⟨hcause, hstate, hlt⟩
        refine ⟨hcause, hstate, ?_⟩
        rw [bytesLeft_cons]
        exact Nat.lt_of_lt_of_le hlt (Nat.le_add_left _ _)
      · exact fun h => ih.silent fun hrest => h (hgives.2 hrest)
    -- a row is handed out
    | @row s' row log hopen hopen' hrows hlt hsame =>
      have hgives : GivesInTurn disk (s :: rest) := .inl (hrows ▸ List.cons_ne_nil _ _)
      exact ⟨fun _ => .inl ⟨_, rfl⟩, fun h => absurd hgives h⟩
    -- the failed read took bytes, and no row of those that are left
    | @failed s' cause log hopen hopen' hrows hlt hsame =>
      have hgives : GivesInTurn disk (s' :: rest) ↔ GivesInTurn disk (s :: rest) := by
        show (_ ∨ _ ∧ _) ↔ (_ ∨ _ ∧ _)
        rw [hrows, and_iff_right hopen, and_iff_right hopen']
      refine ⟨fun h => .inr ⟨⟨cause, rfl⟩, hgives.2 h, ?_⟩, fun h => ⟨fun _ hresult => ?_, ?_⟩⟩
      · rw [bytesLeft_cons, bytesLeft_cons]
        exact Nat.add_lt_add_right hlt _
      · cases hresult
      · exact fun h' => h (hgives.1 h')
    -- a blocked table hides all tables behind it
    | blocked hblocked =>
      have hgives : ¬ GivesInTurn disk (s :: rest) := by
        rintro (hrows | ⟨hopen, -⟩)
        · exact hrows (TableCursor.rowsLeft_of_isBlocked hblocked)
        · exact hopen hblocked
      exact ⟨fun h => absurd h hgives, fun h => ⟨(fun _ hresult => by cases hresult), h⟩⟩

/-! ## Merged -/

/-- Merged tables have an entry to give, and the merge waits for none of them in vain. -/
structure GivesMerged (disk : Disk) (cursors : List TableCursor) : Prop where
  free : ∀ s ∈ cursors, ¬ s.IsStuck
  entry : ∃ s ∈ cursors, s.HasEntry disk

/-- Cursors that only lose entries gave before what they give now. -/
theorem GivesMerged.of_losesOnly (h : List.Forall₂ (LosesOnly disk) cursors cursors')
    (hgives : GivesMerged disk cursors') : GivesMerged disk cursors := by
  constructor
  · intro s hs hstuck
    obtain ⟨s', hs', hloses⟩ := Results.exists_mem_of_forall₂ h.flip hs
    exact hgives.free s' hs' (hloses.stuck hstuck)
  · obtain ⟨s', hs', hentry⟩ := hgives.entry
    obtain ⟨s, hs, hloses⟩ := Results.exists_mem_of_forall₂ h hs'
    exact ⟨s, hs, hloses.entry hentry⟩

/-- Where every cursor stands as before, the merge gives as before. -/
theorem givesMerged_iff_of_sameStanding (h : List.Forall₂ (SameStanding disk) cursors cursors') :
    GivesMerged disk cursors' ↔ GivesMerged disk cursors := by
  have hflip : List.Forall₂ (LosesOnly disk) cursors' cursors :=
    h.flip.imp fun _ _ hsame => ⟨hsame.entry.2, hsame.stuck.1⟩
  exact ⟨.of_losesOnly (h.imp fun _ _ hsame => hsame.losesOnly), .of_losesOnly hflip⟩

/-- What can come of showing all heads. -/
inductive HeadsLoad (disk : Disk) (cursors : List TableCursor) :
    Outcome (List TableCursor) Unit → Prop where
  | shown {cursors' : List TableCursor} {log : List Log.Entry}
      (hsame : List.Forall₂ (SameStanding disk) cursors cursors')
      (hfree : ∀ s ∈ cursors, ¬ s.IsStuck)
      (hheads : ∀ s ∈ cursors', s.HasEntry disk → s.head.isSome = true)
      (hle : bytesLeft disk cursors' ≤ bytesLeft disk cursors) :
    HeadsLoad disk cursors ⟨.ok (), cursors', log⟩
  | failed {cursors' : List TableCursor} {cause : LoadError} {log : List Log.Entry}
      (hsame : List.Forall₂ (SameStanding disk) cursors cursors')
      (hlt : (∀ s ∈ cursors, ¬ s.IsStuck) →
        bytesLeft disk cursors' < bytesLeft disk cursors) :
    HeadsLoad disk cursors ⟨.error cause, cursors', log⟩

/-- Showing all heads keeps where the cursors stand. If it fails while none is stuck, bytes are
lost. -/
theorem headsLoad_forCursors (disk : Disk) (cursors : List TableCursor) :
    HeadsLoad disk cursors (forCursors (loadHead disk) cursors) := by
  induction cursors with
  | nil =>
    exact .shown .nil (fun _ hs => absurd hs List.not_mem_nil)
      (fun _ hs => absurd hs List.not_mem_nil) (Nat.le_refl _)
  | cons s rest ih =>
    have hload := TableCursor.headLoad_loadHead disk s
    unfold forCursors
    generalize loadHead disk s = o at hload
    cases hload with
    -- the first failure ends the round, and the cursors behind stay as they are
    | @failed s' cause log hsame hlt =>
      refine .failed (.cons hsame (List.forall₂_same.2 fun s _ => .refl disk s)) fun hfree => ?_
      rw [bytesLeft_cons, bytesLeft_cons]
      exact Nat.add_lt_add_right (hlt (hfree s List.mem_cons_self)) _
    | @shown s' log hsame hstuck hhead hle =>
      generalize forCursors (loadHead disk) rest = o at ih
      cases ih with
      | shown hsames hfree hheads hles =>
        refine .shown (.cons hsame hsames) (List.forall_mem_cons.2 ⟨hstuck, hfree⟩)
          (List.forall_mem_cons.2 ⟨fun hentry => hhead (hsame.entry.1 hentry), hheads⟩) ?_
        rw [bytesLeft_cons, bytesLeft_cons]
        exact Nat.add_le_add hle hles
      | failed hsames hlts =>
        refine .failed (.cons hsame hsames) fun hfree => ?_
        rw [bytesLeft_cons, bytesLeft_cons]
        exact Nat.add_lt_add_of_le_of_lt hle
          (hlts fun t ht => hfree t (List.mem_cons_of_mem _ ht))

/-- Without heads there is no least key. -/
theorem leastKey_of_no_head (h : ∀ s ∈ cursors, s.head = none) : leastKey cursors = none := by
  induction cursors with
  | nil => rfl
  | cons s rest ih =>
    obtain ⟨hs, hrest⟩ := List.forall_mem_cons.1 h
    rw [leastKey, hs, ih hrest]

/-- A key that some head has is found. -/
theorem exists_takeKey {key : RowKey} (h : ∃ s ∈ cursors, ∃ row, s.head = some (key, row)) :
    ∃ record, (takeKey key cursors).1 = some record := by
  induction cursors with
  | nil =>
    obtain ⟨s, hs, -⟩ := h
    cases hs
  | cons s rest ih =>
    unfold takeKey
    cases hhead : s.head with
    | none =>
      rw [List.exists_mem_cons_iff, hhead] at h
      refine ih (h.resolve_left ?_)
      rintro ⟨_, hrow⟩
      cases hrow
    | some shown =>
      obtain ⟨k, row⟩ := shown
      -- the key is that of this head, or it is that of a later one
      by_cases hkey : k = key
      · simp only [if_pos hkey]
        exact ⟨_, rfl⟩
      · simp only [if_neg hkey]
        rw [List.exists_mem_cons_iff, hhead] at h
        refine ih (h.resolve_left ?_)
        rintro ⟨_, hrow⟩
        exact hkey (Prod.mk.inj (Option.some.inj hrow)).1

/-- Where a head shows, one is taken. -/
theorem exists_takeLeast {s : TableCursor} (hs : s ∈ cursors) (hhead : s.head.isSome = true) :
    ∃ record, (takeLeast cursors).1 = some record := by
  -- each cursor as a queue of its head alone
  have hshows : List.Forall₂ TableCursor.Shows cursors
      (cursors.map fun s => s.headRow.toList) := by
    rw [List.forall₂_map_right_iff, List.forall₂_same]
    exact fun s _ => Option.head?_toList.symm
  unfold takeLeast
  cases hleast : leastKey cursors with
  | none =>
    have hnil := eq_nil_of_leastKey_eq_none hshows hleast _ (List.mem_map_of_mem hs)
    obtain ⟨shown, hshown⟩ := Option.isSome_iff_exists.1 hhead
    rw [TableCursor.headRow, hshown] at hnil
    cases hnil
  | some key =>
    obtain ⟨-, q, hq, e, he, rfl⟩ := leastKey_eq_some hshows hleast
    obtain ⟨t, ht, rfl⟩ := List.mem_map.1 hq
    rw [Option.head?_toList] at he
    obtain ⟨⟨k, row⟩, hshown, rfl⟩ := Option.map_eq_some_iff.1 he
    exact exists_takeKey ⟨t, ht, row, hshown⟩

/-- Without heads nothing is taken. -/
theorem takeLeast_of_no_head (h : ∀ s ∈ cursors, s.head = none) :
    takeLeast cursors = (none, cursors) := by
  unfold takeLeast
  rw [leastKey_of_no_head h]

/-- A call of merged tables goes on to a record or stays silent. -/
theorem continues_nextMerged (disk : Disk) (cursors : List TableCursor) :
    Continues (GivesMerged disk) (bytesLeft disk) cursors (nextMerged disk cursors) := by
  have hloads := headsLoad_forCursors disk cursors
  rcases hrun : forCursors (loadHead disk) cursors with ⟨result, cursors', log⟩
  rw [hrun] at hloads
  cases hloads with
  | failed hsame hlt =>
    -- some head could not be shown: the call fails, and nothing is lost but bytes
    have hgives := givesMerged_iff_of_sameStanding hsame
    rw [nextMerged_of_failed hrun]
    refine ⟨fun h => .inr ⟨⟨_, rfl⟩, hgives.2 h, hlt h.free⟩, fun h => ⟨fun _ hresult => ?_, ?_⟩⟩
    · cases hresult
    · exact fun h' => h (hgives.1 h')
  | shown hsame hfree hheads hle =>
    obtain ⟨hresult, hstate⟩ := nextMerged_of_shown hrun
    have hgives := givesMerged_iff_of_sameStanding hsame
    constructor
    · intro h
      -- a cursor that has an entry shows it by now
      obtain ⟨s, hs, hentry⟩ := (hgives.2 h).entry
      obtain ⟨record, hrecord⟩ := exists_takeLeast hs (hheads s hs hentry)
      exact .inl ⟨record, hresult.trans (congrArg _ hrecord)⟩
    · intro h
      -- nothing is stuck, so what is missing is an entry, and with it a head
      have hnone : ∀ s ∈ cursors', s.head = none := by
        intro s hs
        refine Option.not_isSome_iff_eq_none.1 fun hhead => h (hgives.1 ?_)
        refine ⟨fun t ht hstuck => ?_, s, hs, .inl hhead⟩
        obtain ⟨t', ht', hsame⟩ := Results.exists_mem_of_forall₂ hsame ht
        exact hfree t' ht' (hsame.stuck.1 hstuck)
      rw [takeLeast_of_no_head hnone] at hresult hstate
      rw [hresult, hstate]
      exact ⟨(fun _ hrecord => by cases hrecord), fun h' => h (hgives.1 h')⟩

/-! ## Readers -/

/-- Some call is going to hand out a record if the reader is asked often enough. -/
def Gives (disk : Disk) (r : TableReader) : Prop :=
  if r.sorted then GivesMerged disk r.cursors else GivesInTurn disk r.cursors

def left (disk : Disk) (r : TableReader) : Nat := bytesLeft disk r.cursors

variable {r : TableReader}

theorem gives_of_sorted (h : r.sorted = true) (cursors : List TableCursor) :
    Gives disk { r with cursors := cursors } ↔ GivesMerged disk cursors := by
  rw [Gives, if_pos h]

theorem gives_of_unsorted (h : ¬ r.sorted = true) (cursors : List TableCursor) :
    Gives disk { r with cursors := cursors } ↔ GivesInTurn disk cursors := by
  rw [Gives, if_neg h]

/-- A reader that gives hands out a record, or fails and has less to come. One that does not give
stays so. -/
theorem continues_next (disk : Disk) (r : TableReader) :
    Continues (Gives disk) (left disk) r ((next disk).run r) := by
  let put (cursors : List TableCursor) : TableReader := { r with cursors := cursors }
  have hleft : ∀ cursors, left disk (put cursors) = bytesLeft disk cursors := fun _ => rfl
  by_cases hsorted : r.sorted = true
  · rw [run_next_of_sorted disk hsorted]
    exact (continues_nextMerged disk r.cursors).map put (gives_of_sorted hsorted) hleft
  · rw [run_next_of_unsorted disk hsorted]
    exact (continues_nextInTurn disk r.cursors).map put (gives_of_unsorted hsorted) hleft

/-- A seek makes a reader give nothing that it would not have given. -/
theorem gives_of_gives_seekTo {key : RowKey} (h : ((seekTo disk key).run r).state.Gives disk) :
    r.Gives disk := by
  by_cases hsorted : r.sorted = true
  · rw [run_seekTo_of_sorted disk key hsorted] at h
    have hloses : List.Forall₂ (LosesOnly disk) r.cursors
        (forCursors (dropBelow disk key) r.cursors).state :=
      forall₂_forCursors (fun s => (SameStanding.refl disk s).losesOnly)
        (TableCursor.losesOnly_dropBelow disk key) r.cursors
    have hmerged := (gives_of_sorted hsorted _).1 h
    exact (gives_of_sorted hsorted r.cursors).2 (.of_losesOnly hloses hmerged)
  · rw [run_seekTo_of_unsorted disk key hsorted] at h
    exact h

end TableReader

end TableScan
