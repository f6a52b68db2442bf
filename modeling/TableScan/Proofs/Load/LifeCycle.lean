import TableScan.Proofs.Load.Turns

/-!
# The life of a partition

All that a host can call of a partition, in any order and however often, failed calls included; the
engine of each start, the readers and the disk at each call are any. `Partition.history` is what
came of the calls one after another, each an `Episode`.

Every episode is a turn, and in a turn the `PartitionState.rank` of the state never falls. What may
happen once follows from that: a seek takes a partition from a lower rank to a greater one, and
nothing takes it back.

Main statement: every history is that of a life cycle (`Partition.isLifeCycle_history`).
-/

namespace TableScan

variable {ρ : Type}

/-! ## States -/

namespace PartitionState

/-- The ways from one state to another. -/
inductive LeadsTo : PartitionState → PartitionState → Prop where
  | opened : LeadsTo .created .initialized
  | sought : LeadsTo .initialized .seeked
  | read {state : PartitionState} (h : state ∈ [.initialized, .seeked, .iterating]) :
    LeadsTo state .iterating
  | ended {state : PartitionState} (h : state ∈ [.initialized, .seeked, .iterating]) :
    LeadsTo state .exhausted
  | closed (state : PartitionState) : LeadsTo state .closed

/-- How far on in its life a partition is. -/
def rank : PartitionState → Nat
  | .created => 0
  | .initialized => 1
  | .seeked => 2
  | .iterating => 3
  | .exhausted => 4
  | .closed => 5

theorem rank_le_of_mem {state : PartitionState} (h : state ∈ [.initialized, .seeked, .iterating]) :
    state.rank ≤ 3 := by
  revert h
  cases state <;> decide

/-- No way leads back. -/
theorem LeadsTo.rank_le {s t : PartitionState} (h : LeadsTo s t) : s.rank ≤ t.rank := by
  cases h with
  | opened => decide
  | sought => decide
  | read h => exact rank_le_of_mem h
  | ended h => exact Nat.le_succ_of_le (rank_le_of_mem h)
  | closed => cases s <;> decide

end PartitionState

/-! ## What turns leave -/

namespace Turn

variable {it after : Partition ρ} {call : LifeCall ρ} {result : LoadResult (Option Record)}
  {found : Option Record} {cause : LoadError} {uses : List ReaderUse}

/-- A partition stays sound from turn to turn. -/
theorem sound (h : Turn it call result after uses) (hsound : it.IsSound) : after.IsSound := by
  cases h with
  | refused => exact hsound
  | failed _ hreader _ => exact ⟨hreader.trans hsound.reader_isSome⟩
  | opened => exact ⟨rfl⟩
  | sought => exact ⟨rfl⟩
  | read => exact ⟨rfl⟩
  | ended => exact ⟨rfl⟩
  | endedBefore => exact hsound
  | closed => exact ⟨rfl⟩
  | closedBefore => exact hsound

/-- The state stays, or changes along one of the ways. -/
theorem moves (h : Turn it call result after uses) :
    after.state = it.state ∨ it.state.LeadsTo after.state := by
  cases h with
  | refused => exact .inl rfl
  | failed => exact .inl rfl
  | opened _ hstate => exact .inr (hstate ▸ .opened)
  | sought _ hstate => exact .inr (hstate ▸ .sought)
  | read _ hstate => exact .inr (.read hstate)
  | ended _ hstate => exact .inr (.ended hstate)
  | endedBefore => exact .inl rfl
  | closed => exact .inr (.closed _)
  | closedBefore => exact .inl rfl

theorem rank_le (h : Turn it call result after uses) : it.state.rank ≤ after.state.rank := by
  rcases h.moves with heq | hleads
  · rw [heq]
  · exact hleads.rank_le

/-- A failure leaves the state. -/
theorem state_of_error (h : Turn it call (.error cause) after uses) : after.state = it.state := by
  cases h with
  | refused => rfl
  | failed => rfl

/-- Only calls that the state allows do anything. -/
theorem of_not_allowed (h : Turn it call result after uses)
    (hstate : it.state ∉ call.kind.allowed) :
    result = .error (.state call.operation it.state.name) ∧ uses = [] ∧ after = it := by
  -- every other turn needs a state that allows its call
  have hno : ∀ {kind}, call.kind = kind → it.state ∉ kind.allowed := by
    rintro _ rfl
    exact hstate
  cases h with
  | refused => exact ⟨rfl, rfl, rfl⟩
  | failed hin => exact absurd (CallKind.mem_allowed_of_mem_mayFail hin) hstate
  | opened hkind hin => exact absurd (List.mem_singleton.2 hin) (hno hkind)
  | sought hkind hin => exact absurd (List.mem_singleton.2 hin) (hno hkind)
  | read hkind hin => exact absurd (CallKind.mem_allowed_of_mem_mayFail hin) (hno hkind)
  | ended hkind hin => exact absurd (CallKind.mem_allowed_of_mem_mayFail hin) (hno hkind)
  | endedBefore hkind hin => exact absurd (hin ▸ by decide) (hno hkind)
  | closed hkind => exact absurd (CallKind.mem_allowed_close _) (hno hkind)
  | closedBefore hkind => exact absurd (CallKind.mem_allowed_close _) (hno hkind)

/-- A seek succeeds in one state, and leads to the next one. -/
theorem of_sought (h : Turn it call (.ok found) after uses) (hseek : call.kind = .seek) :
    it.state = .initialized ∧ after.state = .seeked := by
  cases h with
  | opened hkind => cases hkind.symm.trans hseek
  | sought _ hstate => exact ⟨hstate, rfl⟩
  | read hkind => cases hkind.symm.trans hseek
  | ended hkind => cases hkind.symm.trans hseek
  | endedBefore hkind => cases hkind.symm.trans hseek
  | closed hkind => cases hkind.symm.trans hseek
  | closedBefore hkind => cases hkind.symm.trans hseek

/-- A record keeps the partition reading, and no record ends it. -/
theorem of_advanced (h : Turn it call (.ok found) after uses) (hnext : call.kind = .next) :
    after.state = if found.isSome then .iterating else .exhausted := by
  cases h with
  | opened hkind => cases hkind.symm.trans hnext
  | sought hkind => cases hkind.symm.trans hnext
  | read => rfl
  | ended => rfl
  | endedBefore _ hstate => exact hstate
  | closed hkind => cases hkind.symm.trans hnext
  | closedBefore hkind => cases hkind.symm.trans hnext

/-- The end stays the end until the partition is closed, and is told without the reader. -/
theorem of_exhausted (h : Turn it call result after uses) (hstate : it.state = .exhausted)
    (hclose : call.kind ≠ .close) :
    after.state = .exhausted ∧ (call.kind = .next → result = .ok none ∧ uses = []) := by
  cases h with
  | refused hnot =>
    refine ⟨hstate, fun hnext => absurd ?_ hnot⟩
    rw [hstate, hnext]
    decide
  -- at the end a call for a record cannot fail
  | failed hin =>
    refine ⟨hstate, fun hnext => ?_⟩
    rw [hstate, hnext] at hin
    exact absurd hin (by decide)
  | opened _ hin => cases hstate.symm.trans hin
  | sought _ hin => cases hstate.symm.trans hin
  | read _ hin => exact absurd (hstate ▸ hin) (by decide)
  | ended _ hin => exact absurd (hstate ▸ hin) (by decide)
  | endedBefore => exact ⟨hstate, fun _ => ⟨rfl, rfl⟩⟩
  | closed hkind => exact absurd hkind hclose
  | closedBefore hkind => exact absurd hkind hclose

/-- A call to close ends the life, and closes the reader if there is one. -/
theorem of_close (h : Turn it call result after uses) (hclose : call.kind = .close)
    (hsound : it.IsSound) :
    after.state = .closed ∧ uses = if it.reader.isSome then [.close] else [] := by
  cases h with
  | refused hnot =>
    rw [hclose] at hnot
    exact absurd (CallKind.mem_allowed_close _) hnot
  | failed hin =>
    rw [hclose] at hin
    exact absurd hin List.not_mem_nil
  | opened hkind => cases hkind.symm.trans hclose
  | sought hkind => cases hkind.symm.trans hclose
  | read hkind => cases hkind.symm.trans hclose
  | ended hkind => cases hkind.symm.trans hclose
  | endedBefore hkind => cases hkind.symm.trans hclose
  | closed => exact ⟨rfl, rfl⟩
  -- a partition that is closed has no reader left to close
  | closedBefore _ hstate =>
    refine ⟨hstate, ?_⟩
    rw [hsound.reader_isSome, hstate]
    rfl

/-- No other call closes a reader. -/
theorem close_not_mem (h : Turn it call result after uses) (hclose : call.kind ≠ .close) :
    ReaderUse.close ∉ uses := by
  cases h with
  | failed _ _ huses => exact huses
  | closed hkind => exact absurd hkind hclose
  | refused => decide
  | opened => decide
  | sought => decide
  | read => decide
  | ended => decide
  | endedBefore => decide
  | closedBefore => decide

/-- Nothing comes behind the end of a life. -/
theorem of_closed (h : Turn it call result after uses) (hstate : it.state = .closed) :
    after.state = .closed ∧ uses = [] ∧ ¬ (call.kind = .open ∧ result = .ok none) := by
  cases h with
  | refused => exact ⟨hstate, rfl, fun hopened => by cases hopened.2⟩
  | failed hin =>
    rw [hstate] at hin
    exact absurd hin (by cases call.kind <;> decide)
  | opened _ hin => cases hstate.symm.trans hin
  | sought _ hin => cases hstate.symm.trans hin
  | read _ hin => exact absurd (hstate ▸ hin) (by decide)
  | ended _ hin => exact absurd (hstate ▸ hin) (by decide)
  | endedBefore _ hin => cases hstate.symm.trans hin
  | closed _ hne => exact absurd hstate hne
  | closedBefore hkind => exact ⟨hstate, rfl, fun hopened => by cases hkind.symm.trans hopened.1⟩

/-- A partition gets its reader when a call to open succeeds. -/
theorem of_created (h : Turn it call result after uses) (hstate : it.state = .created)
    (hclose : call.kind ≠ .close) :
    call.kind = .open ∧ result = .ok none ∧ after.state = .initialized
      ∨ ¬ (call.kind = .open ∧ result = .ok none) ∧ after.state = .created := by
  cases h with
  | refused => exact .inr ⟨fun hopened => (by cases hopened.2), hstate⟩
  | failed => exact .inr ⟨fun hopened => (by cases hopened.2), hstate⟩
  | opened hkind => exact .inl ⟨hkind, rfl, rfl⟩
  | sought _ hin => cases hstate.symm.trans hin
  | read _ hin => exact absurd (hstate ▸ hin) (by decide)
  | ended _ hin => exact absurd (hstate ▸ hin) (by decide)
  | endedBefore _ hin => cases hstate.symm.trans hin
  | closed hkind => exact absurd hkind hclose
  | closedBefore hkind => exact absurd hkind hclose

/-- A partition keeps its reader until it is closed. -/
theorem holdsReader_of_ne_close (h : Turn it call result after uses) (hclose : call.kind ≠ .close)
    (hholds : it.state.holdsReader = true) : after.state.holdsReader = true := by
  cases h with
  | refused => exact hholds
  | failed => exact hholds
  | opened => rfl
  | sought => rfl
  | read => rfl
  | ended => rfl
  | endedBefore => exact hholds
  | closed hkind => exact absurd hkind hclose
  | closedBefore => exact hholds

end Turn

/-! ## Episodes -/

/-- A call of a partition, and what came of it. -/
structure Episode (ρ : Type) where
  call : LifeCall ρ
  before : Partition ρ
  result : LoadResult (Option Record)
  after : Partition ρ
  uses : List ReaderUse

namespace Episode

/-- A reader was opened or attached. -/
def HasOpened (e : Episode ρ) : Prop := e.call.kind = .open ∧ e.result = .ok none

/-- A seek was answered. -/
def HasSought (e : Episode ρ) : Prop := e.call.kind = .seek ∧ e.result = .ok none

/-- The next record was asked for, and the answer was no error. -/
def HasAdvanced (e : Episode ρ) : Prop := e.call.kind = .next ∧ ∃ found, e.result = .ok found

/-- The end was told. -/
def HasEnded (e : Episode ρ) : Prop := e.call.kind = .next ∧ e.result = .ok none

/-- A record was returned. -/
def hasRead (e : Episode ρ) : Bool :=
  match e.result with
  | .ok (some _) => true
  | _ => false

/-- The episode is a turn of a sound partition. -/
structure IsTurn (e : Episode ρ) : Prop where
  sound : e.before.IsSound
  turn : Turn e.before e.call e.result e.after e.uses

variable {e e' : Episode ρ}

/-- A seek that succeeds takes the partition from the first rank to the second one. -/
theorem IsTurn.rank_of_sought (h : e.IsTurn) (hsought : e.HasSought) :
    e.before.state.rank = 1 ∧ e.after.state.rank = 2 := by
  obtain ⟨hseek, hresult⟩ := hsought
  have hturn := h.turn
  rw [hresult] at hturn
  obtain ⟨hbefore, hafter⟩ := hturn.of_sought hseek
  rw [hbefore, hafter]
  exact ⟨rfl, rfl⟩

/-- A record that was asked for leaves the third rank at least. -/
theorem IsTurn.rank_of_advanced (h : e.IsTurn) (hadvanced : e.HasAdvanced) :
    3 ≤ e.after.state.rank := by
  obtain ⟨hnext, found, hresult⟩ := hadvanced
  have hturn := h.turn
  rw [hresult] at hturn
  rw [hturn.of_advanced hnext]
  split <;> decide

/-- A turn counts the record that it returns. -/
theorem IsTurn.records (h : e.IsTurn) :
    e.after.records = e.before.records + if e.hasRead then 1 else 0 := by
  obtain ⟨call, before, result, after, uses⟩ := e
  have hturn : Turn before call result after uses := h.turn
  cases hturn with
  | refused => rfl
  | failed => rfl
  | opened => rfl
  | sought => rfl
  | read => rfl
  | ended => rfl
  | endedBefore => rfl
  | closed => rfl
  | closedBefore => rfl

end Episode

/-- A history uses up a reader that is `held` at some time: if there is a call to close it is closed
once, in its last use, and otherwise not at all. -/
structure UsesUp (held : Prop) (h : List (Episode ρ)) : Prop where
  closes : held → (∃ e ∈ h, e.call.kind = .close) →
    ∃ uses, h.flatMap Episode.uses = uses ++ [.close] ∧ ReaderUse.close ∉ uses
  keeps : ¬ (held ∧ ∃ e ∈ h, e.call.kind = .close) → ReaderUse.close ∉ h.flatMap Episode.uses

namespace UsesUp

variable {held : Prop} {e : Episode ρ} {h : List (Episode ρ)}

theorem nil (held : Prop) : UsesUp held ([] : List (Episode ρ)) where
  closes := fun _ ⟨_, he, _⟩ => absurd he List.not_mem_nil
  keeps := fun _ => List.not_mem_nil

/-- Before the call to close the reader may be used for anything else. -/
theorem cons (hrest : UsesUp held h) (hclose : e.call.kind ≠ .close)
    (huses : ReaderUse.close ∉ e.uses) : UsesUp held (e :: h) := by
  constructor
  · intro hheld hcalled
    rw [List.exists_mem_cons_iff, or_iff_right hclose] at hcalled
    obtain ⟨uses, hall, hnot⟩ := hrest.closes hheld hcalled
    -- the uses of the rest end with the close, and those of this episode come before
    refine ⟨e.uses ++ uses, ?_, ?_⟩
    · rw [List.flatMap_cons, hall, List.append_assoc]
    · rw [List.mem_append]
      exact not_or.2 ⟨huses, hnot⟩
  · intro hno
    rw [List.exists_mem_cons_iff, or_iff_right hclose] at hno
    rw [List.flatMap_cons, List.mem_append]
    exact not_or.2 ⟨huses, hrest.keeps hno⟩

/-- With the call to close the reader is used for the last time. -/
theorem of_close (hclose : e.call.kind = .close) (hheld : held) (huses : e.uses = [.close])
    (hrest : h.flatMap Episode.uses = []) : UsesUp held (e :: h) := by
  constructor
  · refine fun _ _ => ⟨[], ?_, List.not_mem_nil⟩
    rw [List.flatMap_cons, huses, hrest]
    rfl
  · exact fun hno => absurd ⟨hheld, e, List.mem_cons_self, hclose⟩ hno

/-- Without a reader there is nothing to use. -/
theorem of_not_held (hheld : ¬ held) (huses : h.flatMap Episode.uses = []) : UsesUp held h := by
  refine ⟨fun hyes => absurd hyes hheld, fun _ => ?_⟩
  rw [huses]
  exact List.not_mem_nil

end UsesUp

/-! ## Histories -/

namespace Partition

section

variable [RecordReader ρ]

/-- What comes of a call, on the disk as it is then. -/
def episode (disk : Disk) (call : LifeCall ρ) (it : Partition ρ) : Episode ρ :=
  let r := (call.perform disk).run it
  ⟨call, it, r.result, r.state, call.uses disk it⟩

/-- What comes of calls one after another; a call that fails is one of them. -/
def history : Partition ρ → List (Disk × LifeCall ρ) → List (Episode ρ)
  | _, [] => []
  | it, (disk, call) :: calls =>
    let e := episode disk call it
    e :: history e.after calls

/-- The partition behind calls. -/
def behind (it : Partition ρ) (calls : List (Disk × LifeCall ρ)) : Partition ρ :=
  calls.foldl (fun it c => (episode c.1 c.2 it).after) it

end

/-- A life of a partition so far, and the partition now. -/
structure IsLifeCycle (h : List (Episode ρ)) (it : Partition ρ) : Prop where
  /-- The state changes along the ways that there are. -/
  moves : ∀ e ∈ h, e.after.state = e.before.state ∨ e.before.state.LeadsTo e.after.state
  /-- A call that fails leaves the state as it was. -/
  stays : ∀ e ∈ h, ∀ cause, e.result = .error cause → e.after.state = e.before.state
  /-- A call that the state does not allow fails for that reason, and nothing is touched. -/
  refuses : ∀ e ∈ h, e.before.state ∉ e.call.kind.allowed →
    e.result = .error (.state e.call.operation e.before.state.name) ∧ e.uses = []
      ∧ e.after = e.before
  /-- Before a seek that succeeds no other has succeeded, and no record was asked for with
  success. -/
  seeks : h.Pairwise fun e e' => e'.HasSought → ¬ e.HasSought ∧ ¬ e.HasAdvanced
  /-- Until the partition is closed the end is told again, without a look at the reader. -/
  ends : ∀ e rest, e :: rest <:+ h → e.HasEnded →
    ∀ e' ∈ rest.takeWhile fun e' => e'.call.kind ≠ .close, e'.call.kind = .next →
      e'.result = .ok none ∧ e'.uses = []
  /-- The reader of a partition that was closed is closed once, and that is its last use. -/
  usesUp : UsesUp (∃ e ∈ h, e.HasOpened) h
  /-- A reader is held in four states and in no other. -/
  holds : it.reader.isSome = true ↔ it.state ∈ [.initialized, .seeked, .iterating, .exhausted]
  /-- The records that were returned are counted. -/
  counts : it.records = h.countP Episode.hasRead

variable [RecordReader ρ] {it : Partition ρ}

theorem isTurn_episode (hsound : it.IsSound) (disk : Disk)
    (call : LifeCall ρ) : (episode disk call it).IsTurn :=
  ⟨hsound, LifeCall.turn hsound call⟩

/-- Every episode of a history is a turn, and none starts in a state below the first. -/
theorem isTurn_of_mem_history (hsound : it.IsSound) (calls : List (Disk × LifeCall ρ)) :
    ∀ e ∈ history it calls, e.IsTurn ∧ it.state.rank ≤ e.before.state.rank := by
  induction calls generalizing it with
  | nil => exact fun e he => absurd he List.not_mem_nil
  | cons c calls ih =>
    obtain ⟨disk, call⟩ := c
    have hturn := isTurn_episode hsound disk call
    refine List.forall_mem_cons.2 ⟨⟨hturn, Nat.le_refl _⟩, fun e he => ?_⟩
    -- later episodes start where this one ended, or above
    obtain ⟨hrest, hrank⟩ := ih (hturn.turn.sound hsound) e he
    exact ⟨hrest, hturn.turn.rank_le.trans hrank⟩

/-- Two episodes of a history are turns, and the first one does not leave a greater rank than the
second one finds. -/
theorem pairwise_history {R : Episode ρ → Episode ρ → Prop}
    (h : ∀ e e', e.IsTurn → e'.IsTurn → e.after.state.rank ≤ e'.before.state.rank → R e e')
    (hsound : it.IsSound) (calls : List (Disk × LifeCall ρ)) :
    (history it calls).Pairwise R := by
  induction calls generalizing it with
  | nil => exact .nil
  | cons c calls ih =>
    obtain ⟨disk, call⟩ := c
    have hturn := isTurn_episode hsound disk call
    have hsound' := hturn.turn.sound hsound
    refine .cons (fun e he => ?_) (ih hsound')
    obtain ⟨hrest, hrank⟩ := isTurn_of_mem_history hsound' calls e he
    exact h _ _ hturn hrest hrank

/-- The end of a history is a history of its own. -/
theorem exists_of_suffix (hsound : it.IsSound)
    {calls : List (Disk × LifeCall ρ)} {e : Episode ρ} {rest : List (Episode ρ)}
    (h : e :: rest <:+ history it calls) :
    e.IsTurn ∧ ∃ calls', rest = history e.after calls' := by
  induction calls generalizing it with
  | nil => exact absurd (List.eq_nil_of_suffix_nil h) (List.cons_ne_nil _ _)
  | cons c calls ih =>
    obtain ⟨disk, call⟩ := c
    have hturn := isTurn_episode hsound disk call
    -- the suffix is the whole history, or it lies behind the first episode
    rcases List.suffix_cons_iff.1 h with heq | hrest
    · obtain ⟨rfl, rfl⟩ := List.cons.inj heq
      exact ⟨hturn, calls, rfl⟩
    · exact ih (hturn.turn.sound hsound) hrest

/-- At the end every call for a record is told the end, until the partition is closed. -/
theorem history_of_exhausted (hsound : it.IsSound) (hstate : it.state = .exhausted)
    (calls : List (Disk × LifeCall ρ)) :
    ∀ e ∈ (history it calls).takeWhile fun e => e.call.kind ≠ .close, e.call.kind = .next →
      e.result = .ok none ∧ e.uses = [] := by
  induction calls generalizing it with
  | nil => exact fun e he => absurd he List.not_mem_nil
  | cons c calls ih =>
    obtain ⟨disk, call⟩ := c
    have hturn := isTurn_episode hsound disk call
    -- the closing call ends what is looked at
    by_cases hclose : call.kind = .close
    · have hstop : ¬ decide ((episode disk call it).call.kind ≠ .close) = true := by
        rw [decide_eq_true_iff]
        exact not_not_intro hclose
      rw [history, List.takeWhile_cons, if_neg hstop]
      exact fun e he => absurd he List.not_mem_nil
    · obtain ⟨hafter, htold⟩ := hturn.turn.of_exhausted hstate hclose
      have hgo : decide ((episode disk call it).call.kind ≠ .close) = true :=
        decide_eq_true hclose
      rw [history, List.takeWhile_cons, if_pos hgo]
      exact List.forall_mem_cons.2 ⟨htold, ih (hturn.turn.sound hsound) hafter⟩

/-- Nothing is used behind the end of a life, and nothing opened. -/
theorem history_of_closed (hsound : it.IsSound) (hstate : it.state = .closed)
    (calls : List (Disk × LifeCall ρ)) :
    (history it calls).flatMap Episode.uses = [] ∧ ¬ ∃ e ∈ history it calls, e.HasOpened := by
  induction calls generalizing it with
  | nil => exact ⟨rfl, fun ⟨_, he, _⟩ => List.not_mem_nil he⟩
  | cons c calls ih =>
    obtain ⟨disk, call⟩ := c
    have hturn := isTurn_episode hsound disk call
    obtain ⟨hafter, huses, hopened⟩ := hturn.turn.of_closed hstate
    obtain ⟨hrestUses, hrestOpened⟩ := ih (hturn.turn.sound hsound) hafter
    rw [history, List.flatMap_cons, huses, hrestUses, List.exists_mem_cons_iff]
    exact ⟨rfl, not_or.2 ⟨hopened, hrestOpened⟩⟩

/-- A partition that holds a reader uses it up as one that has opened it. -/
theorem usesUp_of_holdsReader (hsound : it.IsSound) (hholds : it.state.holdsReader = true)
    (calls : List (Disk × LifeCall ρ)) :
    UsesUp True (history it calls) := by
  induction calls generalizing it with
  | nil => exact UsesUp.nil _
  | cons c calls ih =>
    obtain ⟨disk, call⟩ := c
    have hturn := isTurn_episode hsound disk call
    have hsound' := hturn.turn.sound hsound
    -- with the close the reader goes, and before it the reader stays
    by_cases hclose : call.kind = .close
    · obtain ⟨hafter, huses⟩ := hturn.turn.of_close hclose hsound
      have hrest := (history_of_closed hsound' hafter calls).1
      have hreader : it.reader.isSome = true := hsound.reader_isSome.trans hholds
      exact .of_close hclose trivial (huses.trans (if_pos hreader)) hrest
    · exact (ih hsound' (hturn.turn.holdsReader_of_ne_close hclose hholds)).cons hclose
        (hturn.turn.close_not_mem hclose)

/-- A new partition uses up the reader that it gets. -/
theorem usesUp_of_created (hsound : it.IsSound) (hstate : it.state = .created)
    (calls : List (Disk × LifeCall ρ)) :
    UsesUp (∃ e ∈ history it calls, e.HasOpened) (history it calls) := by
  induction calls generalizing it with
  | nil => exact UsesUp.nil _
  | cons c calls ih =>
    obtain ⟨disk, call⟩ := c
    have hturn := isTurn_episode hsound disk call
    have hsound' := hturn.turn.sound hsound
    rw [history, List.exists_mem_cons_iff]
    by_cases hclose : call.kind = .close
    · obtain ⟨hafter, huses⟩ := hturn.turn.of_close hclose hsound
      obtain ⟨hrest, hopened⟩ := history_of_closed hsound' hafter calls
      -- closed before it was opened: there never was a reader
      have hnone : ¬ it.reader.isSome = true := by
        rw [hsound.reader_isSome, hstate]
        decide
      refine .of_not_held (not_or.2 ⟨fun h => ?_, hopened⟩) ?_
      · cases hclose.symm.trans h.1
      · rw [List.flatMap_cons, huses.trans (if_neg hnone), hrest]
        rfl
    · have hnot := hturn.turn.close_not_mem hclose
      rcases hturn.turn.of_created hstate hclose with ⟨hkind, hok, hafter⟩ | ⟨hopened, hafter⟩
      -- from here on it is a partition that holds a reader
      · have hholds : (episode disk call it).after.state.holdsReader = true := by
          rw [hafter]
          rfl
        have hopened : (episode disk call it).HasOpened := ⟨hkind, hok⟩
        rw [eq_true (Or.inl hopened)]
        exact (usesUp_of_holdsReader hsound' hholds calls).cons hclose hnot
      · have hnone : ¬ (episode disk call it).HasOpened := hopened
        rw [or_iff_right hnone]
        exact (ih hsound' hafter).cons hclose hnot

/-- A partition stays sound through all calls. -/
theorem isSound_behind (hsound : it.IsSound) (calls : List (Disk × LifeCall ρ)) :
    (behind it calls).IsSound :=
  List.foldlRecOn calls _ hsound fun _ hsound c _ =>
    (isTurn_episode hsound c.1 c.2).turn.sound hsound

/-- The count goes up by the records that were returned. -/
theorem records_behind (hsound : it.IsSound) (calls : List (Disk × LifeCall ρ)) :
    (behind it calls).records = it.records + (history it calls).countP Episode.hasRead := by
  induction calls generalizing it with
  | nil => rfl
  | cons c calls ih =>
    obtain ⟨disk, call⟩ := c
    have hturn := isTurn_episode hsound disk call
    show (behind (episode disk call it).after calls).records = _
    rw [history, ih (hturn.turn.sound hsound), hturn.records, List.countP_cons, Nat.add_assoc]
    exact congrArg (it.records + ·) (Nat.add_comm _ _)

/-- Whatever a host calls of a new partition, in any order, and whatever its engines and its readers
do at each call: it has the life of a partition. -/
theorem isLifeCycle_history (plan : LoadPlan) (calls : List (Disk × LifeCall ρ)) :
    IsLifeCycle (history (ofPlan plan) calls) (behind (ofPlan plan) calls) := by
  have hsound : (ofPlan plan : Partition ρ).IsSound := ⟨rfl⟩
  have hturns := isTurn_of_mem_history hsound calls
  constructor
  case moves => exact fun e he => (hturns e he).1.turn.moves
  case stays =>
    intro e he cause hresult
    have hturn := (hturns e he).1.turn
    rw [hresult] at hturn
    exact hturn.state_of_error
  case refuses => exact fun e he hstate => (hturns e he).1.turn.of_not_allowed hstate
  case seeks =>
    refine pairwise_history (fun e e' hturn hturn' hrank hsought => ?_) hsound calls
    -- the second one starts below the rank that either leaves
    rw [(hturn'.rank_of_sought hsought).1] at hrank
    refine ⟨fun hbefore => ?_, fun hbefore => ?_⟩
    · rw [(hturn.rank_of_sought hbefore).2] at hrank
      omega
    · have hleft := hturn.rank_of_advanced hbefore
      omega
  case ends =>
    intro e rest hsuffix hended
    obtain ⟨hturn, calls', rfl⟩ := exists_of_suffix hsound hsuffix
    have hstate : e.after.state = .exhausted := by
      obtain ⟨hnext, hresult⟩ := hended
      have hturn := hturn.turn
      rw [hresult] at hturn
      exact hturn.of_advanced hnext
    exact history_of_exhausted (hturn.turn.sound hturn.sound) hstate calls'
  case usesUp => exact usesUp_of_created hsound rfl calls
  case holds =>
    rw [(isSound_behind hsound calls).reader_isSome]
    generalize (behind (ofPlan plan) calls).state = state
    cases state <;> decide
  case counts =>
    rw [records_behind hsound calls]
    exact Nat.zero_add _

end Partition

end TableScan
