import TableScan.Proofs.Load.Watched

/-!
# Turns of a partition

What can come of one call on a partition, whatever its reader and its engine do: each may fail at
any call. `Turn` lists the cases, with the partition afterwards and with what was asked of its
reader.

Main statements: every call of a partition that holds a reader where it should is one of these turns
(`LifeCall.turn`), and watching the reader changes nothing (`LifeCall.run_watched`).
-/

namespace TableScan

variable {ρ α β γ : Type}

/-! ## Calls -/

/-- A call of a host in the life of a partition. The engine of a start and the reader that is
attached may be any. -/
inductive LifeCall (ρ : Type) where
  | start (engine : StorageEngine ρ) (job : JobSettings)
  | attach (reader : ρ) (share : InputShare)
  | later (call : PartitionCall)

/-- What a call is for. The two ways to open a partition are one kind, and so are the two ways to
seek. -/
inductive CallKind where
  | open
  | seek
  | next
  | close
  deriving DecidableEq, Repr

/-- The states in which a partition takes calls of a kind. -/
def CallKind.allowed : CallKind → List PartitionState
  | .open => [.created]
  | .seek => [.initialized]
  | .next => [.initialized, .seeked, .iterating, .exhausted]
  | .close => [.created, .initialized, .seeked, .iterating, .exhausted, .closed]

namespace CallKind

/-- The states in which a call of a kind may fail though it is allowed. -/
def mayFail : CallKind → List PartitionState
  | .open => [.created]
  | .seek => [.initialized]
  | .next => [.initialized, .seeked, .iterating]
  | .close => []

/-- A call that may fail is one that is allowed. -/
theorem mem_allowed_of_mem_mayFail {kind : CallKind} {state : PartitionState}
    (h : state ∈ kind.mayFail) : state ∈ kind.allowed := by
  -- by a look at every kind in every state
  revert h
  cases kind <;> cases state <;> decide

/-- A partition can be closed in every state. -/
theorem mem_allowed_close (state : PartitionState) : state ∈ CallKind.close.allowed := by
  cases state <;> decide

end CallKind

namespace LifeCall

/-- The kind of a call. -/
def kind : LifeCall ρ → CallKind
  | .start .. => .open
  | .attach .. => .open
  | .later (.seekRecord _) => .seek
  | .later (.seekValues _) => .seek
  | .later .next => .next
  | .later .close => .close

/-- The name of a call in errors. -/
def operation : LifeCall ρ → String
  | .start .. => "initialize"
  | .attach .. => "bind_reader"
  | .later (.seekRecord _) => "seek_near"
  | .later (.seekValues _) => "seek_near"
  | .later .next => "next"
  | .later .close => "close"

/-- Performs a call. Only taking a record answers one. -/
def perform [RecordReader ρ] (disk : Disk) : LifeCall ρ → Step (Partition ρ) (Option Record)
  | .start engine job => do
    Partition.start engine job
    return none
  | .attach reader share => do
    Partition.attach reader share
    return none
  | .later call => Partition.perform disk call

/-- The call with its reader watched. -/
def watched : LifeCall ρ → LifeCall (Watched ρ)
  | .start engine job => .start engine.watched job
  | .attach reader share => .attach ⟨reader⟩ share
  | .later call => .later call

end LifeCall

/-! ## Turns -/

/-- The states in which a partition holds a reader. -/
def PartitionState.holdsReader : PartitionState → Bool
  | .created => false
  | .closed => false
  | _ => true

/-- Holds of partitions that hold a reader in the states in which they should. -/
structure Partition.IsSound (it : Partition ρ) : Prop where
  reader_isSome : it.reader.isSome = it.state.holdsReader

/-- What can come of a call: its answer, the partition afterwards, and how a reader was used. -/
inductive Turn (it : Partition ρ) (call : LifeCall ρ) :
    LoadResult (Option Record) → Partition ρ → List ReaderUse → Prop where
  /-- The state does not allow the call. -/
  | refused (hstate : it.state ∉ call.kind.allowed) :
    Turn it call (.error (.state call.operation it.state.name)) it []
  /-- The call was allowed and failed: the state stays, and the reader may have changed, but is not
  gone. -/
  | failed {cause : LoadError} {reader : Option ρ} {order : Option SortOrder}
      {keys : Option KeyLayout} {uses : List ReaderUse} (hstate : it.state ∈ call.kind.mayFail)
      (hreader : reader.isSome = it.reader.isSome) (huses : .close ∉ uses) :
    Turn it call (.error cause) { it with reader := reader, sortOrder := order, tupleKeys := keys }
      uses
  /-- The partition has got its reader. -/
  | opened {task : Option TaskSettings} {reader : ρ} {order : Option SortOrder}
      {keys : Option KeyLayout} (hkind : call.kind = .open) (hstate : it.state = .created) :
    Turn it call (.ok none)
      ⟨it.plan, .initialized, task, some reader, order, keys, it.records⟩ []
  /-- The reader stands at a key. -/
  | sought {reader : ρ} (hkind : call.kind = .seek) (hstate : it.state = .initialized) :
    Turn it call (.ok none) { it with reader := some reader, state := .seeked } [.seek]
  /-- A record was taken, and is counted. -/
  | read {reader : ρ} {record : Record} (hkind : call.kind = .next)
      (hstate : it.state ∈ [.initialized, .seeked, .iterating]) :
    Turn it call (.ok (some record))
      { it with reader := some reader, records := it.records + 1, state := .iterating } [.take]
  /-- The reader had no more records. -/
  | ended {reader : ρ} (hkind : call.kind = .next)
      (hstate : it.state ∈ [.initialized, .seeked, .iterating]) :
    Turn it call (.ok none) { it with reader := some reader, state := .exhausted } [.take]
  /-- The end is told again, without a look at the reader. -/
  | endedBefore (hkind : call.kind = .next) (hstate : it.state = .exhausted) :
    Turn it call (.ok none) it []
  /-- The partition is closed, and so is its reader if it had one. -/
  | closed (hkind : call.kind = .close) (hstate : it.state ≠ .closed) :
    Turn it call (.ok none) { it with reader := none, state := .closed }
      (if it.reader.isSome then [.close] else [])
  /-- A partition that is closed already stays so. -/
  | closedBefore (hkind : call.kind = .close) (hstate : it.state = .closed) :
    Turn it call (.ok none) it []

/-- From `mid` on, a step ends a call that found the partition as `it`, in one of the turns. -/
def Ends (step : Step (Partition ρ) α) (watched : Step (Partition (Watched ρ)) α)
    (mid it : Partition ρ) (call : LifeCall ρ) (answer : α → Option Record) : Prop :=
  ∃ result after uses, Shows step watched mid result after uses
    ∧ Turn it call (result.map answer) after uses

namespace Ends

variable {mid mid' it after : Partition ρ} {call : LifeCall ρ} {answer : α → Option Record}

/-- A call ends with an answer. -/
theorem of_ok {x : Step (Partition ρ) α} {y : Step (Partition (Watched ρ)) α}
    {uses : List ReaderUse} {a : α} (h : Shows x y mid (.ok a) after uses)
    (hturn : Turn it call (.ok (answer a)) after uses) : Ends x y mid it call answer :=
  ⟨_, _, _, h, hturn⟩

/-- A call ends with a failure. -/
theorem of_error {x : Step (Partition ρ) α} {y : Step (Partition (Watched ρ)) α}
    {uses : List ReaderUse} {cause : LoadError} (h : Shows x y mid (.error cause) after uses)
    (hturn : Turn it call (.error cause) after uses) : Ends x y mid it call answer :=
  ⟨_, _, _, h, hturn⟩

/-- A call goes on behind a step that used no reader. -/
theorem bind {x : Step (Partition ρ) β} {y : Step (Partition (Watched ρ)) β}
    {f : β → Step (Partition ρ) α} {g : β → Step (Partition (Watched ρ)) α} {b : β}
    (h : Shows x y mid (.ok b) mid' []) (hnext : Ends (f b) (g b) mid' it call answer) :
    Ends (x >>= f) (y >>= g) mid it call answer := by
  obtain ⟨result, after, uses, hshows, hturn⟩ := hnext
  exact ⟨result, after, uses, h.bind_silent hshows, hturn⟩

/-- A call goes on behind a step that changed nothing, whose answers may be of different types. -/
theorem bind_still {x : Step (Partition ρ) β} {y : Step (Partition (Watched ρ)) γ}
    {f : β → Step (Partition ρ) α} {g : γ → Step (Partition (Watched ρ)) α} {b : β} {c : γ}
    (hx : x.run mid = ⟨.ok b, mid, []⟩) (hy : y.run mid.watched = ⟨.ok c, mid.watched, []⟩)
    (hnext : Ends (f b) (g c) mid it call answer) :
    Ends (x >>= f) (y >>= g) mid it call answer := by
  obtain ⟨result, after, uses, hshows, hturn⟩ := hnext
  exact ⟨result, after, uses, .bind_still hx hy hshows, hturn⟩

/-- A call goes on behind a look at the partition. -/
theorem bind_get {f : Partition ρ → Step (Partition ρ) α}
    {g : Partition (Watched ρ) → Step (Partition (Watched ρ)) α}
    (h : Ends (f mid) (g mid.watched) mid it call answer) :
    Ends (Step.get >>= f) (Step.get >>= g) mid it call answer := bind_still rfl rfl h

/-- What a result says is used, or it ends the call. -/
theorem bind_ofResult {r : LoadResult β} {f : β → Step (Partition ρ) α}
    {g : β → Step (Partition (Watched ρ)) α}
    (herror : ∀ cause, r = .error cause → Turn it call (.error cause) mid [])
    (hok : ∀ b, r = .ok b → Ends (f b) (g b) mid it call answer) :
    Ends (Step.ofResult r >>= f) (Step.ofResult r >>= g) mid it call answer := by
  cases r with
  | error cause => exact of_error (.bind_fails rfl rfl) (herror cause rfl)
  | ok b => exact bind_still rfl rfl (hok b rfl)

/-- Every call first asks whether the state allows it, and is refused if not. -/
theorem allowIn (call : LifeCall ρ) {f : Unit → Step (Partition ρ) α}
    {g : Unit → Step (Partition (Watched ρ)) α}
    (h : it.state ∈ call.kind.allowed → Ends (f ()) (g ()) it it call answer) :
    Ends (Partition.allowIn call.operation call.kind.allowed >>= f)
      (Partition.allowIn call.operation call.kind.allowed >>= g) it it call answer := by
  by_cases hstate : it.state ∈ call.kind.allowed
  · exact bind (Shows.allowIn hstate _) (h hstate)
  · exact of_error (Shows.refused hstate _).bind_error (.refused hstate)

/-- A seek has its parts, or it fails before it uses the reader. -/
theorem bind_seekParts {reader : ρ} {f : SortOrder × ρ → Step (Partition ρ) α}
    {g : SortOrder × Watched ρ → Step (Partition (Watched ρ)) α}
    (hreader : mid.reader = some reader)
    (herror : Turn it call (.error Partition.unsortedLoad) mid [])
    (hok : ∀ order, Ends (f (order, reader)) (g (order, ⟨reader⟩)) mid it call answer) :
    Ends (Partition.seekParts >>= f) (Partition.seekParts >>= g) mid it call answer := by
  have hwatched : mid.watched.reader = some ⟨reader⟩ := by
    rw [Partition.reader_watched, hreader]
    rfl
  -- without an order there is nothing to seek by; the reader is there in any case
  unfold Partition.seekParts
  cases horder : mid.sortOrder with
  | none =>
    refine of_error (.bind_fails ?_ ?_) herror
    · rw [Step.run_bind_get, horder]
      rfl
    · rw [Step.run_bind_get, Partition.sortOrder_watched, horder]
      rfl
  | some order =>
    refine bind_still ?_ ?_ (hok order)
    · rw [Step.run_bind_get, horder, hreader]
      rfl
    · rw [Step.run_bind_get, Partition.sortOrder_watched, horder, hwatched]
      rfl

/-- The engine under watch opens the readers that the engine opens. -/
theorem bind_openInput (engine : StorageEngine ρ) (settings : Settings) (text : String)
    {f : ρ → Step (Partition ρ) α} {g : Watched ρ → Step (Partition (Watched ρ)) α}
    (herror : ∀ cause, Turn it call (.error cause) mid [])
    (hok : ∀ reader, Ends (f reader) (g ⟨reader⟩) mid it call answer) :
    Ends (Step.ofResult (engine.openInput settings text) >>= f)
      (Step.ofResult (engine.watched.openInput settings text) >>= g) mid it call answer := by
  unfold StorageEngine.watched
  dsimp only
  cases engine.openInput settings text with
  | error cause => exact of_error (.bind_fails rfl rfl) (herror cause)
  | ok reader => exact bind_still rfl rfl (hok reader)

/-- A partition that has got a reader reports it and is initialized. -/
theorem opened {task : Option TaskSettings} {reader : ρ} {order : Option SortOrder}
    {keys : Option KeyLayout} (hkind : call.kind = .open) (hstate : it.state = .created)
    (e : Log.Event) (fields : List (String × String)) {change : Partition ρ → Partition ρ}
    {change' : Partition (Watched ρ) → Partition (Watched ρ)}
    (hchange : change mid = ⟨it.plan, mid.state, task, some reader, order, keys, it.records⟩)
    (hwatched : change' mid.watched = (change mid).watched) :
    Ends (Step.event e fields >>= fun _ => Step.update change >>= fun _ =>
        Partition.enter .initialized)
      (Step.event e fields >>= fun _ => Step.update change' >>= fun _ =>
        Partition.enter .initialized) mid it call fun _ => none := by
  refine bind (Shows.event _ _) (bind (Shows.update hwatched) (of_ok (Shows.enter _) ?_))
  rw [hchange]
  exact .opened hkind hstate

/-- A call that answers no record. -/
theorem answerless {x : Step (Partition ρ) Unit} {y : Step (Partition (Watched ρ)) Unit}
    (h : Ends x y mid it call fun _ => none) :
    Ends (x >>= fun _ => pure none) (y >>= fun _ => pure none) mid it call id := by
  obtain ⟨result, after, uses, hshows, hturn⟩ := h
  cases result with
  | error cause => exact of_error hshows.bind_error hturn
  | ok _ => exact of_ok (hshows.bind_last (Shows.pure none)) hturn

end Ends

namespace LifeCall

variable {disk : Disk} {it : Partition ρ} {call : LifeCall ρ}

/-- Attaching a reader opens the partition, or fails where the plan has an order that no tuples
have. -/
theorem ends_attach (reader : ρ) (share : InputShare) :
    Ends (Partition.attach reader share) (Partition.attach ⟨reader⟩ share) it it
      (attach reader share) fun _ => none := by
  refine Ends.allowIn (attach reader share) fun hallowed => Ends.bind_get ?_
  have hstate : it.state = .created := List.mem_singleton.1 hallowed
  rw [Partition.plan_watched]
  dsimp only
  cases it.plan.sortOrder with
  | none => exact Ends.opened rfl hstate _ _ rfl rfl
  | some order =>
    dsimp only
    -- the order of the plan is adopted for a sorted load alone
    by_cases hsorted : it.plan.sorted = true
    · rw [if_pos hsorted, if_pos hsorted]
      cases hkeys : KeyLayout.forTuples order with
      | error cause =>
        refine Ends.of_error (Shows.adoptOrder_error hkeys).bind_error ?_
        exact .failed hallowed rfl List.not_mem_nil
      | ok keys => exact Ends.bind (Shows.adoptOrder hkeys) (Ends.opened rfl hstate _ _ rfl rfl)
    · rw [if_neg hsorted, if_neg hsorted]
      exact Ends.opened rfl hstate _ _ rfl rfl

/-- Starting a partition opens it, or fails before a reader is there. -/
theorem ends_start (engine : StorageEngine ρ) (job : JobSettings) :
    Ends (Partition.start engine job) (Partition.start engine.watched job) it it
      (start engine job) fun _ => none := by
  refine Ends.allowIn (start engine job) fun hallowed => Ends.bind_get ?_
  have hstate : it.state = .created := List.mem_singleton.1 hallowed
  -- what fails from here on may have adopted an order, and nothing else
  have hfailed : ∀ order keys cause, Turn it (start engine job) (.error cause)
      { it with sortOrder := order, tupleKeys := keys } [] := fun _ _ _ =>
    .failed hallowed rfl List.not_mem_nil
  rw [Partition.plan_watched]
  refine Ends.bind_ofResult (fun cause _ => hfailed _ _ cause) fun task _ => ?_
  dsimp only
  by_cases hsorted : it.plan.sorted = true
  · rw [if_pos hsorted, if_pos hsorted]
    refine Ends.bind_ofResult (fun cause _ => hfailed _ _ cause) fun order _ => ?_
    cases hkeys : KeyLayout.forTuples order with
    | error cause =>
      exact Ends.of_error (Shows.adoptOrder_error hkeys).bind_error (hfailed _ _ cause)
    | ok keys =>
      refine Ends.bind (Shows.adoptOrder hkeys) ?_
      exact Ends.bind_openInput engine _ _ (hfailed _ _) fun reader =>
        Ends.opened rfl hstate _ _ rfl rfl
  · rw [if_neg hsorted, if_neg hsorted]
    exact Ends.bind_openInput engine _ _ (hfailed _ _) fun reader =>
      Ends.opened rfl hstate _ _ rfl rfl

/-- A sound partition that is being read has a reader. -/
theorem exists_reader (hsound : it.IsSound)
    (hstate : it.state ∈ [.initialized, .seeked, .iterating]) :
    ∃ reader, it.reader = some reader := by
  refine Option.isSome_iff_exists.1 ?_
  rw [hsound.reader_isSome]
  revert hstate
  generalize it.state = state
  cases state <;> decide

section

variable [RecordReader ρ]

/-- What a reader answers to a seek decides it. -/
theorem ends_seekTo {reader : ρ} (hkind : call.kind = .seek) (hstate : it.state = .initialized)
    (hreader : it.reader = some reader) (key : RowKey) :
    Ends (Partition.seekTo disk reader key) (Partition.seekTo disk ⟨reader⟩ key) it it call
      fun _ => none := by
  rcases hseek : (RecordReader.seekTo disk key).run reader with ⟨result, reader', log⟩
  have huse := Shows.onReader it .seek hseek
  cases result with
  | error cause =>
    refine Ends.of_error huse.bind_error (.failed ?_ ?_ ?_)
    · rw [hkind, hstate]
      decide
    · rw [hreader]
      rfl
    · decide
  | ok _ =>
    exact Ends.of_ok
      (huse.bind_last (Shows.bind_get ((Shows.event _ _).bind_silent (Shows.enter _))))
      (.sought hkind hstate)

/-- A seek by a record is a turn: it fails before the reader is used, or the reader decides it. -/
theorem ends_seekRecord (hsound : it.IsSound) (target : Record) :
    Ends (Partition.seekRecord disk target) (Partition.seekRecord disk target) it it
      (later (.seekRecord target)) fun _ => none := by
  refine Ends.allowIn (later (.seekRecord target)) fun hallowed => ?_
  have hstate : it.state = .initialized := List.mem_singleton.1 hallowed
  obtain ⟨reader, hreader⟩ := exists_reader hsound (by rw [hstate]; decide)
  have hfailed : ∀ cause, Turn it (later (.seekRecord target)) (.error cause) it [] := fun _ =>
    .failed hallowed rfl List.not_mem_nil
  refine Ends.bind_seekParts hreader (hfailed _) fun order => ?_
  refine Ends.bind_ofResult (fun cause _ => hfailed cause) fun keys _ => ?_
  refine Ends.bind_ofResult (fun cause _ => hfailed cause) fun key _ => ?_
  exact ends_seekTo rfl hstate hreader key

/-- A seek by values is a turn, as one by a record is. -/
theorem ends_seekValues (hsound : it.IsSound) (values : List Value) :
    Ends (Partition.seekValues disk values) (Partition.seekValues disk values) it it
      (later (.seekValues values)) fun _ => none := by
  refine Ends.allowIn (later (.seekValues values)) fun hallowed => ?_
  have hstate : it.state = .initialized := List.mem_singleton.1 hallowed
  obtain ⟨reader, hreader⟩ := exists_reader hsound (by rw [hstate]; decide)
  have hfailed : ∀ cause, Turn it (later (.seekValues values)) (.error cause) it [] := fun _ =>
    .failed hallowed rfl List.not_mem_nil
  refine Ends.bind_seekParts hreader (hfailed _) fun order => Ends.bind_get ?_
  rw [Partition.tupleKeys_watched]
  cases it.tupleKeys with
  | none => exact Ends.of_error (Shows.fail _) (hfailed _)
  | some keys =>
    refine Ends.bind_ofResult (fun cause _ => hfailed cause) fun key _ => ?_
    exact ends_seekTo rfl hstate hreader key

/-- The reader decides whether a call takes a record, finds the end or fails. -/
theorem ends_advance {reader : ρ} (hstate : it.state ∈ [.initialized, .seeked, .iterating])
    (hreader : it.reader = some reader) :
    Ends (Partition.advance disk reader) (Partition.advance disk ⟨reader⟩) it it (later .next)
      id := by
  rcases hnext : (RecordReader.next disk).run reader with ⟨result, reader', log⟩
  have huse := Shows.onReader it .take hnext
  cases result with
  | error cause =>
    refine Ends.of_error huse.bind_error (.failed hstate ?_ ?_)
    · rw [hreader]
      rfl
    · decide
  | ok found =>
    cases found with
    -- one more record is counted
    | some record =>
      exact Ends.of_ok
        (huse.bind_last ((Shows.update rfl).bind_silent ((Shows.enter _).bind_silent (.pure _))))
        (.read rfl hstate)
    | none =>
      exact Ends.of_ok
        (huse.bind_last (Shows.bind_get
          ((Shows.event _ _).bind_silent ((Shows.enter _).bind_silent (.pure _)))))
        (.ended rfl hstate)

/-- Taking a record is a turn: behind the end it is told again, and before it the reader is
asked. -/
theorem ends_next (hsound : it.IsSound) :
    Ends (Partition.next disk) (Partition.next disk) it it (later .next) id := by
  refine Ends.bind_get ?_
  rw [Partition.state_watched, Partition.reader_watched]
  by_cases hend : it.state = .exhausted
  · rw [if_pos hend, if_pos hend]
    exact Ends.of_ok (Shows.pure none) (.endedBefore rfl hend)
  · rw [if_neg hend, if_neg hend]
    by_cases hstate : it.state ∈ [.initialized, .seeked, .iterating]
    · obtain ⟨reader, hreader⟩ := exists_reader hsound hstate
      refine Ends.bind (Shows.allowIn hstate _) ?_
      rw [hreader]
      exact ends_advance hstate hreader
    · refine Ends.of_error (Shows.refused hstate _).bind_error (.refused fun hallowed => ?_)
      -- the states that allow the call are those of reading and the one behind the end
      have hparts : it.state ∈ [.initialized, .seeked, .iterating] ++ [.exhausted] := hallowed
      rcases List.mem_append.1 hparts with hreading | hexhausted
      · exact hstate hreading
      · exact hend (List.mem_singleton.1 hexhausted)

/-- Closing is a turn that never fails: what the reader answers is reported and dropped. -/
theorem ends_close : Ends Partition.close Partition.close it it (later .close) fun _ => none := by
  refine Ends.bind_get ?_
  rw [Partition.state_watched, Partition.plan_watched]
  by_cases hclosed : it.state = .closed
  · rw [if_pos hclosed, if_pos hclosed]
    exact Ends.of_ok (Shows.pure ()) (.closedBefore rfl hclosed)
  · rw [if_neg hclosed, if_neg hclosed]
    exact Ends.of_ok
      ((Shows.enter _).bind_silent (Shows.release.bind_last (Shows.event _ _)))
      (.closed rfl hclosed)

/-- A call on a sound partition is one of the turns, and the call under watch does the same. -/
theorem ends_perform (disk : Disk) (hsound : it.IsSound) (call : LifeCall ρ) :
    Ends (call.perform disk) (call.watched.perform disk) it it call id := by
  cases call with
  | start engine job => exact (ends_start engine job).answerless
  | attach reader share => exact (ends_attach reader share).answerless
  | later call =>
    cases call with
    | seekRecord target => exact (ends_seekRecord hsound target).answerless
    | seekValues values => exact (ends_seekValues hsound values).answerless
    | next => exact ends_next hsound
    | close => exact ends_close.answerless

/-- How a call uses readers. -/
def uses (disk : Disk) (call : LifeCall ρ) (it : Partition ρ) : List ReaderUse :=
  ReaderUse.inLog ((call.watched.perform disk).run it.watched).log

/-- Every call on a sound partition is one of the turns. -/
theorem turn (hsound : it.IsSound) (call : LifeCall ρ) :
    Turn it call ((call.perform disk).run it).result ((call.perform disk).run it).state
      (call.uses disk it) := by
  obtain ⟨result, after, uses, ⟨⟨log, hrun⟩, wlog, hwatched, huses⟩, hturn⟩ :=
    ends_perform disk hsound call
  rw [LifeCall.uses, hwatched, huses, hrun]
  cases result with
  | error cause => exact hturn
  | ok found => exact hturn

/-- Watching a reader changes nothing. -/
theorem run_watched (hsound : it.IsSound) (call : LifeCall ρ) :
    ((call.watched.perform disk).run it.watched).result = ((call.perform disk).run it).result
      ∧ ((call.watched.perform disk).run it.watched).state
        = ((call.perform disk).run it).state.watched := by
  obtain ⟨result, after, uses, ⟨⟨log, hrun⟩, wlog, hwatched, -⟩, -⟩ := ends_perform disk hsound call
  rw [hwatched, hrun]
  exact ⟨rfl, rfl⟩

end

end LifeCall

end TableScan
