import Mathlib
import TableScan.Proofs.Projection.Chosen

/-!
# The history of a projection choice

A host asks for fields as often as it likes, at any schemas, and the choice is sealed at some time.
`ProjectionChoice.behind` is the choice after a run of calls, and `lastChosen` the text that the run
has chosen last, by a request that was granted and selects something.

A call comes to one of three things (`Effect`): a text is put in force, nothing happens, or the
choice is sealed. What holds of a run follows from that by induction on its calls.

Main statement: a run leaves what it has chosen last, before what the choice started with, and once
the choice is sealed it stays as it is (`isHistory_behind`).
-/

namespace TableScan

/-- A call that a choice can meet. -/
inductive ChoiceCall where
  | choose (logical : Schema) (requests : List FieldRequest)
  | sealUp

namespace ProjectionChoice

/-- What a call leaves. -/
def after (p : ProjectionChoice) : ChoiceCall → ProjectionChoice
  | .choose logical requests => ((choose logical requests).run p).state
  | .sealUp => p.sealed

/-- What a call chooses: the text that it answers with, unless this is empty. -/
def chosenBy (p : ProjectionChoice) : ChoiceCall → Option String
  | .choose logical requests =>
    match ((choose logical requests).run p).result with
    | .ok text => if text.isEmpty then none else some text
    | .error _ => none
  | .sealUp => none

/-- The choice behind calls one after another. -/
def behind (p : ProjectionChoice) (calls : List ChoiceCall) : ProjectionChoice :=
  calls.foldl after p

/-- What was chosen last during calls one after another. -/
def lastChosen (p : ProjectionChoice) : List ChoiceCall → Option String
  | [] => none
  | call :: calls => ((p.after call).lastChosen calls).or (p.chosenBy call)

/-! ## One call -/

/-- Everything that a call can come to, with what it chooses and what it leaves. -/
inductive Effect (p : ProjectionChoice) : ChoiceCall → Option String → ProjectionChoice → Prop where
  | chosen (logical : Schema) (requests : List FieldRequest) (text : String)
      (hopen : p.isSealed = false) :
      Effect p (.choose logical requests) (some text) { p with pruned := some text }
  | nothing (logical : Schema) (requests : List FieldRequest) :
      Effect p (.choose logical requests) none p
  | sealed : Effect p .sealUp none p.sealed

/-- Every call has one of these effects. -/
theorem effect_after (p : ProjectionChoice) (call : ChoiceCall) :
    Effect p call (p.chosenBy call) (p.after call) := by
  cases call with
  | sealUp => exact .sealed
  | choose logical requests =>
    simp only [chosenBy, after]
    cases htext : p.chosenText logical requests with
    | error e =>
      rw [run_choose_eq_error htext]
      exact .nothing logical requests
    | ok text =>
      -- a sealed choice has no text to answer with
      have hopen : p.isSealed = false := by
        by_contra hsealed
        have hfails := choose_of_isSealed (Bool.eq_true_of_not_eq_false hsealed) logical requests
        have hresult := result_choose p logical requests
        rw [hfails, htext] at hresult
        cases hresult
      rw [run_choose_of_text htext]
      by_cases hempty : text.isEmpty = true
      · simpa [hempty] using Effect.nothing logical requests
      · simpa [hempty] using Effect.chosen logical requests text hopen

namespace Effect

variable {p q : ProjectionChoice} {call : ChoiceCall} {chosen : Option String}

theorem explicit_eq (h : Effect p call chosen q) : q.explicit = p.explicit := by
  cases h <;> rfl

/-- A chosen text takes the place of the one before. -/
theorem pruned_eq (h : Effect p call chosen q) : q.pruned = chosen.or p.pruned := by
  cases h <;> rfl

/-- Only a call to seal seals. -/
theorem isSealed_iff (h : Effect p call chosen q) :
    q.isSealed = true ↔ p.isSealed = true ∨ call = .sealUp := by
  cases h <;> simp [ProjectionChoice.sealed]

/-- A sealed choice is left as it is. -/
theorem eq_of_isSealed (h : Effect p call chosen q) (hsealed : p.isSealed = true) : q = p := by
  cases h with
  | chosen logical requests text hopen =>
    rw [hopen] at hsealed
    cases hsealed
  | nothing => rfl
  | sealed =>
    obtain ⟨explicit, pruned, isSealed⟩ := p
    obtain rfl : isSealed = true := hsealed
    rfl

end Effect

/-! ## Refused requests -/

/-- Requests that are not granted: the projection in force does not resolve, or one of the fields
cannot be requested from it, or one is requested twice. -/
inductive Refused (p : ProjectionChoice) (logical : Schema) (requests : List FieldRequest) :
    Prop where
  | unresolved {e : LoadError} (hcurrent : p.current logical = .error e)
  | field {projection : Projection} {field : FieldRequest}
      (hcurrent : p.current logical = .ok projection) (hfield : field ∈ requests)
      (hnot : ¬ Requestable projection.schema field)
  | repeated {projection : Projection} (hcurrent : p.current logical = .ok projection)
      (hnot : ¬ (requests.map FieldRequest.index).Nodup)

/-- An open choice fails requests that are refused, and no others. -/
theorem exists_error_iff_refused {p : ProjectionChoice} (hopen : p.isSealed = false)
    (logical : Schema) (requests : List FieldRequest) :
    (∃ e, ((choose logical requests).run p).result = .error e) ↔ Refused p logical requests := by
  rw [result_choose]
  cases hcurrent : p.current logical with
  | error e =>
    refine ⟨fun _ => .unresolved hcurrent, fun _ => ⟨e, ?_⟩⟩
    unfold chosenText
    rw [hopen, hcurrent]
    rfl
  | ok projection =>
    -- requests that are not refused are those that make selectors
    have hgranted : Refused p logical requests ↔
        ¬ ∃ selectors, selectorsOf projection.schema [] requests = .ok selectors := by
      rw [exists_selectorsOf_iff, not_and_or, not_forall]
      constructor
      · intro h
        cases h with
        | unresolved herror => cases hcurrent.symm.trans herror
        | field hsame hfield hnot =>
          obtain rfl := Except.ok.inj (hcurrent.symm.trans hsame)
          exact .inl ⟨_, fun h => hnot (h hfield)⟩
        | repeated _ hnot => exact .inr hnot
      · rintro (⟨field, hnot⟩ | hnot)
        · rw [Classical.not_imp] at hnot
          exact .field hcurrent hnot.1 hnot.2
        · exact .repeated hcurrent hnot
    rw [hgranted, chosenText_of_current hopen hcurrent]
    cases selectorsOf projection.schema [] requests with
    | error e => simp [Except.map]
    | ok selectors => simp [Except.map]

/-! ## Runs -/

/-- What is in force by right: a chosen projection before an explicit one, and this before the whole
schema. -/
inductive InForce (p : ProjectionChoice) : ProjectionOrigin → Option String → Prop where
  | pruned {text : String} (htext : p.pruned = some text) : InForce p .pruned (some text)
  | explicit {text : String} (hnone : p.pruned = none) (htext : p.explicit = some text) :
      InForce p .explicit (some text)
  | full (hnone : p.pruned = none) (hwhole : p.explicit = none) : InForce p .full none

/-- What a choice says is in force is so by right. -/
theorem inForce_effective (p : ProjectionChoice) : InForce p p.origin p.effective := by
  obtain ⟨explicit, pruned, isSealed⟩ := p
  cases pruned with
  | some text => exact .pruned rfl
  | none =>
    cases explicit with
    | some text => exact .explicit rfl rfl
    | none => exact .full rfl rfl

theorem explicit_behind (p : ProjectionChoice) (calls : List ChoiceCall) :
    (p.behind calls).explicit = p.explicit :=
  List.foldlRecOn (motive := fun q => q.explicit = p.explicit) calls after rfl
    fun q hq call _ => (effect_after q call).explicit_eq.trans hq

/-- A run leaves in force what it has chosen last. -/
theorem pruned_behind (p : ProjectionChoice) (calls : List ChoiceCall) :
    (p.behind calls).pruned = (p.lastChosen calls).or p.pruned := by
  induction calls generalizing p with
  | nil => rfl
  | cons call calls ih =>
    show ((p.after call).behind calls).pruned = _
    -- the choice of the first call stays where the later ones choose nothing
    rw [ih, (effect_after p call).pruned_eq, lastChosen, Option.or_assoc]

/-- A choice is sealed behind a run that seals it. -/
theorem isSealed_behind_iff (p : ProjectionChoice) (calls : List ChoiceCall) :
    (p.behind calls).isSealed = true ↔ p.isSealed = true ∨ ChoiceCall.sealUp ∈ calls := by
  induction calls generalizing p with
  | nil => simp [behind]
  | cons call calls ih =>
    show ((p.after call).behind calls).isSealed = true ↔ _
    rw [ih, (effect_after p call).isSealed_iff, List.mem_cons, or_assoc, eq_comm (a := call)]

/-- A sealed choice is what it is for ever. -/
theorem behind_of_isSealed {p : ProjectionChoice} (h : p.isSealed = true)
    (calls : List ChoiceCall) : p.behind calls = p :=
  List.foldlRecOn (motive := (· = p)) calls after rfl fun _ hq call _ => by
    rw [hq]
    exact (effect_after p call).eq_of_isSealed h

/-- What a run of calls makes of a choice. -/
structure IsHistory (start : ProjectionChoice) (calls : List ChoiceCall) (p : ProjectionChoice) :
    Prop where
  /-- The explicit projection never changes. -/
  explicit : p.explicit = start.explicit
  /-- The chosen projection is the text that was chosen last, or the one of the start. -/
  pruned : p.pruned = (start.lastChosen calls).or start.pruned
  /-- A chosen projection is in force before the explicit one, and this before the whole schema. -/
  inForce : InForce p p.origin p.effective
  /-- A choice is sealed by a call, or was so at the start. -/
  isSealed : p.isSealed = true ↔ start.isSealed = true ∨ ChoiceCall.sealUp ∈ calls
  /-- An open choice fails the requests that are refused. -/
  refuses : p.isSealed = false → ∀ logical requests,
    (∃ e, ((choose logical requests).run p).result = .error e) ↔ Refused p logical requests
  /-- To fail, or to be asked for nothing, leaves a choice as it was. -/
  stays : ∀ logical requests,
    (requests = [] ∨ ∃ e, ((choose logical requests).run p).result = .error e) →
      ((choose logical requests).run p).state = p
  /-- A sealed choice fails every request, and no call changes it any more. -/
  frozen : p.isSealed = true →
    (∀ logical requests, ((choose logical requests).run p).result
        = .error (.state "plan_projection" "Sealed"))
      ∧ ∀ more, p.behind more = p

/-- Whatever is asked of a choice, in any order, granted or not: it has a history. One that was made
of a plan is sealed from the start, so it stays as it is. -/
theorem isHistory_behind (start : ProjectionChoice) (calls : List ChoiceCall) :
    IsHistory start calls (start.behind calls)
      ∧ ∀ explicit pruned, (ofPlan explicit pruned).behind calls = ofPlan explicit pruned := by
  refine ⟨?_, fun explicit pruned => behind_of_isSealed rfl calls⟩
  constructor
  case explicit => exact explicit_behind start calls
  case pruned => exact pruned_behind start calls
  case inForce => exact inForce_effective _
  case isSealed => exact isSealed_behind_iff start calls
  case refuses => exact fun hopen => exists_error_iff_refused hopen
  case stays =>
    rintro logical requests (rfl | ⟨e, herror⟩)
    · exact state_choose_nil _ logical
    · exact state_choose_of_error herror
  case frozen =>
    intro hsealed
    refine ⟨fun logical requests => ?_, behind_of_isSealed hsealed⟩
    rw [choose_of_isSealed hsealed]

end ProjectionChoice

end TableScan
