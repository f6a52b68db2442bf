import Mathlib
import TableScan.Proofs.Projection.Resolved

/-!
# Choosing a projection

Which requests for fields are granted, and what is in force afterwards. Requests are taken in order,
each one against the projection in force and against the positions that were asked for before it, so
the first that cannot be granted ends the call, and the choice is then what it was.

Main statement: fields are chosen exactly when each of them can be requested and no two are the same
one, and then the text in force resolves, request by request, to the column that was asked for;
otherwise the call fails with an error of planning (`choose_exact`).
-/

namespace TableScan.ProjectionChoice

variable {schema : Schema} {seen : List Nat} {field : FieldRequest} {requests : List FieldRequest}

/-! ## Granted requests -/

/-- A request that a projection schema can grant, by itself. -/
structure Requestable (schema : Schema) (field : FieldRequest) : Prop where
  inRange : field.index < schema.columns.length
  ofMap : field.subfields ≠ [] →
    ∃ c, schema.columns[field.index]? = some c ∧ c.type.isMap = true
  keys : ∀ key ∈ field.subfields, Selector.isRenderableKey key = true

theorem Requested.requestable {selector : Selector} (h : Requested schema field selector) :
    Requestable schema field := by
  obtain ⟨c, hc, -, hmap⟩ := h.column
  obtain ⟨hlt, -⟩ := List.getElem?_eq_some_iff.1 hc
  exact ⟨hlt, fun hne => ⟨c, hc, hmap hne⟩, h.keys⟩

/-- A request that can be granted is, at a position that is new. -/
theorem exists_selectorOf (h : Requestable schema field) (hnew : field.index ∉ seen) :
    ∃ selector, selectorOf schema seen field = .ok selector := by
  obtain ⟨c, hc⟩ : ∃ c, schema.columns[field.index]? = some c :=
    ⟨_, List.getElem?_eq_getElem h.inRange⟩
  have hmap : field.subfields = [] ∨ c.type.isMap = true := by
    by_cases hnil : field.subfields = []
    · exact .inl hnil
    · obtain ⟨own, hsame, hmap⟩ := h.ofMap hnil
      exact .inr (Option.some.inj (hsame.symm.trans hc) ▸ hmap)
  -- no key of the request is refused
  have hkeys : field.subfields.find? (!Selector.isRenderableKey ·) = none :=
    List.find?_eq_none.2 fun key hkey => by simp [h.keys key hkey]
  unfold selectorOf
  rw [hc]
  rcases hmap with hnil | hmap
  · simp [hnil, hnew]
  · simp [hmap, hnew, hkeys]

/-- Requests pass that can each be granted, where none is for a position that was asked for. -/
theorem exists_selectorsOf (h : ∀ field ∈ requests, Requestable schema field)
    (hnodup : (requests.map FieldRequest.index).Nodup)
    (hnew : ∀ field ∈ requests, field.index ∉ seen) :
    ∃ selectors, selectorsOf schema seen requests = .ok selectors := by
  induction requests generalizing seen with
  | nil => exact ⟨[], rfl⟩
  | cons field rest ih =>
    rw [List.map_cons, List.nodup_cons] at hnodup
    obtain ⟨selector, hselector⟩ :=
      exists_selectorOf (h field List.mem_cons_self) (hnew field List.mem_cons_self)
    -- the position of the first request counts as asked for in front of the others
    have hlater : ∀ other ∈ rest, other.index ∉ field.index :: seen := by
      intro other hother
      rw [List.mem_cons, not_or]
      refine ⟨fun heq => ?_, hnew other (List.mem_cons_of_mem _ hother)⟩
      exact hnodup.1 (heq ▸ List.mem_map_of_mem hother)
    obtain ⟨selectors, hselectors⟩ :=
      ih (fun other hother => h other (List.mem_cons_of_mem _ hother)) hnodup.2 hlater
    refine ⟨selector :: selectors, ?_⟩
    unfold selectorsOf
    rw [hselector]
    exact Results.map_eq_ok_iff.2 ⟨selectors, hselectors, rfl⟩

/-- Requests are granted together just when each of them can be, and no two are for one position. -/
theorem exists_selectorsOf_iff :
    (∃ selectors, selectorsOf schema [] requests = .ok selectors) ↔
      (∀ field ∈ requests, Requestable schema field)
        ∧ (requests.map FieldRequest.index).Nodup := by
  constructor
  · rintro ⟨selectors, h⟩
    obtain ⟨hrequested, hnodup, -⟩ := requested_of_selectorsOf h
    -- each request made a selector, so it could be granted
    refine ⟨fun field hfield => ?_, hnodup⟩
    obtain ⟨selector, -, hrequest⟩ := Results.exists_mem_of_forall₂ hrequested.flip hfield
    exact hrequest.requestable
  · rintro ⟨hall, hnodup⟩
    exact exists_selectorsOf hall hnodup fun _ _ => List.not_mem_nil

/-- A request is refused by an error of planning. -/
theorem group_of_selectorOf {e : LoadError} (h : selectorOf schema seen field = .error e) :
    e.group = .planning := by
  unfold selectorOf at h
  split at h
  · exact Except.error.inj h ▸ rfl
  · split at h
    · exact Except.error.inj h ▸ rfl
    · split at h
      · exact Except.error.inj h ▸ rfl
      · split at h
        · exact Except.error.inj h ▸ rfl
        · cases h

/-- Requests are refused by an error of planning, whichever of the checks refuses them. -/
theorem group_of_selectorsOf {e : LoadError} (h : selectorsOf schema seen requests = .error e) :
    e.group = .planning := by
  induction requests generalizing seen with
  | nil => cases h
  | cons field rest ih =>
    unfold selectorsOf at h
    split at h
    · next own hown =>
      obtain rfl := Except.error.inj h
      exact group_of_selectorOf hown
    · next selector hselector =>
      cases hrest : selectorsOf schema (field.index :: seen) rest with
      | error own =>
        rw [hrest] at h
        obtain rfl := Except.error.inj h
        exact ih hrest
      | ok selectors =>
        rw [hrest] at h
        cases h

/-! ## The call -/

/-- A text was made of requests that were granted, at a projection that resolved. -/
theorem chosenText_eq_ok {choice : ProjectionChoice} {logical : Schema} {text : String}
    (h : choice.chosenText logical requests = .ok text) :
    ∃ p selectors, choice.current logical = .ok p
      ∧ selectorsOf p.schema [] requests = .ok selectors
      ∧ text = Selector.renderAll selectors := by
  unfold chosenText at h
  split at h
  · cases h
  · obtain ⟨p, hp, h⟩ := Results.bind_eq_ok_iff.1 h
    obtain ⟨selectors, hselectors, h⟩ := Results.bind_eq_ok_iff.1 h
    exact ⟨p, selectors, hp, hselectors, (Except.ok.inj h).symm⟩

/-- An open choice whose projection resolves leaves the answer to the requests alone. -/
theorem chosenText_of_current {choice : ProjectionChoice} {logical : Schema} {p : Projection}
    (hopen : choice.isSealed = false) (hp : choice.current logical = .ok p)
    (requests : List FieldRequest) :
    choice.chosenText logical requests
      = (selectorsOf p.schema [] requests).map Selector.renderAll := by
  unfold chosenText
  rw [hopen, hp, if_neg Bool.false_ne_true]
  cases h : selectorsOf p.schema [] requests with
  | error e =>
    show (selectorsOf p.schema [] requests >>= _) = _
    rw [h]
    rfl
  | ok selectors =>
    show (selectorsOf p.schema [] requests >>= _) = _
    rw [h]
    rfl

/-- A call that fails has computed no text and changes nothing. -/
theorem run_choose_eq_error {choice : ProjectionChoice} {logical : Schema} {e : LoadError}
    (h : choice.chosenText logical requests = .error e) :
    (choose logical requests).run choice = ⟨.error e, choice, []⟩ := by
  have hget : (Step.get : Step ProjectionChoice ProjectionChoice).run choice
      = ⟨.ok choice, choice, []⟩ := rfl
  unfold choose
  rw [Step.run_bind_ok hget, h]
  rfl

/-- A text that selects something is put in force, and the empty text changes nothing. -/
theorem run_choose_of_text {choice : ProjectionChoice} {logical : Schema} {text : String}
    (h : choice.chosenText logical requests = .ok text) :
    (choose logical requests).run choice =
      if text.isEmpty then ⟨.ok text, choice, []⟩
      else ⟨.ok text, { choice with pruned := some text },
        [.ofEvent .projectionPlanned [("projection", text)]]⟩ := by
  have hget : (Step.get : Step ProjectionChoice ProjectionChoice).run choice
      = ⟨.ok choice, choice, []⟩ := rfl
  have hresult : (Step.ofResult (.ok text) : Step ProjectionChoice String).run choice
      = ⟨.ok text, choice, []⟩ := rfl
  unfold choose
  rw [Step.run_bind_ok hget, h, Step.run_bind_ok hresult]
  cases htext : text.isEmpty with
  | true => rfl
  | false => rfl

/-- A call answers and fails as its text does. -/
theorem result_choose (choice : ProjectionChoice) (logical : Schema)
    (requests : List FieldRequest) :
    ((choose logical requests).run choice).result = choice.chosenText logical requests := by
  cases htext : choice.chosenText logical requests with
  | error e => rw [run_choose_eq_error htext]
  | ok text =>
    rw [run_choose_of_text htext]
    split
    · rfl
    · rfl

/-- A sealed choice does not change, whatever is asked for. -/
theorem choose_of_isSealed {choice : ProjectionChoice} (h : choice.isSealed = true)
    (logical : Schema) (requests : List FieldRequest) :
    (choose logical requests).run choice
      = ⟨.error (.state "plan_projection" "Sealed"), choice, []⟩ := by
  apply run_choose_eq_error
  unfold chosenText
  rw [if_pos h]

/-- A call that answers has computed the text, and puts a text that selects something in force. -/
theorem run_choose_eq_ok {choice : ProjectionChoice} {logical : Schema} {text : String}
    (h : ((choose logical requests).run choice).result = .ok text) :
    choice.chosenText logical requests = .ok text
      ∧ (text.isEmpty = false →
        ((choose logical requests).run choice).state.effective = some text) := by
  rw [result_choose] at h
  refine ⟨h, fun hne => ?_⟩
  rw [run_choose_of_text h, if_neg (Bool.eq_false_iff.1 hne)]
  rfl

/-- A call that fails changes nothing. -/
theorem state_choose_of_error {choice : ProjectionChoice} {logical : Schema} {e : LoadError}
    (h : ((choose logical requests).run choice).result = .error e) :
    ((choose logical requests).run choice).state = choice := by
  rw [result_choose] at h
  rw [run_choose_eq_error h]

/-- To ask for no field changes nothing. -/
theorem state_choose_nil (choice : ProjectionChoice) (logical : Schema) :
    ((choose logical []).run choice).state = choice := by
  cases htext : choice.chosenText logical [] with
  | error own => rw [run_choose_eq_error htext]
  | ok text =>
    obtain ⟨p, selectors, -, hselectors, rfl⟩ := chosenText_eq_ok htext
    obtain rfl : [] = selectors := Except.ok.inj hselectors
    rw [run_choose_of_text htext, if_pos (by decide)]

/-- No projection and the empty text select the same. -/
theorem projectionOf_eq_parse (logical : Schema) (text : Option String) :
    projectionOf logical text = Projection.parse logical (text.getD "") := by
  cases text with
  | none => rfl
  | some text => rfl

theorem current_eq_parse (choice : ProjectionChoice) (logical : Schema) :
    choice.current logical = Projection.parse logical (choice.effective.getD "") :=
  projectionOf_eq_parse logical choice.effective

/-- Fields that are chosen are in force from then on, and resolve. -/
theorem exists_parse_of_choose {choice : ProjectionChoice} {logical : Schema} {text : String}
    (hlogical : logical.WellNamed) (hne : requests ≠ [])
    (h : ((choose logical requests).run choice).result = .ok text) :
    ((choose logical requests).run choice).state = { choice with pruned := some text }
      ∧ ∃ after, Projection.parse logical text = .ok after := by
  obtain ⟨htext, -⟩ := run_choose_eq_ok h
  obtain ⟨p, selectors, hp, hselectors, rfl⟩ := chosenText_eq_ok htext
  rw [current_eq_parse] at hp
  have hresolves := Projection.resolvesIn_of_parse hp hlogical.distinct
  obtain ⟨after, hafter, -, hnonempty⟩ :=
    exists_parse_of_selectorsOf hlogical hresolves hne hselectors
  rw [run_choose_of_text htext, if_neg (Bool.eq_false_iff.1 hnonempty)]
  exact ⟨rfl, after, hafter⟩

/-! ## Exactness -/

/-- Requested columns of a projection are what the chosen projection is resolved to, in order. -/
theorem columns_of_requested {logical : Schema} {p after : Projection}
    (hp : p.ResolvesIn logical) (hafter : after.ResolvesIn logical)
    (h : List.Forall₂ (Requested p.schema) requests after.selectors) {i : Nat}
    (hi : requests[i]? = some field) :
    ∃ c, p.schema.columns[field.index]? = some c
      ∧ after.selectors[i]? = some ⟨c.name, field.subfields⟩
      ∧ after.schema.columns[i]? = some c := by
  obtain ⟨_, hselector, hrequested⟩ := Results.exists_getElem?_of_forall₂ h hi
  obtain ⟨c, hc, rfl, -⟩ := hrequested.column
  obtain ⟨d, hd, hselect⟩ := Results.exists_getElem?_of_forall₂ hafter.columns hselector
  -- both are the column that the logical schema has under the name
  have hfind := (Projection.select_eq_ok_iff.1 hselect).1
  rw [hp.find?_of_mem (List.mem_of_getElem? hc)] at hfind
  obtain rfl := Option.some.inj hfind
  exact ⟨c, hc, hselector, hd⟩

/-- Fields are chosen from a projection that resolves exactly when each of them can be requested
and no position is asked for twice. The text is then in force, and resolves against the logical
schema to one selector and one column for each request, in the order of the requests: the column
that the projection before has there, with the keys that were asked for. Otherwise planning fails,
and the choice stays as it was. -/
theorem choose_exact {logical : Schema} {choice : ProjectionChoice} {p : Projection}
    (hlogical : logical.WellNamed) (hopen : choice.isSealed = false)
    (hp : choice.current logical = .ok p) (hne : requests ≠ []) :
    ((∃ text, ((choose logical requests).run choice).result = .ok text) ↔
        (∀ field ∈ requests, Requestable p.schema field)
          ∧ (requests.map FieldRequest.index).Nodup)
      ∧ (∀ text, ((choose logical requests).run choice).result = .ok text →
        ((choose logical requests).run choice).state = { choice with pruned := some text }
          ∧ ∃ after, Projection.parse logical text = .ok after
            ∧ after.selectors.length = requests.length
            ∧ after.schema.columns.length = requests.length
            ∧ ∀ (i : Nat) (field : FieldRequest), requests[i]? = some field →
              ∃ c, p.schema.columns[field.index]? = some c
                ∧ after.selectors[i]? = some ⟨c.name, field.subfields⟩
                ∧ after.schema.columns[i]? = some c)
      ∧ ∀ e, ((choose logical requests).run choice).result = .error e →
        e.group = .planning ∧ ((choose logical requests).run choice).state = choice := by
  have htext := chosenText_of_current hopen hp requests
  have hresolves : p.ResolvesIn logical := by
    rw [current_eq_parse] at hp
    exact Projection.resolvesIn_of_parse hp hlogical.distinct
  cases hselectors : selectorsOf p.schema [] requests with
  | error own =>
    rw [hselectors] at htext
    rw [run_choose_eq_error htext]
    have hplanning := group_of_selectorsOf hselectors
    refine ⟨⟨fun ⟨_, h⟩ => (by cases h), fun ⟨hall, hnodup⟩ => ?_⟩, fun _ h => (by cases h),
      fun e h => ⟨Except.error.inj h ▸ hplanning, rfl⟩⟩
    obtain ⟨selectors, hok⟩ := exists_selectorsOf hall hnodup fun _ _ => List.not_mem_nil
    rw [hselectors] at hok
    cases hok
  | ok selectors =>
    rw [hselectors] at htext
    obtain ⟨after, hafter, rfl, hnonempty⟩ :=
      exists_parse_of_selectorsOf hlogical hresolves hne hselectors
    have hrun := run_choose_of_text htext
    rw [if_neg (Bool.eq_false_iff.1 hnonempty)] at hrun
    obtain ⟨hrequested, hnodup, -⟩ := requested_of_selectorsOf hselectors
    have hlater := Projection.resolvesIn_of_parse hafter hlogical.distinct
    rw [hrun]
    refine ⟨⟨fun _ => ⟨fun field hfield => ?_, hnodup⟩, fun _ => ⟨_, rfl⟩⟩, ?_,
      fun _ h => (by cases h)⟩
    · obtain ⟨selector, -, hrequest⟩ := Results.exists_mem_of_forall₂ hrequested.flip hfield
      exact hrequest.requestable
    · rintro _ htaken
      obtain rfl := Except.ok.inj htaken
      refine ⟨rfl, after, hafter, hrequested.length_eq.symm, ?_, fun i field hi => ?_⟩
      · rw [← hlater.columns.length_eq]
        exact hrequested.length_eq.symm
      · exact columns_of_requested hresolves hlater hrequested hi

/-- Through `m#{x} , id` of a table `id:int, m:map(string)`, the number and then the key `y` of the
map can be asked for, and the number twice cannot. -/
theorem choose_exact_swapped :
    (∃ text after,
      ((choose ⟨[⟨"id", .primitive .int⟩, ⟨"m", .map (.primitive .string)⟩]⟩
          [⟨1, none, []⟩, ⟨0, none, ["y"]⟩]).run (ofText (some "m#{x} , id"))).result = .ok text
        ∧ Projection.parse ⟨[⟨"id", .primitive .int⟩, ⟨"m", .map (.primitive .string)⟩]⟩ text
          = .ok after
        ∧ after.selectors[1]? = some ⟨"m", ["y"]⟩
        ∧ after.schema.columns[1]? = some ⟨"m", .map (.primitive .string)⟩)
      ∧ ¬ ∃ text,
        ((choose ⟨[⟨"id", .primitive .int⟩, ⟨"m", .map (.primitive .string)⟩]⟩
          [⟨1, none, []⟩, ⟨1, none, []⟩]).run (ofText (some "m#{x} , id"))).result = .ok text := by
  let logical : Schema := ⟨[⟨"id", .primitive .int⟩, ⟨"m", .map (.primitive .string)⟩]⟩
  let p : Projection := ⟨[⟨"m", ["x"]⟩, ⟨"id", []⟩],
    ⟨[⟨"m", .map (.primitive .string)⟩, ⟨"id", .primitive .int⟩]⟩⟩
  have hlogical : logical.WellNamed :=
    Schema.wellNamed_of_parse (by cbv : Schema.parse "id:int, m:map(string)" = .ok logical)
  have hp : (ofText (some "m#{x} , id")).current logical = .ok p := by cbv
  obtain ⟨hgranted, hchosen, -⟩ := choose_exact hlogical rfl hp
    (List.cons_ne_nil ⟨1, none, []⟩ [⟨0, none, ["y"]⟩])
  obtain ⟨hrefused, -, -⟩ := choose_exact hlogical rfl hp
    (List.cons_ne_nil ⟨1, none, []⟩ [⟨1, none, []⟩])
  constructor
  · obtain ⟨text, htext⟩ := hgranted.2 ⟨List.forall_mem_cons.2
      ⟨⟨by decide, fun hne => absurd rfl hne, List.forall_mem_nil _⟩,
        List.forall_mem_singleton.2
          ⟨by decide, fun _ => ⟨_, rfl, rfl⟩, List.forall_mem_singleton.2 (by decide)⟩⟩,
      by decide⟩
    obtain ⟨-, after, hafter, -, -, hcolumns⟩ := hchosen text htext
    obtain ⟨c, hc, hselector, hcolumn⟩ := hcolumns 1 _ rfl
    obtain rfl := Option.some.inj hc
    exact ⟨text, after, htext, hafter, hselector, hcolumn⟩
  · exact fun h => absurd (hrefused.1 h).2 (by decide)

end TableScan.ProjectionChoice
