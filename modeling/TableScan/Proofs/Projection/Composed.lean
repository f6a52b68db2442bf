import Mathlib
import TableScan.Proofs.Projection.Chosen

/-!
# Requests one after another

A request is for fields of the projection in force, by their positions. Once it is granted it is in
force itself, and the next request counts its fields. What that one asks for can also be asked for
at once, at the positions that its fields had before (`FieldRequest.through`).

The chosen projection goes through its text, which renumbers the columns and leaves them as they
are, and positions that differ stay different, so each check finds the same at either time.

Main statement: two requests one after another come to the same as the second one asked for through
the first, also where they fail (`choose_choose`).
-/

namespace TableScan

namespace FieldRequest

/-- The position that the requested field at `i` has where it was requested. -/
def sourceOf (first : List FieldRequest) (i : Nat) : Nat := (first[i]?.map index).getD i

/-- A request for one of the requested fields as one where these were requested. -/
def through (first : List FieldRequest) (field : FieldRequest) : FieldRequest :=
  { field with index := sourceOf first field.index }

variable {first : List FieldRequest} {i j : Nat}

/-- The field at a position was requested at the position of its request. -/
theorem sourceOf_of_getElem? {own : FieldRequest} (h : first[i]? = some own) :
    sourceOf first i = own.index := by
  simp [sourceOf, h]

/-- Fields that were requested at different positions are told apart by these. -/
theorem sourceOf_eq_iff (hnodup : (first.map index).Nodup) (hi : i < first.length)
    (hj : j < first.length) : sourceOf first i = sourceOf first j ↔ i = j := by
  -- positions of requests are looked up in the list of them
  have hsource : ∀ k, k < first.length → (first.map index)[k]? = some (sourceOf first k) := by
    intro k hk
    simp [sourceOf, hk]
  constructor
  · intro heq
    have hi' : i < (first.map index).length := by simpa using hi
    apply (List.getElem?_inj hi' hnodup).1
    rw [hsource i hi, hsource j hj, heq]
  · exact fun heq => heq ▸ rfl

end FieldRequest

namespace ProjectionChoice

open FieldRequest (sourceOf)

/-- A projection schema has the columns that were requested of another one. -/
structure Selects (earlier later : Schema) (first : List FieldRequest) : Prop where
  columns : ∀ (i : Nat) (own : FieldRequest), first[i]? = some own →
    later.columns[i]? = earlier.columns[own.index]?
  distinct : (first.map FieldRequest.index).Nodup

variable {earlier later : Schema} {first second : List FieldRequest} {seen : List Nat}
  {field : FieldRequest}

/-- A position has been seen just when the one that it was requested at has been. -/
theorem Selects.contains_sourceOf (h : Selects earlier later first) {i : Nat}
    (hi : i < first.length) (hseen : ∀ j ∈ seen, j < first.length) :
    (seen.map (sourceOf first)).contains (sourceOf first i) = seen.contains i := by
  rw [Bool.eq_iff_iff, List.contains_iff_mem, List.contains_iff_mem, List.mem_map]
  constructor
  · rintro ⟨j, hj, hsame⟩
    exact (FieldRequest.sourceOf_eq_iff h.distinct (hseen j hj) hi).1 hsame ▸ hj
  · exact fun hmem => ⟨i, hmem, rfl⟩

/-- One field is granted and refused alike at either time. -/
theorem Selects.selectorOf_through (h : Selects earlier later first)
    (hfield : field.index < first.length) (hseen : ∀ j ∈ seen, j < first.length) :
    (selectorOf later seen field).mapError LoadError.group
      = (selectorOf earlier (seen.map (sourceOf first)) (field.through first)).mapError
        LoadError.group := by
  obtain ⟨own, hown⟩ : ∃ own, first[field.index]? = some own :=
    ⟨_, List.getElem?_eq_getElem hfield⟩
  have hsource := FieldRequest.sourceOf_of_getElem? hown
  have hseen' := h.contains_sourceOf hfield hseen
  rw [hsource] at hseen'
  unfold selectorOf FieldRequest.through
  simp only [hsource, hseen', h.columns _ own hown]
  cases earlier.columns[own.index]? with
  | none => rfl
  | some c =>
    -- the same checks in the same order, each with its own text
    simp only
    split
    · rfl
    · split
      · rfl
      · rfl

/-- The first request, and then the others. -/
theorem selectorsOf_cons (schema : Schema) (seen : List Nat) (field : FieldRequest)
    (rest : List FieldRequest) :
    selectorsOf schema seen (field :: rest)
      = (selectorOf schema seen field >>= fun selector =>
        (selectorsOf schema (field.index :: seen) rest).map (selector :: ·)) := by
  rw [selectorsOf]
  cases selectorOf schema seen field <;> rfl

/-- So are all fields of a request. -/
theorem Selects.selectorsOf_through (h : Selects earlier later first)
    (hsecond : ∀ field ∈ second, field.index < first.length)
    (hseen : ∀ j ∈ seen, j < first.length) :
    (selectorsOf later seen second).mapError LoadError.group
      = (selectorsOf earlier (seen.map (sourceOf first))
          (second.map (FieldRequest.through first))).mapError LoadError.group := by
  induction second generalizing seen with
  | nil => rfl
  | cons field rest ih =>
    obtain ⟨hfield, hrest⟩ := List.forall_mem_cons.1 hsecond
    have hlater := ih hrest (List.forall_mem_cons.2 ⟨hfield, hseen⟩)
    rw [List.map_cons, selectorsOf_cons, selectorsOf_cons, Results.mapError_bind,
      Results.mapError_bind, h.selectorOf_through hfield hseen]
    simp only [Results.mapError_map, hlater]
    rfl

/-! ## Two calls -/

/-- A request that is granted leaves a projection in force that has the requested columns. -/
theorem exists_selects_of_choose {choice : ProjectionChoice} {logical : Schema} {text : String}
    (hlogical : logical.WellNamed) (hfirst : first ≠ [])
    (h : ((choose logical first).run choice).result = .ok text) :
    ((choose logical first).run choice).state = { choice with pruned := some text }
      ∧ ∃ p after, choice.current logical = .ok p
        ∧ Projection.parse logical text = .ok after
        ∧ Selects p.schema after.schema first := by
  rw [result_choose] at h
  obtain ⟨p, selectors, hp, hselectors, rfl⟩ := chosenText_eq_ok h
  have hresolves : p.ResolvesIn logical := by
    rw [current_eq_parse] at hp
    exact Projection.resolvesIn_of_parse hp hlogical.distinct
  obtain ⟨after, hafter, rfl, hnonempty⟩ :=
    exists_parse_of_selectorsOf hlogical hresolves hfirst hselectors
  obtain ⟨hrequested, hdistinct, -⟩ := requested_of_selectorsOf hselectors
  have hlater := Projection.resolvesIn_of_parse hafter hlogical.distinct
  rw [run_choose_of_text h, if_neg (Bool.eq_false_iff.1 hnonempty)]
  refine ⟨rfl, p, after, hp, hafter, fun i own hown => ?_, hdistinct⟩
  obtain ⟨c, hc, -, hcolumn⟩ := columns_of_requested hresolves hlater hrequested hown
  rw [hc, hcolumn]

/-- A request behind a granted one has the answer of the request that asks for the same through it,
at the choice before both: the same text, or an error of the same group. Where it is granted both
leave the same choice, with this text in force. -/
theorem choose_choose {choice : ProjectionChoice} {logical : Schema} {text : String}
    (hlogical : logical.WellNamed) (hfirst : first ≠ [])
    (hgranted : ((choose logical first).run choice).result = .ok text) (hsecond : second ≠ [])
    (hbelow : ∀ field ∈ second, field.index < first.length) :
    (((choose logical second).run ((choose logical first).run choice).state).result.mapError
          LoadError.group
        = ((choose logical (second.map (FieldRequest.through first))).run choice).result.mapError
          LoadError.group)
      ∧ ∀ chosen,
        ((choose logical second).run ((choose logical first).run choice).state).result
            = .ok chosen →
          ((choose logical second).run ((choose logical first).run choice).state).state
              = ((choose logical (second.map (FieldRequest.through first))).run choice).state
            ∧ ((choose logical (second.map (FieldRequest.through first))).run choice).state.pruned
              = some chosen := by
  -- a sealed choice would have refused the first request
  have hopen : choice.isSealed = false := by
    by_contra hsealed
    rw [choose_of_isSealed (Bool.eq_true_of_not_eq_false hsealed)] at hgranted
    cases hgranted
  obtain ⟨hstate, p, after, hp, hafter, hselects⟩ :=
    exists_selects_of_choose hlogical hfirst hgranted
  rw [hstate]
  have hcurrent : ({ choice with pruned := some text } : ProjectionChoice).current logical
      = .ok after := hafter
  have hstill : ({ choice with pruned := some text } : ProjectionChoice).isSealed = false := hopen
  have hsame : ((choose logical second).run
        { choice with pruned := some text }).result.mapError LoadError.group
      = ((choose logical (second.map (FieldRequest.through first))).run choice).result.mapError
        LoadError.group := by
    rw [result_choose, result_choose, chosenText_of_current hopen hp,
      chosenText_of_current hstill hcurrent, Results.mapError_map, Results.mapError_map,
      hselects.selectorsOf_through hbelow fun _ hmem => absurd hmem List.not_mem_nil]
    rfl
  refine ⟨hsame, fun chosen htwice => ?_⟩
  -- the composed request is granted with the text of the second one
  have honce : ((choose logical (second.map (FieldRequest.through first))).run choice).result
      = .ok chosen := by
    rw [htwice] at hsame
    exact Results.mapError_eq_ok_iff.1 hsame.symm
  have hthrough : second.map (FieldRequest.through first) ≠ [] := by simpa using hsecond
  rw [(exists_parse_of_choose hlogical hsecond htwice).1,
    (exists_parse_of_choose hlogical hthrough honce).1]
  exact ⟨rfl, rfl⟩

/-- The two fields of a table are swapped and then swapped back, the second time with a key of the
map: the same can be asked for at once, at the positions that the fields have in the table. -/
theorem choose_choose_swapped :
    ∃ logical chosen,
      Schema.parse "id:int, m:map(string)" = .ok logical
        ∧ (((choose logical [⟨1, none, []⟩, ⟨0, none, ["y"]⟩]).run
              ((choose logical [⟨1, none, []⟩, ⟨0, none, []⟩]).run (ofText none)).state).result
            = .ok chosen)
        ∧ ((choose logical [⟨0, none, []⟩, ⟨1, none, ["y"]⟩]).run (ofText none)).state.pruned
          = some chosen := by
  let logical : Schema := ⟨[⟨"id", .primitive .int⟩, ⟨"m", .map (.primitive .string)⟩]⟩
  have hparsed : Schema.parse "id:int, m:map(string)" = .ok logical := by cbv
  have hgranted : ((choose logical [⟨1, none, []⟩, ⟨0, none, []⟩]).run (ofText none)).result
      = .ok "m , id" := by cbv
  have htwice : ((choose logical [⟨1, none, []⟩, ⟨0, none, ["y"]⟩]).run
      ((choose logical [⟨1, none, []⟩, ⟨0, none, []⟩]).run (ofText none)).state).result
      = .ok "id , m#{y}" := by cbv
  have hcomposed := choose_choose (Schema.wellNamed_of_parse hparsed) (by decide) hgranted
    (by decide) (by decide : ∀ field ∈ [(⟨1, none, []⟩ : FieldRequest), ⟨0, none, ["y"]⟩], _)
  exact ⟨logical, _, hparsed, htwice, (hcomposed.2 _ htwice).2⟩

end ProjectionChoice

end TableScan
