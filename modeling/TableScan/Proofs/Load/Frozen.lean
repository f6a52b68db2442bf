import TableScan.Proofs.Load.HostCalls
import TableScan.Proofs.Load.ValidPlans
import TableScan.Proofs.Projection.Chosen

/-!
# Plans do not change

A host may ask a loader for its plan many times, and goes on calling in between, while the tables
change as well. Every plan that comes out says the same of the input.

The reason is that all plans of a run are carried by the loader behind it: once a plan was handed
out, no call changes anything of what the plan says (`isKept_carries`), and a loader says one thing
at a time.

Main statement: all plans of a run say the same of the input, and behind the first of them the
projection stays and no fields can be requested any more (`sameInput_of_mem_plansOf`).
-/

namespace TableScan

/-- Two plans say the same of the input: what is read, and how. -/
structure LoadPlan.SameInput (d d' : LoadPlan) : Prop where
  paths : d.paths = d'.paths
  projection : d.projection = d'.projection
  sorted : d.sorted = d'.sorted
  schema : d.schema = d'.schema
  sortOrder : d.sortOrder = d'.sortOrder

namespace Loader

variable {ρ : Type} {l : Loader ρ} {d d' : LoadPlan}

/-- A loader says one thing at a time. -/
theorem Carries.sameInput (h : l.Carries d) (h' : l.Carries d') : d.SameInput d' where
  paths := h.paths.symm.trans h'.paths
  projection := h.projection.symm.trans h'.projection
  sorted := h.sorted.symm.trans h'.sorted
  schema := Option.some.inj (h.schema.symm.trans h'.schema)
  sortOrder := h.sortOrder.symm.trans h'.sortOrder

/-- A loader with a plan out has no fields to choose from. -/
theorem Carries.requestFields_fails (h : l.Carries d) (fields : List FieldRequest) :
    ∃ e, ((requestFields fields).run l).result = .error e ∧ e.group = .state := by
  refine ⟨.state "plan_projection" "Sealed", ?_, rfl⟩
  -- a sealed choice refuses before it looks at the fields
  have hchoose : ((ProjectionChoice.choose d.schema fields).zoom choice fun p l =>
      { l with choice := p } : Step (Loader ρ) String).run l
      = ⟨.error (.state "plan_projection" "Sealed"), l, []⟩ := by
    have hsealed := ProjectionChoice.choose_of_isSealed h.isSealed d.schema fields
    unfold Step.run at hsealed ⊢
    unfold Step.zoom
    rw [hsealed]
  unfold requestFields
  rw [Step.run_bind_get, h.schema]
  simp only [Step.run_bind_error hchoose]

/-- No call changes what the plan that is out says. -/
theorem isKept_carries (backend : Backend ρ) (d : LoadPlan) :
    IsKept backend fun l => l.Carries d where
  resolved := by
    intro l location paths hopen h
    unfold isResolved at hopen
    rw [h.hasTables, h.isSealed] at hopen
    cases hopen
  schemaKnown := by
    intro l job schema hnone _ h
    rw [h.schema] at hnone
    cases hnone
  orderKnown := by
    intro l job order hsorted hnone _ h
    have hsome := h.hasOrder hsorted
    rw [hnone] at hsome
    cases hsome
  chosen := by
    intro l schema fields _ h
    rw [ProjectionChoice.choose_of_isSealed h.isSealed]
    exact h
  sealed := fun l h => { h with isSealed := rfl }
  signed := fun l signature h => { h with }
  partition := fun l partition h => { h with }

/-- The loader of a partition carries its plan from the start on; blank projection text counts as
none. -/
theorem carries_ofPlan {text : String} (h : LoadPlan.parse text = .ok d) :
    (ofPlan d : Loader ρ).Carries
      { d with projection := ProjectionChoice.nonBlank d.projection } := by
  -- what reading the plan has checked of it
  have hchecked : d.paths.isEmpty = false ∧ (d.sorted = true → d.sortOrder.isSome = true) := by
    unfold LoadPlan.parse at h
    split at h
    · unfold LoadPlan.checked at h
      split at h
      · cases h
      · next hpaths =>
        split at h
        · cases h
        · next horder =>
          obtain rfl := Except.ok.inj h
          rw [Bool.and_eq_true, not_and, Bool.not_eq_true, Option.isNone_eq_false_iff] at horder
          exact ⟨Bool.eq_false_iff.2 hpaths, horder⟩
    · cases h
  refine ⟨rfl, hchecked.1, hchecked.2, rfl, ?_, rfl, rfl, rfl⟩
  exact Option.or_none

variable [RecordReader ρ]

/-- Every plan of a run is carried behind the run. -/
theorem carries_behind_of_mem_plansOf {calls : List (Surroundings ρ × LoaderCall ρ)}
    (h : d ∈ l.plansOf calls) : (l.behind calls).Carries d := by
  obtain ⟨first, s, call, rest, rfl, hplan⟩ := exists_planOf_of_mem h
  rw [behind_append]
  show (((l.behind first).after s call).behind rest).Carries d
  -- carried from the call that made it on
  exact behind_of_isKept (fun c _ => isKept_carries c.1.backend d) (carries_of_planOf hplan).1

/-- Behind a plan that was handed out, whatever is called and whatever becomes of the tables: all
plans say the same of the input, the projection stays, and no fields can be requested. -/
theorem sameInput_of_mem_plansOf {calls : List (Surroundings ρ × LoaderCall ρ)}
    (h : d ∈ l.plansOf calls) (rest : List (Surroundings ρ × LoaderCall ρ)) :
    (∀ d' ∈ l.plansOf (calls ++ rest), d'.SameInput d)
      ∧ (l.behind (calls ++ rest)).projection = d.projection
      ∧ ∀ fields, ∃ e, ((requestFields fields).run (l.behind (calls ++ rest))).result = .error e
        ∧ e.group = .state := by
  -- the plan is among those of the longer run too
  have hcarries : (l.behind (calls ++ rest)).Carries d := by
    refine carries_behind_of_mem_plansOf ?_
    rw [plansOf_append]
    exact List.mem_append_left _ h
  refine ⟨fun d' hd' => ?_, hcarries.projection, hcarries.requestFields_fails⟩
  exact (carries_behind_of_mem_plansOf hd').sameInput hcarries

/-- The plan of two tables stays what it is when the tables are gone, another location is named, and
the loader gets another signature and is asked for fields and for its plan again. -/
theorem sameInput_planOfNumbered :
    let gone : Surroundings TableReader := ⟨.ofDisk .empty, .empty, .empty⟩
    let calls := onDisk TableReader.numberedTables callsOfNumbered
      ++ [(gone, .locate "elsewhere"), (gone, .sign "other"), (gone, .requestFields []),
        (gone, .makePlan)]
    (∀ d ∈ loaderOfTexts.plansOf calls, d.SameInput planOfNumbered)
      ∧ (loaderOfTexts.behind calls).projection = planOfNumbered.projection
      ∧ ∀ fields, ∃ e, ((requestFields fields).run (loaderOfTexts.behind calls)).result = .error e
        ∧ e.group = .state := by
  refine sameInput_of_mem_plansOf ?_ _
  rw [plansOf_loaderOfTexts]
  exact List.mem_singleton_self _

/-! ## Loaders of partitions -/

/-- What the loader of a partition hands out says the same of the input as its own plan. -/
theorem sameInput_ofPlan {text : String} (h : LoadPlan.parse text = .ok d)
    {calls : List (Surroundings ρ × LoaderCall ρ)} (hd' : d' ∈ (ofPlan d).plansOf calls) :
    d'.SameInput { d with projection := ProjectionChoice.nonBlank d.projection } := by
  have hcarries := behind_of_isKept
    (fun c (_ : c ∈ calls) => isKept_carries c.1.backend _) (carries_ofPlan h)
  exact (carries_behind_of_mem_plansOf hd').sameInput hcarries

end Loader

end TableScan
