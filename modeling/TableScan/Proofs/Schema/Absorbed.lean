import TableScan.Proofs.Attempts
import TableScan.Proofs.Schema.Union

/-!
# Schemas that take in others

Merging in place. It leaves what the union of the two schemas is, where there is one
(`union_eq_run_absorb`). Every column is compared before the first one is added, and the ones that
are added have new names, each another one; so once the columns agree nothing can fail any more, and
a schema takes in all of another one or none of it (`absorb_cases`). The invariant that carries a
sequence of merges is that no name is there twice.

Main statement: of schemas that are merged into one after another those that conflict leave no
trace, and what is there in the end is the union of the others (`unionOf_answered_absorb`).
-/

namespace TableScan.Schema

variable {s s' t : Schema} {c : Column} {new : List Column} {e : LoadError}

/-! ## Adding columns -/

/-- A column of a new name is added. -/
theorem run_add_of_ok (h : s.push c = .ok s') : (add c).run s = ⟨.ok (), s', []⟩ := by
  unfold Step.run add
  rw [h]

/-- One of a name that is taken is refused, and nothing changes. -/
theorem run_add_of_error (h : s.push c = .error e) : (add c).run s = ⟨.error e, s, []⟩ := by
  unfold Step.run add
  rw [h]

/-- Adding in place leaves what adding to a copy gives. -/
theorem foldlM_push_eq_run_addAll (new : List Column) (s : Schema) :
    new.foldlM push s = ((addAll new).run s).result.map fun _ => ((addAll new).run s).state := by
  induction new generalizing s with
  | nil => rfl
  | cons c rest ih =>
    rw [List.foldlM_cons, addAll]
    cases hpush : s.push c with
    | error e =>
      rw [Step.run_bind_error (run_add_of_error hpush)]
      rfl
    | ok s' =>
      rw [Step.run_bind_ok (run_add_of_ok hpush)]
      exact ih s'

/-- Columns of new names are all added. -/
theorem run_addAll (hdistinct : NamesDistinct ⟨new⟩) (hnew : ∀ c ∈ new, c.name ∉ s.names) :
    (addAll new).run s = ⟨.ok (), ⟨s.columns ++ new⟩, []⟩ := by
  induction new generalizing s with
  | nil => rw [List.append_nil]; rfl
  | cons c rest ih =>
    obtain ⟨hc, hrest⟩ := List.nodup_cons.1 hdistinct
    obtain ⟨hfirst, hnew⟩ := List.forall_mem_cons.1 hnew
    -- the column that has just been added is none of those to come
    have hlater : ∀ d ∈ rest, d.name ∉ names ⟨s.columns ++ [c]⟩ := by
      intro d hd hmem
      rw [names, List.map_append, List.mem_append] at hmem
      rcases hmem with hold | hlast
      · exact hnew d hd hold
      · exact hc (List.mem_singleton.1 hlast ▸ List.mem_map_of_mem hd)
    have hadd := run_add_of_ok (push_eq_ok_iff.2 ⟨hfirst, rfl⟩)
    rw [addAll, Step.run_bind_ok hadd, ih hrest hlater]
    simp

/-! ## Merging another schema -/

/-- A conflict is found before anything is added. -/
theorem run_absorb_of_error (h : s.additions t.columns = .error e) :
    (absorb t).run s = ⟨.error e, s, []⟩ := by
  rw [absorb, Step.run_bind_get, h]
  rfl

/-- Without a conflict the new columns are added. -/
theorem run_absorb_of_ok (h : s.additions t.columns = .ok new) :
    (absorb t).run s = (addAll new).run s := by
  rw [absorb, Step.run_bind_get, h]
  rfl

/-- What a merge leaves is the union of the two schemas, and it fails where they have none. -/
theorem union_eq_run_absorb (s t : Schema) :
    s.union t = ((absorb t).run s).result.map fun _ => ((absorb t).run s).state := by
  unfold union
  cases hnew : s.additions t.columns with
  | error e =>
    rw [run_absorb_of_error hnew]
    rfl
  | ok new =>
    rw [run_absorb_of_ok hnew]
    exact foldlM_push_eq_run_addAll new s

/-- The columns that a schema does not have yet are new to it, and none of them is there twice. -/
theorem run_addAll_of_additions (hs : s.NamesDistinct) (ht : t.NamesDistinct)
    (h : s.additions t.columns = .ok new) :
    (addAll new).run s = ⟨.ok (), ⟨s.columns ++ new⟩, []⟩ := by
  rcases additions_cases hs t.columns with ⟨-, hok⟩ | ⟨e, -, hfail⟩
  · obtain rfl := Except.ok.inj (h.symm.trans hok)
    exact run_addAll (ht.sublist List.filter_sublist) fun c hc =>
      of_decide_eq_true (List.mem_filter.1 hc).2
  · cases h.symm.trans hfail

/-- A schema that agrees is taken in as a whole; of one that conflicts nothing is taken in. -/
theorem absorb_cases (hs : s.NamesDistinct) (ht : t.NamesDistinct) :
    (s.AgreesWith t ∧ ((absorb t).run s).result = .ok ())
      ∨ ∃ e, s.ConflictsWith t e ∧ (absorb t).run s = ⟨.error e, s, []⟩ := by
  rcases additions_cases hs t.columns with ⟨hagree, hok⟩ | ⟨e, he, hfail⟩
  · refine .inl ⟨hagree, ?_⟩
    rw [run_absorb_of_ok hok, run_addAll_of_additions hs ht hok]
  · exact .inr ⟨e, he, run_absorb_of_error hfail⟩

/-! ## One schema after another -/

/-- Adding a column repeats no name. -/
theorem keeps_add (c : Column) : Step.Keeps NamesDistinct (add c) := by
  intro s hs
  cases hpush : s.push c with
  | error e =>
    rw [run_add_of_error hpush]
    exact hs
  | ok s' =>
    obtain ⟨hc, rfl⟩ := push_eq_ok_iff.1 hpush
    rw [run_add_of_ok hpush]
    exact NamesDistinct.concat hs hc

/-- Nor does adding several. -/
theorem keeps_addAll (new : List Column) : Step.Keeps NamesDistinct (addAll new) := by
  induction new with
  | nil => exact .pure ()
  | cons c rest ih => exact .bind (keeps_add c) fun _ => ih

/-- Whether it answers or fails, a merge leaves no name twice. -/
theorem keeps_absorb (t : Schema) : Step.Keeps NamesDistinct (absorb t) :=
  .bind_get fun s hs => Step.Keeps.bind (.ofResult _) keeps_addAll s hs

/-- The schemas that are taken in make the union that is left, one after another. -/
theorem foldlM_union_answered_absorb {schemas : List Schema} (hs : s.NamesDistinct)
    (hall : ∀ t ∈ schemas, t.NamesDistinct) :
    (Step.answered absorb schemas s).foldlM union s = .ok (Step.runEach absorb schemas s).2 := by
  induction schemas generalizing s with
  | nil => rfl
  | cons t rest ih =>
    obtain ⟨ht, hrest⟩ := List.forall_mem_cons.1 hall
    have hmore := ih (keeps_absorb t s hs) hrest
    rcases absorb_cases hs ht with ⟨-, hok⟩ | ⟨e, -, hrun⟩
    -- a schema that is taken in is one of those of the union
    · rw [Step.answered_cons_of_ok hok, List.foldlM_cons, union_eq_run_absorb, hok]
      exact hmore
    -- one that conflicts leaves what is there
    · have hstill : ((absorb t).run s).state = s := congrArg Outcome.state hrun
      rw [hstill] at hmore
      rw [Step.answered_cons_of_error (congrArg Outcome.result hrun), Step.runEach, hstill]
      exact hmore

/-- Schemas are merged into one that is there, whether or not those in front were. A merge answers
when the schema agrees with what is there by then; a failing one names a column in which they
differ and leaves what is there as it is, and once the columns agree each new one is added. In the
end there is the union of what was there first and the schemas that were merged in. -/
theorem unionOf_answered_absorb {base : Schema} {schemas : List Schema} (hbase : base.NamesDistinct)
    (hall : ∀ t ∈ schemas, t.NamesDistinct) :
    (∀ before t behind, schemas = before ++ t :: behind →
        ∀ s, (Step.runEach absorb before base).2 = s →
          (((absorb t).run s).result = .ok () ↔ s.AgreesWith t)
            ∧ (∀ e, ((absorb t).run s).result = .error e →
                s.ConflictsWith t e ∧ ((absorb t).run s).state = s)
            ∧ ∀ new, s.additions t.columns = .ok new → ((addAll new).run s).result = .ok ())
      ∧ unionOf (base :: Step.answered absorb schemas base)
          = .ok (Step.runEach absorb schemas base).2 := by
  constructor
  · rintro before t behind rfl s rfl
    have ht : t.NamesDistinct := hall t (List.mem_append_right _ List.mem_cons_self)
    have hs : (Step.runEach absorb before base).2.NamesDistinct :=
      Step.state_runEach (fun t _ => keeps_absorb t) hbase
    refine ⟨?_, ?_, fun new hnew => congrArg Outcome.result (run_addAll_of_additions hs ht hnew)⟩
    · rcases absorb_cases hs ht with ⟨hagree, hok⟩ | ⟨e, he, hrun⟩
      · exact iff_of_true hok hagree
      · refine iff_of_false (fun hok => ?_) he.not_agreesWith
        cases hok.symm.trans (congrArg Outcome.result hrun)
    · intro e hfail
      rcases absorb_cases hs ht with ⟨-, hok⟩ | ⟨e', he, hrun⟩
      · cases hfail.symm.trans hok
      · have hsame : e = e' := Except.error.inj (hfail.symm.trans (congrArg Outcome.result hrun))
        exact ⟨hsame ▸ he, congrArg Outcome.state hrun⟩
  · rw [unionOf_cons hbase]
    exact foldlM_union_answered_absorb hbase hall

/-- A new column in front of one that `longFirst` has with another type. -/
def boolLast : Schema := ⟨[⟨"z", .primitive .int⟩, ⟨"a", .primitive .bool⟩]⟩

/-- A conflict behind a new column; the schema after it has that column with another type. -/
theorem unionOf_answered_absorb_boolLast :
    (∃ e, ((absorb boolLast).run longFirst).result = .error e)
      ∧ ∃ u, unionOf [longFirst, ⟨[⟨"z", .primitive .string⟩]⟩] = .ok u
        ∧ u.names = ["c", "a", "z"] := by
  have hbase : longFirst.NamesDistinct := by decide
  have hall : ∀ t ∈ [boolLast, ⟨[⟨"z", .primitive .string⟩]⟩], t.NamesDistinct := by decide
  obtain ⟨hcalls, hunion⟩ := unionOf_answered_absorb hbase hall
  obtain ⟨hagrees, -, -⟩ := hcalls [] boolLast [⟨[⟨"z", .primitive .string⟩]⟩] rfl longFirst rfl
  refine ⟨?_, _, hunion, rfl⟩
  cases hresult : ((absorb boolLast).run longFirst).result with
  | ok _ => exact absurd (hagrees.1 hresult) (by decide)
  | error e => exact ⟨e, rfl⟩

end TableScan.Schema
