import TableScan.Files.Tree
import TableScan.Proofs.Text.Splitting

/-!
# Places in trees of names

A place is the list of names that lead to a file or a directory (`FileTree.at?`). Following a path
ends at a place, unless it steps out of the working directory, where nothing is known to be.

* `FileTree.Extends` holds of trees of which the second has all that the first has, in its place,
* `FileTree.put` puts a tree at a place, and changes no other file.

Main statements: a path that leads to a file still leads to it in a tree that extends the first one
(`Extends.find_eq`); what was put under a new name is found there (`follow_put`), and all else stays
(`extends_put`).
-/

namespace TableScan

namespace Path

/-- A name can stand in a directory: it is no step, and it is one segment of a path. -/
structure IsName (name : String) : Prop where
  isStep : Path.isStep name = false
  segment : '/' ∉ name.toList

theorem IsName.ne_empty {name : String} (h : IsName name) : name ≠ "" := by
  rintro rfl
  exact absurd h.isStep (by decide)

/-- The step outwards is a step. -/
theorem not_parent_of_not_isStep {segment : String} (h : ¬ isStep segment = true) :
    ¬ (segment == "..") = true := by
  intro heq
  obtain rfl := beq_iff_eq.1 heq
  exact h (by decide)

/-- A step outwards leaves the innermost directory. -/
theorem stepInto_of_parent {segment : String} (h : (segment == "..") = true)
    (names : List String) :
    stepInto names segment = match names with | [] => none | _ :: outer => some outer := by
  cases names with
  | nil => exact if_pos h
  | cons _ _ => exact if_pos h

/-- Any other step stays where it is. -/
theorem stepInto_of_isStep {segment : String} (hparent : ¬ (segment == "..") = true)
    (h : isStep segment = true) (names : List String) : stepInto names segment = some names := by
  unfold stepInto
  rw [if_neg hparent, if_pos h]

/-- A name leads into the directory of that name. -/
theorem stepInto_of_not_isStep {segment : String} (h : ¬ isStep segment = true)
    (names : List String) : stepInto names segment = some (segment :: names) := by
  unfold stepInto
  rw [if_neg (not_parent_of_not_isStep h), if_neg h]

theorem IsName.not_isStep {name : String} (h : IsName name) : ¬ Path.isStep name = true := by
  rw [h.isStep]
  exact Bool.false_ne_true

/-- A text without separator is one segment. -/
theorem segments_of_not_mem {name : String} (h : '/' ∉ name.toList) : segments name = [name] := by
  rw [segments, Text.split, Text.splitChars_of_not_mem h, List.map_singleton, String.ofList_toList]

theorem segments_append_separator {path before name : String}
    (hpath : path.toList = before.toList ++ '/' :: name.toList) (h : '/' ∉ name.toList) :
    segments path = segments before ++ [name] := by
  rw [segments, segments, Text.split, Text.split, hpath, Text.splitChars_append, List.map_append,
    Text.splitChars_of_not_mem h, List.map_singleton, String.ofList_toList]

/-- The paths of names in one directory differ in their last segment alone. -/
theorem exists_segments_join (dir : String) :
    ∃ above, ∀ name, '/' ∉ name.toList → segments (join dir name) = above ++ [name] := by
  cases hlast : dir.toList.getLast? with
  | none =>
    refine ⟨[], fun name h => ?_⟩
    have hjoin : join dir name = name := by
      unfold join
      rw [hlast]
    rw [hjoin, segments_of_not_mem h]
    rfl
  | some c =>
    -- behind a separator at the end the name follows at once, and else another one is put between
    by_cases hc : c = '/'
    · obtain ⟨before, hdir⟩ := List.getLast?_eq_some_iff.1 hlast
      refine ⟨segments (String.ofList before), fun name h => ?_⟩
      have hjoin : join dir name = dir ++ name := by
        unfold join
        rw [hlast, hc]
        rfl
      rw [hjoin]
      refine segments_append_separator ?_ h
      rw [String.toList_append, hdir, hc, String.toList_ofList, List.append_assoc]
      rfl
    · refine ⟨segments dir, fun name h => ?_⟩
      have hjoin : join dir name = dir ++ "/" ++ name := by
        unfold join
        split
        · next hnone => cases hlast.symm.trans hnone
        · next hslash => exact absurd (Option.some.inj (hlast.symm.trans hslash)) hc
        · rfl
      rw [hjoin]
      refine segments_append_separator ?_ h
      rw [String.toList_append, String.toList_append, List.append_assoc]
      rfl

/-- A path that ends with a name is cut in front of it. -/
theorem cut_of_segments {path name : String} {above : List String} (hname : name ≠ "")
    (h : segments path = above ++ [name]) : cut path = (above, name) := by
  have hempty : ¬ name.isEmpty = true := fun he => hname (String.isEmpty_iff.1 he)
  rw [cut, h, List.reverse_append, List.reverse_singleton, List.singleton_append,
    List.dropWhile_cons_of_neg hempty]
  simp only [List.reverse_reverse]

/-- It means the name in the directory that the other segments mean. -/
theorem namesOf_of_segments {path name : String} {above : List String} (hname : IsName name)
    (h : segments path = above ++ [name]) :
    namesOf path = (above.foldlM stepInto []).map fun names => names.reverse ++ [name] := by
  rw [namesOf, h, List.foldlM_append]
  cases above.foldlM stepInto [] with
  | none => rfl
  | some names =>
    show (stepInto names name >>= _ : Option _).map List.reverse = _
    rw [stepInto_of_not_isStep hname.not_isStep]
    show some (name :: names).reverse = _
    rw [List.reverse_cons]
    rfl

/-- Two names in one directory are two places. -/
theorem namesOf_join_ne {dir name other : String} {place : List String} (hname : IsName name)
    (hother : IsName other) (hne : name ≠ other) (h : namesOf (join dir other) = some place) :
    namesOf (join dir name) ≠ some place := by
  obtain ⟨above, hsegments⟩ := exists_segments_join dir
  intro h'
  rw [namesOf_of_segments hname (hsegments name hname.segment)] at h'
  rw [namesOf_of_segments hother (hsegments other hother.segment)] at h
  -- both are in the directory of the same segments
  obtain ⟨names, hnames, rfl⟩ := Option.map_eq_some_iff.1 h
  obtain ⟨names', hnames', hsame⟩ := Option.map_eq_some_iff.1 h'
  obtain rfl := Option.some.inj (hnames.symm.trans hnames')
  exact hne (List.cons.inj (List.append_cancel_left hsame)).1

/-- A path is cut behind its last segment that is not empty. -/
theorem exists_segments_of_cut {path last : String} {above : List String}
    (h : cut path = (above, last)) (hlast : last ≠ "") :
    ∃ blanks, segments path = above ++ last :: blanks ∧ ∀ blank ∈ blanks, blank = "" := by
  unfold cut at h
  split at h
  · obtain ⟨-, rfl⟩ := Prod.mk.inj h
    exact absurd rfl hlast
  · next own before hdrop =>
    obtain ⟨rfl, rfl⟩ := Prod.mk.inj h
    -- the blank segments at the end, and the one in front of them
    have hparts := List.takeWhile_append_dropWhile (p := String.isEmpty)
      (l := (segments path).reverse)
    rw [hdrop] at hparts
    refine ⟨((segments path).reverse.takeWhile String.isEmpty).reverse, ?_, fun blank hblank => ?_⟩
    · have hsegments := congrArg List.reverse hparts
      rw [List.reverse_reverse, List.reverse_append, List.reverse_cons, List.append_assoc]
        at hsegments
      exact hsegments.symm
    · have hall := List.all_takeWhile (p := String.isEmpty) (l := (segments path).reverse)
      rw [List.all_eq_true] at hall
      exact String.isEmpty_iff.1 (hall blank (List.mem_reverse.1 hblank))

/-- Blank segments lead nowhere else. -/
theorem foldlM_stepInto_of_blank {blanks names : List String}
    (h : ∀ blank ∈ blanks, blank = "") : blanks.foldlM stepInto names = some names := by
  induction blanks with
  | nil => rfl
  | cons blank blanks ih =>
    obtain ⟨rfl, hrest⟩ := List.forall_mem_cons.1 h
    exact ih hrest

theorem namesOf_of_cut {path last : String} {above : List String} (h : cut path = (above, last))
    (hlast : ¬ isStep last = true) :
    namesOf path = (above.foldlM stepInto []).map fun names => names.reverse ++ [last] := by
  have hne : last ≠ "" := by
    rintro rfl
    exact hlast (by decide)
  obtain ⟨blanks, hsegments, hblanks⟩ := exists_segments_of_cut h hne
  rw [namesOf, hsegments, List.foldlM_append]
  cases above.foldlM stepInto [] with
  | none => rfl
  | some names =>
    show ((stepInto names last >>= fun names => blanks.foldlM stepInto names) : Option _).map
      List.reverse = _
    rw [stepInto_of_not_isStep hlast]
    show (blanks.foldlM stepInto (last :: names)).map List.reverse = _
    rw [foldlM_stepInto_of_blank hblanks, Option.map_some, List.reverse_cons]
    rfl

end Path

namespace FileTree

/-! ## Places -/

/-- What stands at a place. -/
def at? (here : FileTree) : List String → Option FileTree
  | [] => some here
  | name :: rest =>
    match here with
    | .file _ => none
    | .dir entries => (Keyed.find? name entries).bind (at? · rest)

/-- Names lead on from where the first ones of them lead. -/
theorem at?_append (here : FileTree) (names names' : List String) :
    here.at? (names ++ names') = (here.at? names).bind (at? · names') := by
  induction names generalizing here with
  | nil => rfl
  | cons name names ih =>
    cases here with
    | file number => rfl
    | dir entries =>
      show (Keyed.find? name entries).bind (at? · (names ++ names'))
        = ((Keyed.find? name entries).bind (at? · names)).bind (at? · names')
      cases Keyed.find? name entries with
      | none => rfl
      | some t => exact ih t

/-- One name is looked up in the directory. -/
theorem at?_singleton (entries : List (String × FileTree)) (name : String) :
    (dir entries).at? [name] = Keyed.find? name entries := by
  show (Keyed.find? name entries).bind (fun t => some t) = _
  cases Keyed.find? name entries with
  | none => rfl
  | some t => rfl

/-- From the top of a tree some names, the last one first, lead to `here`; `above` are the
directories on the way, the innermost first. -/
inductive Leads (tree : FileTree) : List String → List FileTree → FileTree → Prop where
  | top : Leads tree [] [] tree
  | into {names : List String} {above : List FileTree} {entries : List (String × FileTree)}
      {name : String} {t : FileTree} (outer : Leads tree names above (.dir entries))
      (entry : Keyed.find? name entries = some t) :
      Leads tree (name :: names) (.dir entries :: above) t

variable {tree tree' here here' t t' : FileTree} {names : List String}
  {above above' : List FileTree}

/-- Where names lead to is their place, read from the outside. -/
theorem Leads.at?_eq (h : Leads tree names above here) : tree.at? names.reverse = some here := by
  induction h with
  | top => rfl
  | into _ hentry ih =>
    rw [List.reverse_cons, at?_append, ih, Option.bind_some, at?_singleton, hentry]

/-! ## Trees that have more -/

/-- One stays what it is: a file the same file, a directory a directory. -/
def Stays : FileTree → FileTree → Prop
  | .file n, t => t = .file n
  | .dir _, t => t.isDir = true

theorem Stays.refl (t : FileTree) : Stays t t := by
  cases t <;> rfl

/-- What the first tree has is in the second one, in its place. -/
def Extends (tree tree' : FileTree) : Prop :=
  ∀ names t, tree.at? names = some t → ∃ t', tree'.at? names = some t' ∧ Stays t t'

theorem Extends.refl (tree : FileTree) : Extends tree tree := fun _ t h => ⟨t, h, .refl t⟩

/-- A directory stays one. -/
theorem exists_dir_of_stays {entries : List (String × FileTree)} (h : Stays (.dir entries) t) :
    ∃ entries', t = .dir entries' := by
  cases t with
  | file n => cases h
  | dir entries' => exact ⟨entries', rfl⟩

/-- What is in its place through two changes is so through both. -/
theorem Extends.trans {tree'' : FileTree} (h : Extends tree tree') (h' : Extends tree' tree'') :
    Extends tree tree'' := by
  intro names t ht
  obtain ⟨t', ht', hstays⟩ := h names t ht
  obtain ⟨t'', ht'', hstays'⟩ := h' names t' ht'
  refine ⟨t'', ht'', ?_⟩
  cases t with
  | file n =>
    obtain rfl : t' = .file n := hstays
    exact hstays'
  | dir entries =>
    obtain ⟨entries', rfl⟩ := exists_dir_of_stays hstays
    exact hstays'

/-! ## Following paths -/

/-- A segment in a directory: outwards, none at all, or a name that is looked up. -/
theorem follow_dir_cons (above : List FileTree) (entries : List (String × FileTree))
    (segment : String) (rest : List String) :
    follow above (dir entries) (segment :: rest) =
      if segment == ".." then
        match above with
        | [] => follow [] empty rest
        | outer :: further => follow further outer rest
      else if Path.isStep segment then follow above (dir entries) rest
      else if Path.isLong segment then .error .nameTooLong
      else match Keyed.find? segment entries with
        | some t => follow (dir entries :: above) t rest
        | none => .error .notFound := by
  exact (follow.eq_def above (dir entries) (segment :: rest)).trans rfl

/-- Around the working directory there is nothing but directories that are empty. -/
theorem follow_empty {segments : List String} (h : follow [] empty segments = .ok t) :
    t = empty := by
  induction segments with
  | nil => exact (Except.ok.inj h).symm
  | cons segment rest ih =>
    rw [empty, follow] at h
    split at h
    · exact ih h
    · split at h
      · exact ih h
      · split at h
        · cases h
        · cases h

/-- Where the same names lead to in a tree and in one that has more, a path ends at one place in
both, or outside of the working directory. -/
theorem follow_of_extends {segments : List String} (h : Extends tree tree')
    (hleads : Leads tree names above here) (hleads' : Leads tree' names above' here')
    (hfollow : follow above here segments = .ok t) :
    (∃ ends before before' t', segments.foldlM Path.stepInto names = some ends
        ∧ Leads tree ends before t ∧ Leads tree' ends before' t'
        ∧ follow above' here' segments = .ok t')
      ∨ segments.foldlM Path.stepInto names = none ∧ t = empty
        ∧ follow above' here' segments = .ok empty := by
  induction segments generalizing names above above' here here' with
  | nil =>
    obtain rfl := Except.ok.inj hfollow
    exact .inl ⟨names, above, above', here', rfl, hleads, hleads', rfl⟩
  | cons segment rest ih =>
    cases here with
    | file n => cases hfollow
    | dir entries =>
      -- the directory is one in the second tree too
      obtain ⟨_, hat, hstays⟩ := h _ _ hleads.at?_eq
      obtain rfl := Option.some.inj (hleads'.at?_eq.symm.trans hat)
      obtain ⟨entries', rfl⟩ := exists_dir_of_stays hstays
      rw [List.foldlM_cons]
      rw [follow_dir_cons] at hfollow ⊢
      by_cases hparent : (segment == "..") = true
      · rw [if_pos hparent] at hfollow ⊢
        cases hleads with
        | top =>
          -- a step out of the working directory
          cases hleads'
          obtain rfl := follow_empty hfollow
          refine .inr ⟨?_, rfl, hfollow⟩
          rw [Path.stepInto_of_parent hparent]
          rfl
        | into outer entry =>
          cases hleads' with
          | into outer' entry' =>
            rw [Path.stepInto_of_parent hparent]
            exact ih outer outer' hfollow
      · rw [if_neg hparent] at hfollow ⊢
        by_cases hstep : Path.isStep segment = true
        · rw [if_pos hstep] at hfollow ⊢
          rw [Path.stepInto_of_isStep hparent hstep]
          exact ih hleads hleads' hfollow
        · rw [if_neg hstep] at hfollow ⊢
          rw [Path.stepInto_of_not_isStep hstep]
          by_cases hlong : Path.isLong segment = true
          · rw [if_pos hlong] at hfollow
            cases hfollow
          · rw [if_neg hlong] at hfollow ⊢
            cases hentry : Keyed.find? segment entries with
            | none =>
              rw [hentry] at hfollow
              cases hfollow
            | some u =>
              rw [hentry] at hfollow
              -- the entry stands in its place in the second tree
              have hinner := Leads.into hleads hentry
              obtain ⟨u', hat', -⟩ := h _ _ hinner.at?_eq
              rw [List.reverse_cons, at?_append, hat, Option.bind_some, at?_singleton] at hat'
              rw [hat']
              exact ih hinner (.into hleads' hat') hfollow

/-- Some segments lead nowhere, whatever comes behind them, or to where the others are followed
from. -/
theorem follow_append_cases (above : List FileTree) (here : FileTree) (segments : List String) :
    (∃ e, ∀ more, follow above here (segments ++ more) = .error e)
      ∨ ∃ above' here', ∀ more,
        follow above here (segments ++ more) = follow above' here' more := by
  induction segments generalizing above here with
  | nil => exact .inr ⟨above, here, fun _ => rfl⟩
  | cons segment rest ih =>
    cases here with
    | file n => exact .inl ⟨.notDirectory, fun _ => rfl⟩
    | dir entries =>
      simp only [List.cons_append, follow_dir_cons]
      split
      · split
        · exact ih _ _
        · exact ih _ _
      · split
        · exact ih _ _
        · split
          · exact .inl ⟨.nameTooLong, fun _ => rfl⟩
          · split
            · exact ih _ _
            · exact .inl ⟨.notFound, fun _ => rfl⟩

/-- A last segment that is a name is looked up in the directory that those before it lead to. -/
theorem follow_append_name {name : String} (hname : Path.IsName name) (segments : List String) :
    follow above here (segments ++ [name]) =
      match follow above here segments with
      | .error e => .error e
      | .ok (.file _) => .error .notDirectory
      | .ok (.dir entries) =>
        if Path.isLong name then .error .nameTooLong
        else match Keyed.find? name entries with
          | some t => .ok t
          | none => .error .notFound := by
  have hstep := hname.not_isStep
  -- up to the last segment the path leads nowhere, or to where the name is looked up
  rcases follow_append_cases above here segments with ⟨e, hfail⟩ | ⟨above', here', hmore⟩
  · have hbefore := hfail []
    rw [List.append_nil] at hbefore
    rw [hfail, hbefore]
  · have hbefore := hmore []
    rw [List.append_nil] at hbefore
    rw [hmore, hbefore]
    cases here' with
    | file n => rfl
    | dir entries =>
      rw [follow_dir_cons, if_neg (Path.not_parent_of_not_isStep hstep), if_neg hstep]
      rfl

/-- A path that leads to a file is the place of the file. -/
theorem at?_of_find {path : String} {number : Nat} (h : tree.find path = .ok (.file number)) :
    ∃ names, Path.namesOf path = some names ∧ tree.at? names = some (.file number) := by
  unfold find at h
  split at h
  · cases h
  · rcases follow_of_extends (Extends.refl tree) .top .top h with
      ⟨ends, _, _, _, hends, hleads, -⟩ | ⟨-, hempty, -⟩
    · exact ⟨ends.reverse, by rw [Path.namesOf, hends]; rfl, hleads.at?_eq⟩
    -- outside of the working directory no file is found
    · cases hempty

/-- A file is found under its path in all trees that have more. -/
theorem Extends.find_eq (h : Extends tree tree') {path : String} {number : Nat}
    (hfind : tree.find path = .ok (.file number)) : tree'.find path = .ok (.file number) := by
  unfold find at hfind ⊢
  split at hfind
  · cases hfind
  · rcases follow_of_extends h .top .top hfind with
      ⟨_, _, _, t', _, hleads, hleads', hfollow⟩ | ⟨-, hempty, -⟩
    · obtain ⟨_, hat, hstays⟩ := h _ _ hleads.at?_eq
      obtain rfl := Option.some.inj (hleads'.at?_eq.symm.trans hat)
      rw [hfollow]
      exact congrArg _ hstays
    · cases hempty

/-- A path that can be followed is followed from the top. -/
theorem find_eq_follow {path : String} (h : Path.check path = .ok ()) (tree : FileTree) :
    tree.find path = follow [] tree (Path.segments path) := by
  unfold find
  rw [h]

/-- The spot of a path is in the directory that the segments before the last one lead to. -/
theorem spot_eq_ok {path last : String} {entries : List (String × FileTree)}
    (h : tree.spot path = .ok (entries, last)) :
    Path.check path = .ok () ∧ ∃ above, Path.cut path = (above, last)
      ∧ follow [] tree above = .ok (.dir entries) ∧ Path.isLong last = false := by
  unfold spot at h
  split at h
  · cases h
  · next hcheck =>
    simp only at h
    split at h
    · cases h
    · cases h
    · next hfollow =>
      split at h
      · cases h
      · next hshort =>
        obtain ⟨rfl, rfl⟩ := Prod.mk.inj (Except.ok.inj h)
        exact ⟨hcheck, _, rfl, hfollow, Bool.eq_false_iff.2 hshort⟩

/-- The spot of a name is in the directory that the segments before it lead to. -/
theorem follow_of_spot {path name last : String} {above : List String}
    {entries : List (String × FileTree)} (hname : name ≠ "")
    (hpath : Path.segments path = above ++ [name]) (h : tree.spot path = .ok (entries, last)) :
    Path.check path = .ok () ∧ follow [] tree above = .ok (.dir entries) ∧ last = name
      ∧ Path.isLong name = false := by
  obtain ⟨hcheck, own, hcut, hfollow, hshort⟩ := spot_eq_ok h
  rw [Path.cut_of_segments hname hpath] at hcut
  obtain ⟨rfl, rfl⟩ := Prod.mk.inj hcut
  exact ⟨hcheck, hfollow, rfl, hshort⟩

/-! ## Putting trees at places -/

/-- Nothing is put into a file. -/
theorem put_file (new : Option FileTree) (names : List String) (number : Nat) :
    (file number).put new names = file number := by
  cases names with
  | nil => rfl
  | cons name names => cases names <;> rfl

/-- What is put further in is put into the entry of the first name. -/
theorem put_cons {names : List String} (hne : names ≠ []) (new : Option FileTree) (name : String)
    (entries : List (String × FileTree)) :
    put new (name :: names) (dir entries) =
      match Keyed.find? name entries with
      | some t => .dir (Keyed.insert name (put new names t) entries)
      | none => .dir entries := by
  cases names with
  | nil => exact absurd rfl hne
  | cons next rest => rfl

/-- Under an entry that was set stands what it was set to. -/
theorem at?_insert_self (name : String) (entries : List (String × FileTree)) (rest : List String) :
    (dir (Keyed.insert name t entries)).at? (name :: rest) = t.at? rest := by
  show (Keyed.find? name (Keyed.insert name t entries)).bind (at? · rest) = _
  rw [Keyed.find?_insert_self]
  rfl

/-- The other entries are what they were. -/
theorem at?_insert_of_ne {name other : String} (h : other ≠ name)
    (entries : List (String × FileTree)) (rest : List String) :
    (dir (Keyed.insert name t entries)).at? (other :: rest)
      = (dir entries).at? (other :: rest) := by
  show (Keyed.find? other (Keyed.insert name t entries)).bind (at? · rest) = _
  rw [Keyed.find?_insert_of_ne h]
  rfl

/-- Files that are there after something was put at a place were there before, or are part of what
was put. -/
theorem at?_of_at?_put {number : Nat} {names place : List String}
    (h : (tree.put (some t) names).at? place = some (.file number)) :
    tree.at? place = some (.file number)
      ∨ ∃ rest, place = names ++ rest ∧ t.at? rest = some (.file number) := by
  induction names generalizing tree place with
  | nil => exact .inl h
  | cons name names ih =>
    cases tree with
    | file n =>
      rw [put_file] at h
      exact .inl h
    | dir entries =>
      -- the entry that changes, and what it changes to
      have hset : ∀ u, (dir (Keyed.insert name u entries)).at? place = some (.file number) →
          (dir entries).at? place = some (.file number)
            ∨ ∃ rest, place = name :: rest ∧ u.at? rest = some (.file number) := by
        intro u hu
        cases place with
        | nil => cases hu
        | cons other rest =>
          by_cases hother : other = name
          · rw [hother, at?_insert_self] at hu
            exact .inr ⟨rest, by rw [hother], hu⟩
          · rw [at?_insert_of_ne hother] at hu
            exact .inl hu
      cases names with
      | nil => exact hset t h
      | cons next names =>
        rw [put_cons (List.cons_ne_nil _ _)] at h
        cases hentry : Keyed.find? name entries with
        | none =>
          rw [hentry] at h
          exact .inl h
        | some u =>
          rw [hentry] at h
          rcases hset _ h with hold | ⟨rest, rfl, hrest⟩
          · exact .inl hold
          -- the file was in the entry before, or it came with what was put there
          · rcases ih hrest with hold | ⟨inner, rfl, hinner⟩
            · refine .inl ?_
              show (Keyed.find? name entries).bind (at? · rest) = _
              rw [hentry]
              exact hold
            · exact .inr ⟨inner, rfl, hinner⟩

/-- Putting something where nothing was leaves all else in its place. -/
theorem extends_put {names : List String} (h : tree.at? names = none) :
    Extends tree (tree.put (some t) names) := by
  induction names generalizing tree with
  | nil => cases h
  | cons name names ih =>
    cases tree with
    | file n =>
      rw [put_file]
      exact .refl _
    | dir entries =>
      -- an entry may be set to what has all that the old one had
      have hset : ∀ u, (∀ old, Keyed.find? name entries = some old → Extends old u) →
          Extends (dir entries) (dir (Keyed.insert name u entries)) := by
        intro u hu place v hv
        cases place with
        | nil =>
          obtain rfl := Option.some.inj hv
          exact ⟨_, rfl, rfl⟩
        | cons other rest =>
          by_cases hother : other = name
          · rw [hother] at hv ⊢
            obtain ⟨old, hold, hv⟩ := Option.bind_eq_some_iff.1 hv
            rw [at?_insert_self]
            exact hu old hold rest v hv
          · rw [at?_insert_of_ne hother]
            exact ⟨v, hv, .refl v⟩
      cases names with
      | nil =>
        rw [at?_singleton] at h
        exact hset t fun old hold => by cases h.symm.trans hold
      | cons next names =>
        rw [put_cons (List.cons_ne_nil _ _)]
        cases hentry : Keyed.find? name entries with
        | none => exact .refl _
        | some u =>
          -- nothing was at the rest of the place, below the entry
          have hinner : u.at? (next :: names) = none := by
            have hat : (Keyed.find? name entries).bind (at? · (next :: names)) = none := h
            rwa [hentry] at hat
          refine hset _ fun old hold => ?_
          obtain rfl := Option.some.inj (hentry.symm.trans hold)
          exact ih hinner

/-- What is put into a directory stands under its name. -/
theorem at?_put {place : List String} {name : String} {entries : List (String × FileTree)}
    (h : tree.at? place = some (.dir entries)) :
    (tree.put (some t) (place ++ [name])).at? (place ++ [name]) = some t := by
  induction place generalizing tree with
  | nil =>
    obtain rfl := Option.some.inj h
    exact at?_insert_self name entries []
  | cons outer place ih =>
    cases tree with
    | file n => cases h
    | dir around =>
      obtain ⟨u, hentry, hu⟩ := Option.bind_eq_some_iff.1 h
      -- the outer entry is set to what holds the new one
      rw [List.cons_append, put_cons (List.append_ne_nil_of_right_ne_nil _ (List.cons_ne_nil _ _)),
        hentry]
      show (dir (Keyed.insert outer _ around)).at? (outer :: (place ++ [name])) = _
      rw [at?_insert_self]
      exact ih hu

/-- The place of a directory that segments lead to. -/
theorem at?_of_follow {segments names : List String} {entries : List (String × FileTree)}
    (hfollow : follow [] tree segments = .ok (.dir entries))
    (hnames : segments.foldlM Path.stepInto [] = some names) :
    tree.at? names.reverse = some (.dir entries) := by
  rcases follow_of_extends (Extends.refl tree) .top .top hfollow with
    ⟨ends, _, _, _, hends, hleads, -⟩ | ⟨hends, -⟩
  · obtain rfl := Option.some.inj (hnames.symm.trans hends)
    exact hleads.at?_eq
  · cases hnames.symm.trans hends

/-- What is put under a new name of a directory is found under a path that leads to the directory
and goes on with the name; and all else stays where it was. -/
theorem follow_put {segments names : List String} {name : String}
    {entries : List (String × FileTree)} (hname : Path.IsName name)
    (hshort : Path.isLong name = false) (hfollow : follow [] tree segments = .ok (.dir entries))
    (hnames : segments.foldlM Path.stepInto [] = some names)
    (hnew : Keyed.find? name entries = none) :
    tree.at? (names.reverse ++ [name]) = none
      ∧ follow [] (tree.put (some t) (names.reverse ++ [name])) (segments ++ [name]) = .ok t := by
  have hplace := at?_of_follow hfollow hnames
  have hnone : tree.at? (names.reverse ++ [name]) = none := by
    rw [at?_append, hplace, Option.bind_some, at?_singleton, hnew]
  have hput : (tree.put (some t) (names.reverse ++ [name])).at? (names.reverse ++ [name])
      = some t := at?_put hplace
  refine ⟨hnone, ?_⟩
  -- the segments lead to the same directory, which now has the name
  rcases follow_of_extends (extends_put hnone) .top .top hfollow with
    ⟨ends, _, _, t', hends, hleads, hleads', hfollow'⟩ | ⟨hends, -⟩
  · obtain rfl := Option.some.inj (hnames.symm.trans hends)
    obtain ⟨_, hat, hstays⟩ := extends_put (t := t) hnone _ _ hleads.at?_eq
    obtain rfl := Option.some.inj (hleads'.at?_eq.symm.trans hat)
    obtain ⟨entries', rfl⟩ := exists_dir_of_stays hstays
    rw [at?_append, hat, Option.bind_some, at?_singleton] at hput
    rw [follow_append_name hname, hfollow']
    simp only [hshort, hput]
    rfl
  · cases hnames.symm.trans hends

end FileTree

end TableScan
