import TableScan.Location.Patterns
import TableScan.Proofs.Text.Trimming

/-!
# Splitting a location loses nothing

A location is split at the commas outside of braces. How many braces are open behind some text is
`braceDepth`, where a closing brace without an opening one counts for nothing. Text is whole if no
comma of it stands outside of braces (`IsWhole`). The parts that a text is cut into are whole, and
the last one alone can leave braces open (`CutInto`, `splitOutsideBraces_eq_iff`). Then white space
and empty parts are dropped, which changes no depth.

Main statement: patterns that can stand in a location are what their list between commas is split
into, and a location is never split into anything else, whatever its braces do
(`patterns_intercalate`).
-/

namespace TableScan.Location

open Text (isBlank trim IsTrimmed)

/-- The number of braces that are open behind a text, in front of which `depth` were. -/
def braceDepth (depth : Nat) : List Char → Nat
  | [] => depth
  | c :: cs =>
    if c = '\x7b' then braceDepth (depth + 1) cs
    else if c = '\x7d' then braceDepth (depth - 1) cs
    else braceDepth depth cs

/-- Holds of text without a comma outside of braces, where `depth` are open in front of it. -/
def IsWhole (depth : Nat) (cs : List Char) : Prop :=
  ∀ front back, cs = front ++ ',' :: back → 0 < braceDepth depth front

/-- Holds of the patterns that a location can be split into. -/
structure IsPatternText (pattern : String) : Prop where
  nonempty : pattern ≠ ""
  trimmed : IsTrimmed pattern.toList
  whole : IsWhole 0 pattern.toList

variable {depth : Nat} {c : Char} {cs front back : List Char}

/-! ## Open braces -/

theorem braceDepth_append (depth : Nat) (cs ds : List Char) :
    braceDepth depth (cs ++ ds) = braceDepth (braceDepth depth cs) ds := by
  induction cs generalizing depth with
  | nil => rfl
  | cons c cs ih =>
    rw [List.cons_append, braceDepth, braceDepth]
    split
    · exact ih _
    · split
      · exact ih _
      · exact ih _

theorem braceDepth_of_blank (h : ∀ c ∈ cs, isBlank c = true) (depth : Nat) :
    braceDepth depth cs = depth := by
  induction cs with
  | nil => rfl
  | cons c cs ih =>
    obtain ⟨hc, hrest⟩ := List.forall_mem_cons.1 h
    have hopen : c ≠ '\x7b' := by
      rintro rfl
      cases hc
    have hclose : c ≠ '\x7d' := by
      rintro rfl
      cases hc
    rw [braceDepth, if_neg hopen, if_neg hclose, ih hrest]

/-- White space around a text opens and closes no brace. -/
theorem braceDepth_trim (depth : Nat) (cs : List Char) :
    braceDepth depth (trim cs) = braceDepth depth cs := by
  obtain ⟨front, back, hfront, hback, hcs⟩ := Text.exists_trim cs
  have hdepth : braceDepth depth cs = braceDepth depth (front ++ (trim cs ++ back)) :=
    congrArg (braceDepth depth) hcs
  rw [hdepth, braceDepth_append, braceDepth_append, braceDepth_of_blank hfront,
    braceDepth_of_blank hback]

theorem isWhole_nil (depth : Nat) : IsWhole depth [] := by
  intro front back h
  cases front with
  | nil => cases h
  | cons c front => cases h

/-- A character goes in front of a whole text, unless it is a comma outside of braces. -/
theorem isWhole_cons_iff :
    IsWhole depth (c :: cs) ↔ (c = ',' → 0 < depth) ∧ IsWhole (braceDepth depth [c]) cs := by
  constructor
  -- the cut at the empty front asks for the comma, the longer ones for the rest
  · intro h
    refine ⟨?_, fun front back hcs => ?_⟩
    · rintro rfl
      exact h [] cs rfl
    · rw [← braceDepth_append]
      exact h (c :: front) back (congrArg (c :: ·) hcs)
  · rintro ⟨hcomma, hcs⟩ front back h
    cases front with
    | nil => exact hcomma (List.cons.inj h).1
    | cons d front =>
      obtain ⟨rfl, hrest⟩ := List.cons.inj h
      have hdepth := hcs front back hrest
      rwa [← braceDepth_append] at hdepth

/-- A text without white space around it is whole where it was with it. -/
theorem IsWhole.trim (h : IsWhole 0 cs) : IsWhole 0 (trim cs) := by
  obtain ⟨front, back, hfront, -, hcs⟩ := Text.exists_trim cs
  intro before behind htrim
  have hdepth := h (front ++ before) (behind ++ back) (by
    rw [hcs, htrim, List.append_assoc, List.append_assoc, List.cons_append])
  rwa [braceDepth_append, braceDepth_of_blank hfront] at hdepth

/-! ## Cuts outside of braces -/

/-- `CutInto depth cs parts`: the parts of a text between the commas outside of braces, in front of
which `depth` braces are open. -/
inductive CutInto : Nat → List Char → List (List Char) → Prop where
  | last {depth : Nat} {cs : List Char} (whole : IsWhole depth cs) : CutInto depth cs [cs]
  | more {depth : Nat} {front back : List Char} {parts : List (List Char)}
      (whole : IsWhole depth front) (closed : braceDepth depth front = 0)
      (rest : CutInto 0 back parts) : CutInto depth (front ++ ',' :: back) (front :: parts)

/-- A character goes in front of the first part, unless it is a comma outside of braces. -/
theorem CutInto.consPart {parts : List (List Char)} (hcomma : c = ',' → 0 < depth)
    (h : CutInto (braceDepth depth [c]) cs parts) :
    CutInto depth (c :: cs) (Location.consPart c parts) := by
  generalize hinner : braceDepth depth [c] = inner at h
  cases h with
  | last whole => exact .last (isWhole_cons_iff.2 ⟨hcomma, hinner ▸ whole⟩)
  | @more _ front back parts whole closed rest =>
    have hwhole : IsWhole depth (c :: front) := isWhole_cons_iff.2 ⟨hcomma, hinner ▸ whole⟩
    have hclosed : braceDepth depth (c :: front) = 0 := by
      rw [← closed, ← hinner, ← braceDepth_append]
      rfl
    have hcut := CutInto.more hwhole hclosed rest
    exact hcut

/-- A comma outside of braces ends a part. -/
theorem splitOutsideBraces_comma (cs : List Char) :
    splitOutsideBraces 0 (',' :: cs) = [] :: splitOutsideBraces 0 cs := by
  rw [splitOutsideBraces, if_neg (by decide), if_neg (by decide), if_pos (by decide)]

/-- Any other character belongs to the first part. -/
theorem splitOutsideBraces_cons (hcomma : c = ',' → 0 < depth) (cs : List Char) :
    splitOutsideBraces depth (c :: cs)
      = consPart c (splitOutsideBraces (braceDepth depth [c]) cs) := by
  have hinside : ¬ (decide (c = ',') && depth == 0) = true := by
    rw [Bool.and_eq_true, decide_eq_true_eq, beq_iff_eq]
    exact fun ⟨hc, hdepth⟩ => absurd (hcomma hc) (Nat.not_lt.2 (Nat.le_of_eq hdepth))
  rw [splitOutsideBraces, if_neg hinside, braceDepth]
  split
  · rfl
  · split
    · rfl
    · rfl

theorem splitOutsideBraces_of_isWhole (h : IsWhole depth cs) :
    splitOutsideBraces depth cs = [cs] := by
  induction cs generalizing depth with
  | nil => rfl
  | cons c cs ih =>
    obtain ⟨hcomma, hrest⟩ := isWhole_cons_iff.1 h
    rw [splitOutsideBraces_cons hcomma, ih hrest]
    rfl

/-- Text that closes its braces is a part of its own in front of a comma. -/
theorem splitOutsideBraces_append (h : IsWhole depth front) (hclosed : braceDepth depth front = 0)
    (back : List Char) :
    splitOutsideBraces depth (front ++ ',' :: back) = front :: splitOutsideBraces 0 back := by
  induction front generalizing depth with
  | nil =>
    obtain rfl : depth = 0 := hclosed
    exact splitOutsideBraces_comma back
  | cons c front ih =>
    obtain ⟨hcomma, hrest⟩ := isWhole_cons_iff.1 h
    rw [List.cons_append, splitOutsideBraces_cons hcomma, ih hrest (by
      rw [← braceDepth_append]
      exact hclosed)]
    rfl

/-- Splitting cuts at the commas outside of braces, and nowhere else. -/
theorem splitOutsideBraces_eq_iff {parts : List (List Char)} :
    splitOutsideBraces depth cs = parts ↔ CutInto depth cs parts := by
  constructor
  · rintro rfl
    induction cs generalizing depth with
    | nil => exact .last (isWhole_nil depth)
    | cons c cs ih =>
      -- a comma outside of braces ends a part, any other character joins the first
      by_cases hcut : c = ',' ∧ depth = 0
      · obtain ⟨rfl, rfl⟩ := hcut
        rw [splitOutsideBraces_comma]
        have hcut := CutInto.more (isWhole_nil 0) rfl ih
        exact hcut
      · have hcomma : c = ',' → 0 < depth := fun hc =>
          Nat.pos_of_ne_zero fun hdepth => hcut ⟨hc, hdepth⟩
        rw [splitOutsideBraces_cons hcomma]
        exact ih.consPart hcomma
  · intro h
    induction h with
    | last whole => exact splitOutsideBraces_of_isWhole whole
    | more whole closed _ ih => rw [splitOutsideBraces_append whole closed, ih]

/-- A text is whole just when it is not split. -/
theorem isWhole_iff : IsWhole depth cs ↔ splitOutsideBraces depth cs = [cs] := by
  refine ⟨splitOutsideBraces_of_isWhole, fun h => ?_⟩
  generalize hparts : [cs] = parts at h
  cases splitOutsideBraces_eq_iff.1 h with
  | last whole => exact whole
  | more _ _ rest =>
    obtain rfl := (List.cons.inj hparts).2
    cases rest

namespace CutInto

variable {parts : List (List Char)}

theorem ne_nil (h : CutInto depth cs parts) : parts ≠ [] := by
  cases h with
  | last => exact List.cons_ne_nil _ _
  | more => exact List.cons_ne_nil _ _

/-- The parts of a text are whole. -/
theorem isWhole (h : CutInto 0 cs parts) : ∀ part ∈ parts, IsWhole 0 part := by
  -- every part but the first begins outside of braces; the first does as the depth is 0
  generalize hdepth : 0 = depth at h
  induction h with
  | last whole =>
    subst hdepth
    exact List.forall_mem_singleton.2 whole
  | more whole _ _ ih =>
    subst hdepth
    exact List.forall_mem_cons.2 ⟨whole, ih rfl⟩

/-- All parts but the last one close their braces. -/
theorem closed (h : CutInto 0 cs parts) : ∀ part ∈ parts.dropLast, braceDepth 0 part = 0 := by
  generalize hdepth : 0 = depth at h
  induction h with
  | last => exact fun part hpart => absurd hpart List.not_mem_nil
  | more _ closed rest ih =>
    subst hdepth
    rw [List.dropLast_cons_of_ne_nil rest.ne_nil]
    exact List.forall_mem_cons.2 ⟨closed, ih rfl⟩

/-- Behind text that closes its braces a comma starts a new part, whatever stands in front. -/
theorem append {more : List (List Char)} (h : CutInto depth front parts)
    (hclosed : braceDepth depth front = 0) (hback : CutInto 0 back more) :
    CutInto depth (front ++ ',' :: back) (parts ++ more) := by
  induction h with
  | last whole => exact .more whole hclosed hback
  | @more depth first others parts whole closed rest ih =>
    rw [braceDepth_append, closed] at hclosed
    rw [List.append_assoc, List.cons_append]
    exact .more whole closed (ih hclosed)

end CutInto

/-! ## Patterns -/

theorem trim_toList {pattern : String} (h : IsPatternText pattern) :
    String.ofList (trim pattern.toList) = pattern := by
  rw [Text.trim_eq_self_iff.2 h.trimmed, String.ofList_toList]

/-- The text between commas is cut into the patterns again. -/
theorem cutInto_intercalate {ps : List String} (hne : ps ≠ []) (h : ∀ p ∈ ps, IsPatternText p)
    (hclosed : ∀ p ∈ ps.dropLast, braceDepth 0 p.toList = 0) :
    CutInto 0 (",".intercalate ps).toList (ps.map String.toList) := by
  induction ps with
  | nil => exact absurd rfl hne
  | cons p rest ih =>
    obtain ⟨hp, hrest⟩ := List.forall_mem_cons.1 h
    cases rest with
    | nil =>
      rw [String.intercalate_singleton]
      exact .last hp.whole
    | cons q rest =>
      have hcomma : (",".intercalate (p :: q :: rest)).toList
          = p.toList ++ ',' :: (",".intercalate (q :: rest)).toList := by
        rw [String.intercalate_cons_cons, String.toList_append, String.toList_append,
          List.append_assoc]
        rfl
      obtain ⟨hfirst, hothers⟩ := List.forall_mem_cons.1 hclosed
      rw [hcomma]
      exact .more hp.whole hfirst (ih (List.cons_ne_nil _ _) hrest hothers)

/-- Patterns come back from their list between commas if all but the last one close their braces. -/
theorem patterns_of_closed {ps : List String} (h : ∀ p ∈ ps, IsPatternText p)
    (hclosed : ∀ p ∈ ps.dropLast, braceDepth 0 p.toList = 0) :
    patterns (",".intercalate ps) = ps := by
  by_cases hne : ps = []
  · rw [hne]
    rfl
  -- trimming changes no pattern and none of them is empty, so nothing is dropped
  · have hself : ps.map (fun p => String.ofList (trim p.toList)) = ps.map id :=
      List.map_congr_left fun p hp => trim_toList (h p hp)
    rw [patterns, splitOutsideBraces_eq_iff.2 (cutInto_intercalate hne h hclosed), List.map_map]
    show (ps.map fun p => String.ofList (trim p.toList)).filter _ = ps
    rw [hself, List.map_id, List.filter_eq_self]
    intro p hp
    rw [Bool.not_eq_true', String.isEmpty_eq_false_iff]
    exact (h p hp).nonempty

/-- What holds of all members but the last one holds still when some members are dropped. -/
theorem forall_mem_dropLast_filter {α : Type} {l : List α} {P : α → Prop}
    (h : ∀ a ∈ l.dropLast, P a) (keep : α → Bool) :
    ∀ a ∈ (l.filter keep).dropLast, P a := by
  rcases List.eq_nil_or_concat l with rfl | ⟨front, last, rfl⟩
  · exact h
  · rw [List.concat_eq_append, List.dropLast_concat] at h
    rw [List.concat_eq_append, List.filter_append]
    intro a ha
    -- if the last one is dropped, the new last one is among the others
    cases hkeep : keep last with
    | true =>
      rw [List.filter_cons_of_pos hkeep, List.filter_nil, List.dropLast_concat] at ha
      exact h a (List.mem_filter.1 ha).1
    | false =>
      rw [List.filter_cons_of_neg (by rw [hkeep]; decide), List.filter_nil, List.append_nil] at ha
      exact h a (List.mem_filter.1 ((List.dropLast_sublist _).mem ha)).1

/-- A pattern of a location is a part of it without the white space around it. -/
theorem isPatternText_of_mem {location pattern : String} (h : pattern ∈ patterns location) :
    IsPatternText pattern := by
  obtain ⟨hmem, hkept⟩ := List.mem_filter.1 h
  obtain ⟨part, hpart, rfl⟩ := List.mem_map.1 hmem
  have hcut : CutInto 0 location.toList _ := splitOutsideBraces_eq_iff.1 rfl
  refine ⟨?_, ?_, ?_⟩
  · rwa [Bool.not_eq_true', String.isEmpty_eq_false_iff] at hkept
  · rw [String.toList_ofList, ← Text.trim_eq_self_iff, Text.trim_trim]
  · rw [String.toList_ofList]
    exact (hcut.isWhole part hpart).trim

/-- All patterns of a location but the last one close their braces. -/
theorem closed_of_mem_dropLast (location : String) :
    ∀ p ∈ (patterns location).dropLast, braceDepth 0 p.toList = 0 := by
  have hcut : CutInto 0 location.toList _ := splitOutsideBraces_eq_iff.1 rfl
  refine forall_mem_dropLast_filter ?_ _
  rw [← List.map_dropLast]
  refine List.forall_mem_map.2 fun part hpart => ?_
  rw [String.toList_ofList, braceDepth_trim]
  exact hcut.closed part hpart

/-- The patterns of two locations in a row are those of the first one and those of the second one,
unless the first one leaves a brace open. -/
theorem patterns_append {first second : String} (h : braceDepth 0 first.toList = 0) :
    patterns (first ++ "," ++ second) = patterns first ++ patterns second := by
  have hfirst : CutInto 0 first.toList _ := splitOutsideBraces_eq_iff.1 rfl
  have hsecond : CutInto 0 second.toList _ := splitOutsideBraces_eq_iff.1 rfl
  have htext : (first ++ "," ++ second).toList = first.toList ++ ',' :: second.toList := by
    rw [String.toList_append, String.toList_append, List.append_assoc]
    rfl
  unfold patterns
  rw [htext, splitOutsideBraces_eq_iff.2 (hfirst.append h hsecond), List.map_append,
    List.filter_append]

/-- Patterns that close their braces come back from their list between commas. A location is always
split into patterns that can stand in one, of which the last one alone may leave braces open, and
these come back too. -/
theorem patterns_intercalate :
    (∀ ps : List String, (∀ p ∈ ps, IsPatternText p ∧ braceDepth 0 p.toList = 0) →
        patterns (",".intercalate ps) = ps)
      ∧ ∀ location : String, (∀ p ∈ patterns location, IsPatternText p)
        ∧ (∀ p ∈ (patterns location).dropLast, braceDepth 0 p.toList = 0)
        ∧ patterns (",".intercalate (patterns location)) = patterns location := by
  constructor
  · intro ps h
    exact patterns_of_closed (fun p hp => (h p hp).1)
      fun p hp => (h p ((List.dropLast_sublist _).mem hp)).2
  · intro location
    have htexts : ∀ p ∈ patterns location, IsPatternText p :=
      fun p hp => isPatternText_of_mem hp
    have hclosed := closed_of_mem_dropLast location
    exact ⟨htexts, hclosed, patterns_of_closed htexts hclosed⟩

/-- A group in a group, and a closing brace without an opening one beside white space. -/
theorem patterns_intercalate_groups :
    (∀ p ∈ ["/t/\x7ba,\x7bb,c\x7d\x7d", "\x7dd e"],
        IsPatternText p ∧ braceDepth 0 p.toList = 0)
      ∧ patterns "/t/\x7ba,\x7bb,c\x7d\x7d,\x7dd e"
        = ["/t/\x7ba,\x7bb,c\x7d\x7d", "\x7dd e"] := by
  -- all three conditions can be computed for a pattern
  have htext : ∀ p : String, p ≠ "" → trim p.toList = p.toList →
      splitOutsideBraces 0 p.toList = [p.toList] → IsPatternText p :=
    fun p hne htrim hsplit => ⟨hne, Text.trim_eq_self_iff.1 htrim, isWhole_iff.2 hsplit⟩
  have hps : ∀ p ∈ ["/t/\x7ba,\x7bb,c\x7d\x7d", "\x7dd e"],
      IsPatternText p ∧ braceDepth 0 p.toList = 0 := by
    refine List.forall_mem_cons.2 ⟨⟨?_, rfl⟩, List.forall_mem_singleton.2 ⟨?_, rfl⟩⟩
    · exact htext _ (by decide) rfl rfl
    · exact htext _ (by decide) rfl rfl
  exact ⟨hps, patterns_intercalate.1 _ hps⟩

end TableScan.Location
