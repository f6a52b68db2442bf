import TableScan.Command.Run
import TableScan.Proofs.Json.Numbers
import TableScan.Proofs.Projection.Text
import TableScan.Proofs.Results
import TableScan.Proofs.Text.Splitting

/-!
# Typed lists of fields

A list of field requests is typed as shorthands between commas, `0,1#x|y`. Reading it cuts the text
three times, at commas, at the first hash of a part and at bars, and trims what it finds.

Main statement: a request that names a field by its place alone, with keys that a projection can
hold, has a shorthand, and a list of such requests is read back as it was. Of any text that is read
the keys are trimmed and not empty, and they hold no comma and no bar (`Command.readFields_exact`).
-/

namespace TableScan

open Text (IsTrimmed split splitFirst trim trimmed)

namespace Text

variable {separator : String} {parts : List String}

/-- Trimmed parts are trimmed text together, whatever stands between them. -/
theorem isTrimmed_intercalate (hne : parts ≠ [])
    (h : ∀ part ∈ parts, part.toList ≠ [] ∧ IsTrimmed part.toList) :
    (separator.intercalate parts).toList ≠ []
      ∧ IsTrimmed (separator.intercalate parts).toList := by
  induction parts with
  | nil => exact absurd rfl hne
  | cons part rest ih =>
    obtain ⟨⟨hpart, htrimmed⟩, hrest⟩ := List.forall_mem_cons.1 h
    cases rest with
    | nil =>
      rw [String.intercalate_singleton]
      exact ⟨hpart, htrimmed⟩
    | cons other rest =>
      -- the first part guards the front, the rest the back; a separator lies between them
      obtain ⟨hmore, hend⟩ := ih (List.cons_ne_nil _ _) hrest
      rw [String.intercalate_cons_cons, String.toList_append, String.toList_append]
      exact ⟨List.append_ne_nil_of_right_ne_nil _ hmore,
        htrimmed.around hpart hend hmore separator.toList⟩

theorem of_mem_intercalate {c : Char} (h : c ∈ (separator.intercalate parts).toList) :
    c ∈ separator.toList ∨ ∃ part ∈ parts, c ∈ part.toList := by
  induction parts with
  | nil => cases h
  | cons part rest ih =>
    cases rest with
    | nil =>
      rw [String.intercalate_singleton] at h
      exact .inr ⟨part, List.mem_cons_self, h⟩
    | cons other rest =>
      rw [String.intercalate_cons_cons, String.toList_append, String.toList_append] at h
      rcases List.mem_append.1 h with hfront | hmore
      · rcases List.mem_append.1 hfront with hpart | hseparator
        · exact .inr ⟨part, List.mem_cons_self, hpart⟩
        · exact .inl hseparator
      · rcases ih hmore with hseparator | ⟨found, hfound, hc⟩
        · exact .inl hseparator
        · exact .inr ⟨found, List.mem_cons_of_mem part hfound, hc⟩

end Text

namespace FieldRequest

/-- The shorthand of a request: its index in decimal digits and, where it has keys, a hash and the
keys between bars. -/
def shorthand (request : FieldRequest) : String :=
  if request.subfields.isEmpty then toString request.index
  else toString request.index ++ "#" ++ "|".intercalate request.subfields

/-- The shorthands of requests between commas. -/
def listed (requests : List FieldRequest) : String := ",".intercalate (requests.map shorthand)

/-- Holds of requests that a shorthand can spell: it has no place for a label. -/
structure IsTypeable (request : FieldRequest) : Prop where
  label : request.label = none
  index : request.index < 2 ^ 64
  keys : ∀ key ∈ request.subfields, Selector.isRenderableKey key = true

variable {request : FieldRequest} {requests : List FieldRequest}

/-! ## The index -/

theorem isDigit_toString {n : Nat} : ∀ c ∈ (toString n).toList, c.isDigit = true := by
  show ∀ c ∈ n.repr.toList, c.isDigit = true
  rw [Nat.toList_repr]
  exact Json.Syntax.isDigit_toDigits n

theorem toString_ne_nil (n : Nat) : (toString n).toList ≠ [] := by
  show n.repr.toList ≠ []
  rw [Nat.toList_repr]
  exact Nat.toDigits_ne_nil

/-- Digits are no white space, so an index has none at its ends. -/
theorem isBlank_toString {n : Nat} : ∀ c ∈ (toString n).toList, Text.isBlank c = false := by
  intro c hc
  apply Grammar.isBlank_of_isNamePart
  unfold Grammar.isNamePart Char.isAlphanum
  rw [isDigit_toString c hc, Bool.or_true, Bool.true_or]

theorem isTrimmed_toString (n : Nat) : IsTrimmed (toString n).toList :=
  ⟨fun c hc => isBlank_toString c (List.mem_of_head? hc),
    fun c hc => isBlank_toString c (List.mem_of_getLast? hc)⟩

theorem not_mem_toString {n : Nat} {c : Char} (h : c.isDigit = false) :
    c ∉ (toString n).toList := by
  intro hc
  rw [isDigit_toString c hc] at h
  cases h

theorem dropPlus_of_isDigit {cs : List Char} (h : ∀ c ∈ cs, c.isDigit = true) :
    dropPlus cs = cs := by
  unfold dropPlus
  split
  · next r => exact absurd (h '+' List.mem_cons_self) (by decide)
  · rfl

/-- An index that fits a word is read from its digits. -/
theorem parseIndex?_toString {n : Nat} (h : n < 2 ^ 64) : parseIndex? (toString n) = some n := by
  have hdigits : dropPlus (toString n).toList = (toString n).toList :=
    dropPlus_of_isDigit isDigit_toString
  have hempty : (toString n).toList.isEmpty = false :=
    List.isEmpty_eq_false_iff.2 (toString_ne_nil n)
  have hall : (toString n).toList.all Char.isDigit = true := List.all_eq_true.2 isDigit_toString
  -- reading decimal digits undoes writing them
  have hvalue : Json.Syntax.natOfDigits ((toString n).toList.map fun c => c.toNat - 48) = n := by
    show Json.Syntax.natOfDigits (n.repr.toList.map Json.Syntax.digitValue) = n
    rw [Nat.toList_repr, Json.Syntax.natOfDigits_toDigits]
  unfold parseIndex?
  simp only [hdigits, hempty, hall, hvalue]
  exact if_pos h

/-! ## One shorthand -/

theorem isTrimmed_key {key : String} (h : Selector.isRenderableKey key = true) :
    key.toList ≠ [] ∧ IsTrimmed key.toList := by
  obtain ⟨hne, htrim, -⟩ := Selector.isRenderableKey_iff.1 h
  exact ⟨hne, Text.trim_eq_self_iff.1 htrim⟩

theorem not_mem_key {key : String} (h : Selector.isRenderableKey key = true) {c : Char}
    (hc : Selector.isReserved c = true) : c ∉ key.toList := by
  intro hmem
  rw [(Selector.isRenderableKey_iff.1 h).2.2 c hmem] at hc
  cases hc

theorem trimmed_eq_self {s : String} (h : IsTrimmed s.toList) : trimmed s = s := by
  rw [trimmed, Text.trim_eq_self_iff.2 h, String.ofList_toList]

/-- The keys of a request come back from the text between bars. -/
theorem keys_of_split (h : request.IsTypeable) (hne : request.subfields ≠ []) :
    (split '|' ("|".intercalate request.subfields)).map trimmed = request.subfields := by
  have hsplit : split '|' ("|".intercalate request.subfields) = request.subfields :=
    Text.split_intercalate hne fun key hkey => not_mem_key (h.keys key hkey) rfl
  have htrimmed : request.subfields.map trimmed = request.subfields.map id :=
    List.map_congr_left fun key hkey => trimmed_eq_self (isTrimmed_key (h.keys key hkey)).2
  rw [hsplit, htrimmed, List.map_id]

/-- A request that can be typed is read from its shorthand. -/
theorem parseShorthand?_shorthand (h : request.IsTypeable) :
    parseShorthand? request.shorthand = some request := by
  obtain ⟨index, label, subfields⟩ := request
  obtain rfl : label = none := h.label
  have hindex : parseIndex? (trimmed (toString index)) = some index := by
    rw [trimmed_eq_self (isTrimmed_toString _), parseIndex?_toString h.index]
  -- digits alone stand in front of the hash, so the first hash is the one written
  have hhash : '#' ∉ (toString index).toList := not_mem_toString rfl
  unfold parseShorthand? shorthand
  -- without keys no hash is written
  by_cases hkeys : subfields = []
  · subst hkeys
    simp only [List.isEmpty_nil, if_true, Text.splitFirst_of_not_mem hhash, hindex]
    rfl
  · have hcut : splitFirst '#' (toString index ++ "#" ++ "|".intercalate subfields)
        = (toString index, some ("|".intercalate subfields)) := Text.splitFirst_append hhash _
    -- an empty key would be refused; one that can be rendered is not empty
    have hsome : ¬ subfields.any String.isEmpty = true := by
      rw [Bool.not_eq_true, List.any_eq_false]
      intro key hkey
      rw [String.isEmpty_iff]
      rintro rfl
      exact (isTrimmed_key (h.keys _ hkey)).1 rfl
    simp only [List.isEmpty_eq_false_iff.2 hkeys, Bool.false_eq_true, if_false, hcut, hindex]
    show (if ((split '|' ("|".intercalate subfields)).map trimmed).any String.isEmpty = true then
      none else some (ofIndex index ((split '|' ("|".intercalate subfields)).map trimmed))) = _
    rw [keys_of_split h hkeys, if_neg hsome]
    rfl

/-- A shorthand is one part of a list: it is trimmed, not empty and has no comma in it. -/
theorem isPart_shorthand (h : request.IsTypeable) :
    request.shorthand.toList ≠ [] ∧ IsTrimmed request.shorthand.toList
      ∧ ',' ∉ request.shorthand.toList := by
  unfold shorthand
  split
  · exact ⟨toString_ne_nil _, isTrimmed_toString _, not_mem_toString rfl⟩
  · next hkeys =>
    have hne : request.subfields ≠ [] := by simpa using hkeys
    obtain ⟨hjoined, htrimmed⟩ : ("|".intercalate request.subfields).toList ≠ []
        ∧ IsTrimmed ("|".intercalate request.subfields).toList :=
      Text.isTrimmed_intercalate hne fun key hkey => isTrimmed_key (h.keys key hkey)
    rw [String.toList_append, String.toList_append]
    refine ⟨List.append_ne_nil_of_right_ne_nil _ hjoined, ?_, ?_⟩
    · exact (isTrimmed_toString _).around (toString_ne_nil _) htrimmed hjoined _
    · intro hcomma
      rcases List.mem_append.1 hcomma with hfront | hback
      · rcases List.mem_append.1 hfront with hindex | hhash
        · exact not_mem_toString rfl hindex
        · exact absurd hhash (by decide)
      -- a comma behind the hash would be a bar or stand in a key
      · rcases Text.of_mem_intercalate hback with hbar | ⟨key, hkey, hmem⟩
        · exact absurd hbar (by decide)
        · exact not_mem_key (h.keys key hkey) rfl hmem

theorem not_mem_trimmed {s : String} {c : Char} (h : c ∉ s.toList) : c ∉ (trimmed s).toList := by
  rw [trimmed, String.toList_ofList]
  exact fun hc => h ((Text.trim_sublist s.toList).mem hc)

/-- The keys of a request that was read: trimmed, not empty, and made of what stands between the
bars. -/
theorem of_parseShorthand? {part : String} (h : parseShorthand? part = some request)
    (hcomma : ',' ∉ part.toList) :
    ∀ key ∈ request.subfields, key ≠ "" ∧ trimmed key = key ∧ ',' ∉ key.toList
      ∧ '|' ∉ key.toList := by
  unfold parseShorthand? at h
  rcases hcut : splitFirst '#' part with ⟨front, keys⟩
  rw [hcut] at h
  obtain ⟨index, -, h⟩ := Option.bind_eq_some_iff.1 h
  cases keys with
  | none =>
    obtain rfl := Option.some.inj h
    exact List.forall_mem_nil _
  | some keys =>
    simp only at h
    split at h
    · cases h
    · next hempty =>
      obtain rfl := Option.some.inj h
      intro key hkey
      have hne : key ≠ "" := by
        rintro rfl
        exact hempty (List.any_eq_true.2 ⟨_, hkey, rfl⟩)
      obtain ⟨own, hown, rfl⟩ := List.mem_map.1 hkey
      -- keys are cut from the part, and it has no comma
      have hfree : ',' ∉ own.toList := fun hc =>
        hcomma ((Text.sublist_of_splitFirst hcut).mem ((Text.sublist_of_mem_split hown).mem hc))
      refine ⟨hne, ?_, not_mem_trimmed hfree, not_mem_trimmed (Text.not_mem_of_mem_split hown)⟩
      rw [trimmed, trimmed, String.toList_ofList, Text.trim_trim]

end FieldRequest

namespace Command

open FieldRequest

/-- The parts of a list that are read as requests. -/
def partsOf (text : String) : List String :=
  ((split ',' text).map trimmed).filter (!·.isEmpty)

/-- The parts of a list of shorthands are the shorthands. -/
theorem partsOf_listed {requests : List FieldRequest} (h : ∀ r ∈ requests, r.IsTypeable) :
    partsOf (listed requests) = requests.map shorthand := by
  by_cases hne : requests = []
  · subst hne
    decide
  -- what makes a shorthand one part: no comma splits it, trimming keeps it, and it is not dropped
  · have hparts : ∀ part ∈ requests.map shorthand,
        part.toList ≠ [] ∧ IsTrimmed part.toList ∧ ',' ∉ part.toList := by
      intro part hpart
      obtain ⟨request, hrequest, rfl⟩ := List.mem_map.1 hpart
      exact isPart_shorthand (h request hrequest)
    have hsplit : split ',' (listed requests) = requests.map shorthand :=
      Text.split_intercalate (mt List.map_eq_nil_iff.1 hne) fun part hpart =>
        (hparts part hpart).2.2
    have htrimmed : (requests.map shorthand).map trimmed = (requests.map shorthand).map id :=
      List.map_congr_left fun part hpart => trimmed_eq_self (hparts part hpart).2.1
    rw [partsOf, hsplit, htrimmed, List.map_id, List.filter_eq_self]
    intro part hpart
    rw [Bool.not_eq_true', String.isEmpty_eq_false_iff]
    rintro rfl
    exact (hparts _ hpart).1 rfl

/-- Requests that can be typed are read from their list. -/
theorem readFields_listed {requests : List FieldRequest} (h : ∀ r ∈ requests, r.IsTypeable) :
    readFields (listed requests) = .ok requests := by
  have hparts := partsOf_listed h
  unfold partsOf at hparts
  have hread : List.Forall₂ (fun request part => parseShorthand? part = some request) requests
      (requests.map shorthand) :=
    List.forall₂_map_right_iff.2 <| List.forall₂_same.2 fun r hr =>
      parseShorthand?_shorthand (h r hr)
  unfold readFields
  simp only [hparts]
  refine Results.mapM_eq_ok_iff.2 (hread.flip.imp fun part request hsome => ?_)
  simp only [hsome]

/-- What is read of a text is read of one of its parts, and no part has a comma in it. -/
theorem exists_part_of_readFields {text : String} {requests : List FieldRequest}
    (h : readFields text = .ok requests) {r : FieldRequest} (hr : r ∈ requests) :
    ∃ part : String, ',' ∉ part.toList ∧ parseShorthand? part = some r := by
  obtain ⟨part, hpart, hread⟩ := Results.exists_mem_of_forall₂ (Results.mapM_eq_ok_iff.1 h) hr
  obtain ⟨own, hown, rfl⟩ := List.mem_map.1 (List.mem_of_mem_filter hpart)
  refine ⟨trimmed own, not_mem_trimmed (Text.not_mem_of_mem_split hown), ?_⟩
  -- only a part with a request makes no error
  revert hread
  cases parseShorthand? (trimmed own) with
  | none => exact fun hread => nomatch hread
  | some found => exact fun hread => congrArg some (Except.ok.inj hread)

/-- Typed lists of fields. Requests that can be typed are read back from the shorthands between
commas; and whatever a text is read as, its keys are not empty and trimmed, and hold no comma and no
bar. -/
theorem readFields_exact :
    (∀ requests : List FieldRequest,
        (∀ r ∈ requests, r.label = none ∧ r.index < 2 ^ 64
          ∧ ∀ key ∈ r.subfields, Selector.isRenderableKey key = true) →
        readFields (listed requests) = .ok requests)
      ∧ ∀ (text : String) (requests : List FieldRequest), readFields text = .ok requests →
          ∀ r ∈ requests, ∀ key ∈ r.subfields,
            key ≠ "" ∧ trimmed key = key ∧ ',' ∉ key.toList ∧ '|' ∉ key.toList := by
  constructor
  · intro requests h
    exact readFields_listed fun r hr => ⟨(h r hr).1, (h r hr).2.1, (h r hr).2.2⟩
  · intro text requests h r hr
    obtain ⟨part, hcomma, hread⟩ := exists_part_of_readFields h hr
    exact of_parseShorthand? hread hcomma

/-- The largest index, and keys of several scripts with blanks inside. -/
theorem readFields_exact_unicode :
    readFields (listed [⟨18446744073709551615, none, ["ключ один", "x\u3000é"]⟩, ⟨0, none, []⟩])
        = .ok [⟨18446744073709551615, none, ["ключ один", "x\u3000é"]⟩, ⟨0, none, []⟩]
      ∧ ∀ r ∈ [(⟨18446744073709551615, none, ["ключ один", "x\u3000é"]⟩ : FieldRequest),
          ⟨0, none, []⟩], ∀ key ∈ r.subfields,
            key ≠ "" ∧ trimmed key = key ∧ ',' ∉ key.toList ∧ '|' ∉ key.toList := by
  have hread := readFields_exact.1
    [⟨18446744073709551615, none, ["ключ один", "x\u3000é"]⟩, ⟨0, none, []⟩] (by decide)
  exact ⟨hread, readFields_exact.2 _ _ hread⟩

end Command

end TableScan
