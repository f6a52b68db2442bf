import Mathlib.Data.List.TakeWhile
import TableScan.Projection.Selector
import TableScan.Proofs.Schema.Scanners

/-!
# The sentences of the projection grammar

Projection text over its characters: selectors between commas, each one a name, alone or with keys
between bars in braces behind a `#`. White space is free around names and symbols. Between braces
there are no tokens: a key is whatever stands between two reserved characters, and what is wanted is
what trimming leaves of it.

Main statement: a text is read as selectors just when it is a sentence that stands for them
(`parseAll_eq_ok_iff`). What the scanners read spells what they give, and they read what is spelled,
up to what stands behind it.
-/

namespace TableScan.Selector

open Text (Scan trimStart trim isBlank)

/-! ## The grammar -/

/-- White space, or nothing. -/
def IsSpace (cs : List Char) : Prop := ∀ c ∈ cs, isBlank c = true

/-- The characters of a key, with the white space around it. -/
structure SpellsKey (raw : List Char) (key : String) : Prop where
  free : ∀ c ∈ raw, isReserved c = false
  nonempty : trim raw ≠ []
  trimmed : key = String.ofList (trim raw)

/-- What stands between the braces of a selector. -/
inductive SpellsKeys : List Char → List String → Prop where
  | last {raw : List Char} {key : String} (hkey : SpellsKey raw key) : SpellsKeys raw [key]
  | more {raw behind : List Char} {key : String} {keys : List String} (hkey : SpellsKey raw key)
      (hkeys : SpellsKeys behind keys) : SpellsKeys (raw ++ '|' :: behind) (key :: keys)

/-- A selector with the white space around it. -/
inductive SpellsSelector : List Char → Selector → Prop where
  | whole {front behind : List Char} {name : String} (hfront : IsSpace front)
      (hname : Grammar.isName name.toList = true) (hbehind : IsSpace behind) :
      SpellsSelector (front ++ (name.toList ++ behind)) (column name)
  | narrowed {front hash brace inner behind : List Char} {name : String} {keys : List String}
      (hfront : IsSpace front) (hname : Grammar.isName name.toList = true) (hhash : IsSpace hash)
      (hbrace : IsSpace brace) (hkeys : SpellsKeys inner keys) (hbehind : IsSpace behind) :
      SpellsSelector
        (front ++ (name.toList ++ (hash ++ '#' :: (brace ++ '\x7b' ::
          (inner ++ '\x7d' :: behind)))))
        ⟨name, keys⟩

/-- One or more selectors between commas. -/
inductive SpellsSelectors : List Char → List Selector → Prop where
  | last {cs : List Char} {s : Selector} (hs : SpellsSelector cs s) : SpellsSelectors cs [s]
  | more {cs behind : List Char} {s : Selector} {selectors : List Selector}
      (hs : SpellsSelector cs s) (hmore : SpellsSelectors behind selectors) :
      SpellsSelectors (cs ++ ',' :: behind) (s :: selectors)

/-- The text is a sentence of the grammar, and stands for the selectors. White space alone stands
for none. -/
inductive Denotes (text : String) : List Selector → Prop where
  | none (hspace : IsSpace text.toList) : Denotes text []
  | some {selectors : List Selector} (hspelled : SpellsSelectors text.toList selectors) :
      Denotes text selectors

variable {cs rest : List Char}

/-- What is spelled are some selectors. -/
theorem SpellsSelectors.ne_nil {selectors : List Selector} (h : SpellsSelectors cs selectors) :
    selectors ≠ [] := by
  cases h with
  | last => exact List.cons_ne_nil _ _
  | more => exact List.cons_ne_nil _ _

/-- White space, and nothing else, stands for no selectors. -/
theorem denotes_nil_iff {text : String} : Denotes text [] ↔ IsSpace text.toList := by
  constructor
  · intro h
    cases h with
    | none hspace => exact hspace
    | some hspelled => exact absurd rfl hspelled.ne_nil
  · exact .none

/-! ## White space -/

theorem isSpace_nil : IsSpace [] := fun _ hc => absurd hc List.not_mem_nil

/-- White space in front is skipped. -/
theorem trimStart_append_of_isSpace {front : List Char} (h : IsSpace front) (cs : List Char) :
    trimStart (front ++ cs) = trimStart cs :=
  List.dropWhile_append_of_pos h

/-- White space is what skipping leaves nothing of. -/
theorem trimStart_eq_nil_iff : trimStart cs = [] ↔ IsSpace cs :=
  List.dropWhile_eq_nil_iff

theorem IsSpace.append {front behind : List Char} (h : IsSpace front) (hbehind : IsSpace behind) :
    IsSpace (front ++ behind) := by
  intro c hc
  rcases List.mem_append.1 hc with hc | hc
  · exact h c hc
  · exact hbehind c hc

/-- White space ends a name, unless there is none and the rest goes on with the name. -/
theorem IsSpace.endsName_append {behind : List Char} (h : IsSpace behind)
    (hrest : Grammar.EndsName rest) : Grammar.EndsName (behind ++ rest) := by
  cases behind with
  | nil => exact hrest
  | cons c behind =>
    apply Grammar.endsName_cons
    rw [Bool.eq_false_iff]
    intro hpart
    have hblank := Grammar.isBlank_of_isNamePart hpart
    rw [h c List.mem_cons_self] at hblank
    cases hblank

/-! ## How the scanners read -/

/-- Holds of what may stand behind a key. -/
def EndsKey (rest : List Char) : Prop := ∀ c ∈ rest.head?, isReserved c = true

/-- A reserved character ends a key. -/
theorem endsKey_cons {c : Char} (h : isReserved c = true) (rest : List Char) :
    EndsKey (c :: rest) := by
  intro d hd
  obtain rfl : c = d := Option.some.inj hd
  exact h

/-- No reserved character is white space, so none is in front of what stands behind a key. -/
theorem EndsKey.trimStart_eq (h : EndsKey rest) : trimStart rest = rest := by
  cases rest with
  | nil => rfl
  | cons c rest =>
    apply Text.trimStart_cons_of_not_blank
    have hc : isReserved c = true := h c rfl
    simp only [isReserved, Bool.or_eq_true, beq_iff_eq] at hc
    rcases hc with (((rfl | rfl) | rfl) | rfl) | rfl <;> rfl

/-- A key is read as far as no reserved character stands in it. -/
theorem reads_scanKey_iff {key : String} :
    Reads (scanKey cs) key rest ↔ ∃ raw, cs = raw ++ rest ∧ SpellsKey raw key ∧ EndsKey rest := by
  constructor
  · rintro ⟨s, hs, rfl, rfl⟩
    unfold scanKey at hs
    simp only at hs
    split at hs
    · cases hs
    · next hne =>
      obtain rfl := Except.ok.inj hs
      -- the key and what stands around it is what comes in front of the first reserved character
      refine ⟨cs.takeWhile (!isReserved ·), List.takeWhile_append_dropWhile.symm,
        ⟨fun c hc => ?_, by simpa using hne, rfl⟩, fun c hc => ?_⟩
      · simpa using List.all_eq_true.1 (List.all_takeWhile (p := (!isReserved ·))) c hc
      · have hhead := List.head?_dropWhile_not (!isReserved ·) cs
        rw [Option.mem_def.1 hc] at hhead
        simpa using hhead
  · rintro ⟨raw, rfl, ⟨hfree, hne, rfl⟩, hends⟩
    have hraw : ∀ c ∈ raw, (!isReserved c) = true := fun c hc => by simp [hfree c hc]
    -- the scanner takes what is free of them, and stops at the one behind it
    have htake : (raw ++ rest).takeWhile (!isReserved ·) = raw := by
      rw [List.takeWhile_append_of_pos hraw]
      cases rest with
      | nil => exact List.append_nil raw
      | cons c rest => rw [List.takeWhile_cons_of_neg (by simp [hends c rfl]), List.append_nil]
    have hdrop : (raw ++ rest).dropWhile (!isReserved ·) = rest := by
      rw [List.dropWhile_append_of_pos hraw]
      cases rest with
      | nil => rfl
      | cons c rest => rw [List.dropWhile_cons_of_neg (by simp [hends c rfl])]
    unfold scanKey
    simp only [htake]
    rw [dif_neg (by simpa using hne)]
    exact ⟨_, rfl, rfl, hdrop⟩

/-- The ways in which keys are read: the last one, and one with more behind it. -/
inductive ReadsKeys (cs : List Char) : List String → List Char → Prop where
  | last {key : String} {r rest : List Char} (hkey : Reads (scanKey cs) key r)
      (hclose : trimStart r = '\x7d' :: rest) : ReadsKeys cs [key] rest
  | more {key : String} {keys : List String} {r inner rest : List Char}
      (hkey : Reads (scanKey cs) key r) (hbar : trimStart r = '|' :: inner)
      (hkeys : Reads (scanKeys inner) keys rest) : ReadsKeys cs (key :: keys) rest

/-- The scanner of keys reads in these ways and in no other. -/
theorem reads_scanKeys_iff {keys : List String} :
    Reads (scanKeys cs) keys rest ↔ ReadsKeys cs keys rest := by
  constructor
  · rintro ⟨s, hs, rfl, rfl⟩
    unfold scanKeys at hs
    split at hs
    · cases hs
    · next key hkey =>
      split at hs
      · next inner hbar =>
        split at hs
        · cases hs
        · next keys hkeys =>
          obtain rfl := Except.ok.inj hs
          exact .more (.of_eq_ok hkey) hbar (.of_eq_ok hkeys)
      · split at hs
        · cases hs
        · next close hclose =>
          obtain rfl := Except.ok.inj hs
          exact .last (.of_eq_ok hkey) (Grammar.reads_expect_iff.1 (.of_eq_ok hclose))
  · intro h
    unfold scanKeys
    cases h with
    | last hkey hclose =>
      obtain ⟨_, hkey⟩ := hkey.eq_ok
      obtain ⟨_, hexpect⟩ := (Grammar.reads_expect_iff.2 hclose).eq_ok
      rw [hkey]
      simp only
      split
      · next hbar => cases hclose.symm.trans hbar
      · rw [hexpect]
        exact ⟨_, rfl, rfl, rfl⟩
    | more hkey hbar hkeys =>
      obtain ⟨_, hkey⟩ := hkey.eq_ok
      obtain ⟨_, hkeys⟩ := hkeys.eq_ok
      rw [hkey]
      simp only
      split
      · next hinner =>
        obtain rfl := (List.cons.inj (hbar.symm.trans hinner)).2
        rw [hkeys]
        exact ⟨_, rfl, rfl, rfl⟩
      · next hnone => exact absurd hbar (hnone _)

/-- The ways in which a selector is read. -/
inductive ReadsSelector (cs : List Char) : Selector → List Char → Prop where
  | whole {name : String} {r : List Char} (hname : Reads (Grammar.scanName cs) name r)
      (hnone : ∀ inner, trimStart r ≠ '#' :: inner) :
      ReadsSelector cs (column name) (trimStart r)
  | narrowed {name : String} {keys : List String} {r opened inner rest : List Char}
      (hname : Reads (Grammar.scanName cs) name r) (hhash : trimStart r = '#' :: opened)
      (hopen : trimStart opened = '\x7b' :: inner) (hkeys : Reads (scanKeys inner) keys rest) :
      ReadsSelector cs ⟨name, keys⟩ rest

/-- The scanner of a selector reads in these ways and in no other. -/
theorem reads_scanSelector_iff {s : Selector} :
    Reads (scanSelector cs) s rest ↔ ReadsSelector cs s rest := by
  constructor
  · rintro ⟨s, hs, rfl, rfl⟩
    unfold scanSelector at hs
    split at hs
    · cases hs
    · next name hname =>
      split at hs
      · next opened hhash =>
        split at hs
        · cases hs
        · next inner hopen =>
          split at hs
          · cases hs
          · next keys hkeys =>
            obtain rfl := Except.ok.inj hs
            exact .narrowed (.of_eq_ok hname) hhash
              (Grammar.reads_expect_iff.1 (.of_eq_ok hopen)) (.of_eq_ok hkeys)
      · next hnone =>
        obtain rfl := Except.ok.inj hs
        exact .whole (.of_eq_ok hname) hnone
  · intro h
    unfold scanSelector
    cases h with
    | whole hname hnone =>
      obtain ⟨_, hname⟩ := hname.eq_ok
      rw [hname]
      simp only
      exact ⟨_, rfl, rfl, rfl⟩
    | narrowed hname hhash hopen hkeys =>
      obtain ⟨_, hname⟩ := hname.eq_ok
      obtain ⟨_, hopen⟩ := (Grammar.reads_expect_iff.2 hopen).eq_ok
      obtain ⟨_, hkeys⟩ := hkeys.eq_ok
      rw [hname]
      simp only
      split
      · next hopened =>
        obtain rfl := (List.cons.inj (hhash.symm.trans hopened)).2
        rw [hopen]
        simp only
        rw [hkeys]
        exact ⟨_, rfl, rfl, rfl⟩
      · next hnone => exact absurd hhash (hnone _)

/-- The ways in which selectors are read: the last one, and one with more behind it. -/
inductive ReadsSelectors (cs : List Char) : List Selector → List Char → Prop where
  | last {s : Selector} {r : List Char} (hs : Reads (scanSelector cs) s r)
      (hnone : ∀ behind, trimStart r ≠ ',' :: behind) : ReadsSelectors cs [s] (trimStart r)
  | more {s : Selector} {selectors : List Selector} {r behind rest : List Char}
      (hs : Reads (scanSelector cs) s r) (hcomma : trimStart r = ',' :: behind)
      (hmore : Reads (scanSelectors behind) selectors rest) :
      ReadsSelectors cs (s :: selectors) rest

/-- The scanner of selectors reads in these ways and in no other. -/
theorem reads_scanSelectors_iff {selectors : List Selector} :
    Reads (scanSelectors cs) selectors rest ↔ ReadsSelectors cs selectors rest := by
  constructor
  · rintro ⟨s, hs, rfl, rfl⟩
    unfold scanSelectors at hs
    split at hs
    · cases hs
    · next selector hselector =>
      split at hs
      · next behind hcomma =>
        split at hs
        · cases hs
        · next more hmore =>
          obtain rfl := Except.ok.inj hs
          exact .more (.of_eq_ok hselector) hcomma (.of_eq_ok hmore)
      · next hnone =>
        obtain rfl := Except.ok.inj hs
        exact .last (.of_eq_ok hselector) hnone
  · intro h
    unfold scanSelectors
    cases h with
    | last hs hnone =>
      obtain ⟨_, hs⟩ := hs.eq_ok
      rw [hs]
      simp only
      exact ⟨_, rfl, rfl, rfl⟩
    | more hs hcomma hmore =>
      obtain ⟨_, hs⟩ := hs.eq_ok
      obtain ⟨_, hmore⟩ := hmore.eq_ok
      rw [hs]
      simp only
      split
      · next hbehind =>
        obtain rfl := (List.cons.inj (hcomma.symm.trans hbehind)).2
        rw [hmore]
        exact ⟨_, rfl, rfl, rfl⟩
      · next hnone => exact absurd hcomma (hnone _)

/-! ## What was read is a sentence -/

/-- Keys that were read are spelled in front of a closing brace. -/
theorem exists_spellsKeys_of_reads {cs rest : List Char} {keys : List String}
    (h : Reads (scanKeys cs) keys rest) :
    ∃ inner, cs = inner ++ '\x7d' :: rest ∧ SpellsKeys inner keys := by
  cases reads_scanKeys_iff.1 h with
  | last hkey hclose =>
    obtain ⟨raw, rfl, hspells, hends⟩ := reads_scanKey_iff.1 hkey
    rw [hends.trimStart_eq] at hclose
    exact ⟨raw, by rw [hclose], .last hspells⟩
  | @more key keys r inner rest hkey hbar hkeys =>
    have hlt := Nat.lt_trans (Text.length_lt_of_trimStart_cons hbar) hkey.length_lt
    obtain ⟨raw, rfl, hspells, hends⟩ := reads_scanKey_iff.1 hkey
    rw [hends.trimStart_eq] at hbar
    obtain ⟨behind, rfl, hbehind⟩ := exists_spellsKeys_of_reads hkeys
    exact ⟨raw ++ '|' :: behind, by rw [hbar]; simp, .more hspells hbehind⟩
termination_by cs.length

/-- What a selector was read from spells it. -/
theorem exists_spellsSelector_of_reads {s : Selector} (h : Reads (scanSelector cs) s rest) :
    ∃ front, cs = front ++ rest ∧ SpellsSelector front s := by
  -- the white space that the scanners skip is named, to be put back into the spelling
  obtain ⟨space, hspace, hcs⟩ := Text.exists_trimStart cs
  cases reads_scanSelector_iff.1 h with
  | @whole name r hname hnone =>
    obtain ⟨htrim, hisName, -⟩ := Grammar.reads_scanName_iff.1 hname
    obtain ⟨behind, hbehind, hr⟩ := Text.exists_trimStart r
    refine ⟨space ++ (name.toList ++ behind), ?_, .whole hspace hisName hbehind⟩
    calc cs = space ++ (name.toList ++ r) := by rw [← htrim, ← hcs]
      _ = space ++ (name.toList ++ behind) ++ trimStart r := by
        conv_lhs => rw [hr]
        simp
  | @narrowed name keys r opened inner rest hname hhash hopen hkeys =>
    obtain ⟨htrim, hisName, -⟩ := Grammar.reads_scanName_iff.1 hname
    obtain ⟨hash, hhashSpace, hr⟩ := Text.exists_trimStart r
    obtain ⟨brace, hbraceSpace, hopened⟩ := Text.exists_trimStart opened
    obtain ⟨own, rfl, hspells⟩ := exists_spellsKeys_of_reads hkeys
    rw [hhash] at hr
    rw [hopen] at hopened
    refine ⟨_, ?_, .narrowed hspace hisName hhashSpace hbraceSpace hspells isSpace_nil⟩
    calc cs = space ++ (name.toList ++ r) := by rw [← htrim, ← hcs]
      _ = _ := by simp [hr, hopened]

/-- White space behind a selector may be taken as its own. -/
theorem SpellsSelector.append_space {s : Selector} (h : SpellsSelector cs s) {space : List Char}
    (hspace : IsSpace space) : SpellsSelector (cs ++ space) s := by
  cases h with
  | whole hfront hname hbehind =>
    have hwhole := SpellsSelector.whole hfront hname (hbehind.append hspace)
    simpa using hwhole
  | narrowed hfront hname hhash hbrace hkeys hbehind =>
    have hnarrowed := SpellsSelector.narrowed hfront hname hhash hbrace hkeys
      (hbehind.append hspace)
    simpa using hnarrowed

theorem SpellsSelectors.append_space {selectors : List Selector} (h : SpellsSelectors cs selectors)
    {space : List Char} (hspace : IsSpace space) : SpellsSelectors (cs ++ space) selectors := by
  induction h with
  | last hs => exact .last (hs.append_space hspace)
  | more hs _ ih =>
    rw [List.append_assoc, List.cons_append]
    exact .more hs ih

theorem exists_spellsSelectors_of_reads {cs rest : List Char} {selectors : List Selector}
    (h : Reads (scanSelectors cs) selectors rest) :
    ∃ front, cs = front ++ rest ∧ SpellsSelectors front selectors := by
  cases reads_scanSelectors_iff.1 h with
  | @last s r hs hnone =>
    obtain ⟨front, rfl, hspells⟩ := exists_spellsSelector_of_reads hs
    obtain ⟨space, hspace, hr⟩ := Text.exists_trimStart r
    refine ⟨front ++ space, ?_, .last (hspells.append_space hspace)⟩
    rw [List.append_assoc, ← hr]
  | @more s selectors r behind rest hs hcomma hmore =>
    have hlt := Nat.lt_trans (Text.length_lt_of_trimStart_cons hcomma) hs.length_lt
    obtain ⟨front, rfl, hspells⟩ := exists_spellsSelector_of_reads hs
    obtain ⟨space, hspace, hr⟩ := Text.exists_trimStart r
    obtain ⟨others, rfl, hothers⟩ := exists_spellsSelectors_of_reads hmore
    refine ⟨(front ++ space) ++ ',' :: others, ?_, .more (hspells.append_space hspace) hothers⟩
    rw [hr, hcomma]
    simp
termination_by cs.length

/-! ## Sentences are read -/

/-- Spelled keys are read up to the closing brace. -/
theorem SpellsKeys.reads {inner : List Char} {keys : List String} (h : SpellsKeys inner keys)
    (rest : List Char) : Reads (scanKeys (inner ++ '\x7d' :: rest)) keys rest := by
  induction h with
  | @last raw key hkey =>
    have hends : EndsKey ('\x7d' :: rest) := endsKey_cons rfl rest
    exact reads_scanKeys_iff.2
      (.last (reads_scanKey_iff.2 ⟨raw, rfl, hkey, hends⟩) hends.trimStart_eq)
  | @more raw behind key keys hkey _ ih =>
    have hends : EndsKey ('|' :: (behind ++ '\x7d' :: rest)) := endsKey_cons rfl _
    have hread : Reads (scanKey (raw ++ '|' :: (behind ++ '\x7d' :: rest))) key
        ('|' :: (behind ++ '\x7d' :: rest)) := reads_scanKey_iff.2 ⟨raw, rfl, hkey, hends⟩
    rw [List.append_assoc, List.cons_append]
    exact reads_scanKeys_iff.2 (.more hread hends.trimStart_eq ih)

/-- What stands behind a spelled selector: nothing, or the comma before the next one. -/
def EndsSpelling (rest : List Char) : Prop := ∀ c ∈ rest.head?, c = ','

/-- No white space is in front of it. -/
theorem EndsSpelling.trimStart_eq (h : EndsSpelling rest) : trimStart rest = rest := by
  cases rest with
  | nil => rfl
  | cons c rest =>
    obtain rfl := h c rfl
    exact Text.trimStart_cons_of_not_blank rfl rest

/-- No name goes on there. -/
theorem EndsSpelling.endsName (h : EndsSpelling rest) : Grammar.EndsName rest := by
  intro c hc
  obtain rfl := h c hc
  rfl

/-- A selector is read up to what stands behind it, white space aside. -/
theorem SpellsSelector.reads {s : Selector} (h : SpellsSelector cs s) (hrest : EndsSpelling rest) :
    ∃ r, Reads (scanSelector (cs ++ rest)) s r ∧ trimStart r = rest := by
  cases h with
  | @whole front behind name hfront hname hbehind =>
    have htrim : trimStart (front ++ (name.toList ++ behind) ++ rest)
        = name.toList ++ (behind ++ rest) := by
      rw [List.append_assoc, trimStart_append_of_isSpace hfront, List.append_assoc]
      exact Grammar.trimStart_of_isName hname _
    have hread := Grammar.reads_scanName_iff.2
      ⟨htrim, hname, hbehind.endsName_append hrest.endsName⟩
    -- no `#` comes behind the name, so there are no keys
    have hend : trimStart (behind ++ rest) = rest := by
      rw [trimStart_append_of_isSpace hbehind, hrest.trimStart_eq]
    refine ⟨trimStart (behind ++ rest), reads_scanSelector_iff.2 (.whole hread fun inner => ?_), ?_⟩
    · rw [hend]
      rintro rfl
      cases hrest '#' rfl
    · rw [hend, hrest.trimStart_eq]
  | @narrowed front hash brace inner behind name keys hfront hname hhash hbrace hkeys hbehind =>
    have htrim : trimStart (front ++ (name.toList ++ (hash ++ '#' ::
          (brace ++ '\x7b' :: (inner ++ '\x7d' :: behind)))) ++ rest)
        = name.toList ++ (hash ++ '#' ::
          (brace ++ '\x7b' :: (inner ++ '\x7d' :: (behind ++ rest)))) := by
      rw [List.append_assoc, trimStart_append_of_isSpace hfront]
      simpa using Grammar.trimStart_of_isName hname _
    have hread := Grammar.reads_scanName_iff.2
      ⟨htrim, hname, hhash.endsName_append (Grammar.endsName_cons rfl _)⟩
    -- the scanner skips the white space in front of either symbol
    have hopened : trimStart (hash ++ '#' ::
          (brace ++ '\x7b' :: (inner ++ '\x7d' :: (behind ++ rest))))
        = '#' :: (brace ++ '\x7b' :: (inner ++ '\x7d' :: (behind ++ rest))) := by
      rw [trimStart_append_of_isSpace hhash]
      exact Text.trimStart_cons_of_not_blank rfl _
    have hinner : trimStart (brace ++ '\x7b' :: (inner ++ '\x7d' :: (behind ++ rest)))
        = '\x7b' :: (inner ++ '\x7d' :: (behind ++ rest)) := by
      rw [trimStart_append_of_isSpace hbrace]
      exact Text.trimStart_cons_of_not_blank rfl _
    refine ⟨behind ++ rest, reads_scanSelector_iff.2
      (.narrowed hread hopened hinner (hkeys.reads (behind ++ rest))), ?_⟩
    rw [trimStart_append_of_isSpace hbehind, hrest.trimStart_eq]

/-- Spelled selectors are read to the end of the text. -/
theorem SpellsSelectors.reads {selectors : List Selector} (h : SpellsSelectors cs selectors) :
    Reads (scanSelectors cs) selectors [] := by
  induction h with
  | @last cs s hs =>
    have hends : EndsSpelling [] := fun _ hc => by cases hc
    obtain ⟨r, hread, hr⟩ := hs.reads hends
    rw [List.append_nil] at hread
    have hlast := ReadsSelectors.last hread fun behind hcomma => by cases hr.symm.trans hcomma
    rw [hr] at hlast
    exact reads_scanSelectors_iff.2 hlast
  | @more cs behind s selectors hs _ ih =>
    have hends : EndsSpelling (',' :: behind) := fun c hc => (Option.some.inj hc).symm
    obtain ⟨r, hread, hr⟩ := hs.reads hends
    exact reads_scanSelectors_iff.2 (.more hread hr ih)

/-! ## Whole texts -/

/-- The scanner of selectors has read a name first. -/
theorem exists_scanName_of_reads {selectors : List Selector}
    (h : Reads (scanSelectors cs) selectors rest) :
    ∃ name r, Reads (Grammar.scanName cs) name r := by
  have hfirst : ∃ s r, Reads (scanSelector cs) s r := by
    cases reads_scanSelectors_iff.1 h with
    | last hs => exact ⟨_, _, hs⟩
    | more hs => exact ⟨_, _, hs⟩
  obtain ⟨s, r, hs⟩ := hfirst
  cases reads_scanSelector_iff.1 hs with
  | whole hname => exact ⟨_, _, hname⟩
  | narrowed hname => exact ⟨_, _, hname⟩

/-- Selectors start with a name, so a text that spells some is not blank. -/
theorem SpellsSelectors.trimStart_ne_nil {selectors : List Selector}
    (h : SpellsSelectors cs selectors) : trimStart cs ≠ [] := by
  obtain ⟨name, r, hname⟩ := exists_scanName_of_reads h.reads
  obtain ⟨c, t, htrim, -⟩ := Grammar.exists_head_of_reads hname
  rw [htrim]
  exact List.cons_ne_nil c t

/-- A whole text is scanned just when it is a sentence. -/
theorem scanAll_eq_ok_iff {text : String} {selectors : List Selector} :
    scanAll text.toList = .ok selectors ↔ Denotes text selectors := by
  constructor
  · intro h
    unfold scanAll at h
    split at h
    · next hnil =>
      obtain rfl := Except.ok.inj h
      exact .none (trimStart_eq_nil_iff.1 hnil)
    · split at h
      · cases h
      · next scanned hscan =>
        split at h
        · next hend =>
          obtain rfl := Except.ok.inj h
          obtain ⟨front, htext, hspells⟩ := exists_spellsSelectors_of_reads (.of_eq_ok hscan)
          -- white space at the end belongs to the last selector
          have hwhole := hspells.append_space (trimStart_eq_nil_iff.1 hend)
          rw [← htext] at hwhole
          exact .some hwhole
        · cases h
  · intro h
    unfold scanAll
    cases h with
    | none hspace => rw [trimStart_eq_nil_iff.2 hspace]
    | some hspelled =>
      obtain ⟨_, hscan⟩ := hspelled.reads.eq_ok
      split
      · next hnil => exact absurd hnil hspelled.trimStart_ne_nil
      · rw [hscan]
        rfl

/-- A text is read as selectors just when it is a sentence that stands for them. -/
theorem parseAll_eq_ok_iff {text : String} {selectors : List Selector} :
    parseAll text = .ok selectors ↔ Denotes text selectors := by
  rw [← scanAll_eq_ok_iff]
  unfold parseAll
  cases scanAll text.toList with
  | ok own => simp
  | error stuck => simp

/-- A text that is not read is a failure of parsing. -/
theorem group_of_parseAll_eq_error {text : String} {e : LoadError} (h : parseAll text = .error e) :
    e.group = .parse := by
  unfold parseAll at h
  split at h
  · cases h
  · obtain rfl := Except.error.inj h
    rfl

end TableScan.Selector
