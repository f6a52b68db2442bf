import TableScan.Proofs.Projection.Sentences

/-!
# Written projections read back

Selectors with names of the grammar and keys that can be written (`Selector.isWritable`) are read
back from their text as they were. What is written is a sentence of the grammar that stands for
them, with a space on either side of a comma and no other white space.

Main statement: `Selector.parseAll_renderAll`.
-/

namespace TableScan

open Text (trimStart)

namespace Selector

/-- Whether a selector can be written: its name is one, and its keys can be written. -/
def isWritable (s : Selector) : Bool :=
  Grammar.isName s.name.toList && s.subfields.all isRenderableKey

/-- What can be written, by name and keys. -/
theorem isWritable_iff {s : Selector} :
    s.isWritable = true ↔
      Grammar.isName s.name.toList = true ∧ ∀ key ∈ s.subfields, isRenderableKey key = true := by
  rw [isWritable, Bool.and_eq_true_iff, List.all_eq_true]

/-! ## Keys -/

/-- A key can be written if it is trimmed, not empty and free of reserved characters. -/
theorem isRenderableKey_iff {key : String} :
    isRenderableKey key = true ↔
      key.toList ≠ [] ∧ Text.trim key.toList = key.toList
        ∧ ∀ c ∈ key.toList, isReserved c = false := by
  unfold isRenderableKey
  simp [and_assoc]

/-- A key that can be written stands for itself. -/
theorem spellsKey_of_isRenderableKey {key : String} (h : isRenderableKey key = true) :
    SpellsKey key.toList key := by
  obtain ⟨hne, htrim, hfree⟩ := isRenderableKey_iff.1 h
  constructor
  case free => exact hfree
  case nonempty => rwa [htrim]
  case trimmed => rw [htrim, String.ofList_toList]

/-- The keys between the braces of a written selector. -/
def keyChars (keys : List String) : List Char := ['|'].intercalate (keys.map String.toList)

/-- Written keys spell themselves. -/
theorem spellsKeys_keyChars {key : String} {keys : List String}
    (h : ∀ k ∈ key :: keys, isRenderableKey k = true) :
    SpellsKeys (keyChars (key :: keys)) (key :: keys) := by
  have hkey := spellsKey_of_isRenderableKey (h key List.mem_cons_self)
  induction keys generalizing key with
  | nil =>
    have hchars : keyChars [key] = key.toList := List.intercalate_singleton
    rw [hchars]
    exact .last hkey
  | cons next keys ih =>
    -- a bar stands between the first key and the others
    have hchars : keyChars (key :: next :: keys)
        = key.toList ++ '|' :: keyChars (next :: keys) := by
      simp [keyChars, List.intercalate_cons_cons]
    have hnext := spellsKey_of_isRenderableKey (h next (by simp))
    rw [hchars]
    exact .more hkey (ih (fun k hk => h k (List.mem_cons_of_mem _ hk)) hnext)

/-! ## Selectors -/

/-- A written selector spells itself, with any white space around it. -/
theorem spellsSelector_chars {s : Selector} (hs : s.isWritable = true) {front behind : List Char}
    (hfront : IsSpace front) (hbehind : IsSpace behind) :
    SpellsSelector (front ++ (s.chars ++ behind)) s := by
  obtain ⟨name, keys⟩ := s
  obtain ⟨hname, hkeys⟩ := isWritable_iff.1 hs
  cases keys with
  | nil =>
    have hchars : chars ⟨name, []⟩ = name.toList := List.append_nil name.toList
    rw [hchars]
    exact .whole hfront hname hbehind
  | cons key keys =>
    -- nothing stands between the name, the symbols and the keys
    have hchars : chars ⟨name, key :: keys⟩ ++ behind
        = name.toList ++ ([] ++ '#' :: ([] ++ '\x7b' ::
          (keyChars (key :: keys) ++ '\x7d' :: behind))) := by
      simp [chars, keyChars]
    rw [hchars]
    exact .narrowed hfront hname isSpace_nil isSpace_nil (spellsKeys_keyChars hkeys) hbehind

/-- The characters of written selectors. -/
def allChars (selectors : List Selector) : List Char :=
  [' ', ',', ' '].intercalate (selectors.map chars)

/-- The space in front of a comma belongs to the selector there, and the one behind it to the next
one, which is why the induction is about a text with white space in front. -/
theorem spellsSelectors_allChars {s : Selector} {selectors : List Selector}
    (h : ∀ t ∈ s :: selectors, t.isWritable = true) {front : List Char} (hfront : IsSpace front) :
    SpellsSelectors (front ++ allChars (s :: selectors)) (s :: selectors) := by
  have hs := h s List.mem_cons_self
  induction selectors generalizing s front with
  | nil =>
    have hchars : allChars [s] = s.chars ++ [] := by simp [allChars]
    rw [hchars]
    exact .last (spellsSelector_chars hs hfront isSpace_nil)
  | cons next selectors ih =>
    have hspace : IsSpace [' '] := by simp [IsSpace, Text.isBlank]
    have hchars : front ++ allChars (s :: next :: selectors)
        = (front ++ (s.chars ++ [' '])) ++ ',' :: ([' '] ++ allChars (next :: selectors)) := by
      simp [allChars, List.intercalate_cons_cons]
    rw [hchars]
    apply SpellsSelectors.more (spellsSelector_chars hs hfront hspace)
    exact ih (fun t ht => h t (List.mem_cons_of_mem _ ht)) hspace (h next (by simp))

/-! ## Whole texts -/

theorem toList_renderAll (selectors : List Selector) :
    (renderAll selectors).toList = allChars selectors :=
  String.toList_ofList

/-- Written selectors are a sentence that stands for them. -/
theorem denotes_renderAll {selectors : List Selector}
    (h : ∀ s ∈ selectors, s.isWritable = true) : Denotes (renderAll selectors) selectors := by
  cases selectors with
  | nil => exact .none isSpace_nil
  | cons s selectors =>
    apply Denotes.some
    rw [toList_renderAll]
    exact spellsSelectors_allChars h isSpace_nil

/-- Selectors that can be written are read back from their text. -/
theorem parseAll_renderAll {selectors : List Selector}
    (h : ∀ s ∈ selectors, s.isWritable = true) :
    parseAll (renderAll selectors) = .ok selectors :=
  parseAll_eq_ok_iff.2 (denotes_renderAll h)

/-- Selectors that can be written have text of their own, which the empty text is not. -/
theorem renderAll_isEmpty {selectors : List Selector} (hne : selectors ≠ [])
    (h : ∀ s ∈ selectors, s.isWritable = true) : (renderAll selectors).isEmpty = false := by
  rw [Bool.eq_false_iff]
  intro hempty
  have hback := parseAll_renderAll h
  rw [String.isEmpty_iff.1 hempty] at hback
  -- the empty text stands for no selectors at all
  have hnone : parseAll "" = .ok [] := rfl
  exact hne (Except.ok.inj (hback.symm.trans hnone))

end Selector

end TableScan
