import TableScan.Proofs.Projection.Text

/-!
# Which selectors survive being written

Projection text has no escapes, so any string can be put into it, but only some come back. What a
sentence of the grammar stands for can always be written: its names are names, and keys are trimmed
and have no reserved character in them. Selectors that cannot be written are therefore not what
their own text is read as, whatever else it is read as.

Main statements: the test of a single key is exact (`parseAll_renderAll_iff`), and so is reading,
which accepts the sentences of the grammar and brings them into the form in which they are written
(`parseAll_exact`).
-/

namespace TableScan

open Text (trim)

namespace Selector

variable {cs : List Char} {selectors : List Selector}

/-! ## Sentences can be written -/

/-- Trimming leaves characters of what stands between two reserved ones. -/
theorem SpellsKey.isRenderableKey {raw : List Char} {key : String} (h : SpellsKey raw key) :
    isRenderableKey key = true := by
  obtain ⟨hfree, hne, rfl⟩ := h
  rw [isRenderableKey_iff, String.toList_ofList]
  exact ⟨hne, Text.trim_trim raw, fun c hc => hfree c ((Text.trim_sublist raw).mem hc)⟩

/-- So are all keys between the braces. -/
theorem SpellsKeys.isRenderableKey {keys : List String} (h : SpellsKeys cs keys) :
    ∀ key ∈ keys, Selector.isRenderableKey key = true := by
  induction h with
  | last hkey => exact List.forall_mem_singleton.2 hkey.isRenderableKey
  | more hkey _ ih => exact List.forall_mem_cons.2 ⟨hkey.isRenderableKey, ih⟩

/-- A spelled selector has a name, and keys that can be written. -/
theorem SpellsSelector.isWritable {s : Selector} (h : SpellsSelector cs s) :
    s.isWritable = true := by
  rw [isWritable_iff]
  cases h with
  | whole _ hname => exact ⟨hname, List.forall_mem_nil _⟩
  | narrowed _ hname _ _ hkeys => exact ⟨hname, hkeys.isRenderableKey⟩

/-- Spelled selectors can be written. -/
theorem SpellsSelectors.isWritable (h : SpellsSelectors cs selectors) :
    ∀ s ∈ selectors, s.isWritable = true := by
  induction h with
  | last hs => exact List.forall_mem_singleton.2 hs.isWritable
  | more hs _ ih => exact List.forall_mem_cons.2 ⟨hs.isWritable, ih⟩

/-- Projection text reads as selectors that can be written. -/
theorem isWritable_of_parseAll {text : String} (h : parseAll text = .ok selectors) :
    ∀ s ∈ selectors, s.isWritable = true := by
  cases parseAll_eq_ok_iff.1 h with
  | none => exact List.forall_mem_nil _
  | some hspelled => exact hspelled.isWritable

/-! ## Survival -/

/-- Selectors are read back from their text exactly when their names are names of the grammar and
the test passes all their keys. The test is exact: the keys that it passes are those that come back
from any text at all. -/
theorem parseAll_renderAll_iff :
    (∀ selectors : List Selector,
      parseAll (renderAll selectors) = .ok selectors ↔
        ∀ s ∈ selectors, Grammar.isName s.name.toList = true
          ∧ ∀ key ∈ s.subfields, isRenderableKey key = true)
      ∧ ∀ key : String,
        isRenderableKey key = true ↔
          ∃ selectors : List Selector, (∃ s ∈ selectors, key ∈ s.subfields)
            ∧ parseAll (renderAll selectors) = .ok selectors := by
  have hsurvive : ∀ selectors : List Selector,
      parseAll (renderAll selectors) = .ok selectors ↔
        ∀ s ∈ selectors, Grammar.isName s.name.toList = true
          ∧ ∀ key ∈ s.subfields, isRenderableKey key = true := by
    intro selectors
    constructor
    · intro h s hs
      exact isWritable_iff.1 (isWritable_of_parseAll h s hs)
    · intro h
      exact parseAll_renderAll fun s hs => isWritable_iff.2 (h s hs)
  refine ⟨hsurvive, fun key => ⟨fun hkey => ?_, ?_⟩⟩
  · -- a key that passes comes back from a selector that wants it alone
    refine ⟨[⟨"m", [key]⟩], ⟨_, List.mem_singleton_self _, List.mem_singleton_self _⟩, ?_⟩
    refine (hsurvive _).2 fun s hs => ?_
    obtain rfl := List.mem_singleton.1 hs
    refine ⟨(by decide : Grammar.isName "m".toList = true), fun k hk => ?_⟩
    obtain rfl := List.mem_singleton.1 hk
    exact hkey
  · rintro ⟨selectors, ⟨s, hs, hkey⟩, hback⟩
    exact ((hsurvive selectors).1 hback s hs).2 key hkey

/-- A key that closes its own braces is read as the end of one selector and the start of another. -/
example : parseAll (renderAll [⟨"a", ["x\x7d , b#\x7bc"]⟩]) = .ok [⟨"a", ["x"]⟩, ⟨"b", ["c"]⟩] := by
  cbv

/-- A text is read as selectors just when it is a sentence that stands for them, and any other text
cannot be parsed. Selectors that were read have names of the grammar and keys that pass the test, so
that their text is read as they are: writing them brings a text into one form. -/
theorem parseAll_exact (text : String) :
    (∀ selectors, parseAll text = .ok selectors ↔ Denotes text selectors)
      ∧ (∀ selectors, parseAll text = .ok selectors →
        (∀ s ∈ selectors, Grammar.isName s.name.toList = true
            ∧ ∀ key ∈ s.subfields, isRenderableKey key = true)
          ∧ parseAll (renderAll selectors) = .ok selectors)
      ∧ ((∃ e, parseAll text = .error e ∧ e.group = .parse) ↔
        ¬ ∃ selectors, Denotes text selectors) := by
  refine ⟨fun selectors => parseAll_eq_ok_iff, fun selectors h => ?_, ?_⟩
  · have hwritable := isWritable_of_parseAll h
    exact ⟨fun s hs => isWritable_iff.1 (hwritable s hs), parseAll_renderAll hwritable⟩
  · constructor
    · rintro ⟨e, herror, -⟩ ⟨selectors, hdenotes⟩
      cases herror.symm.trans (parseAll_eq_ok_iff.2 hdenotes)
    · intro hnone
      cases hparse : parseAll text with
      | ok selectors => exact absurd ⟨selectors, parseAll_eq_ok_iff.1 hparse⟩ hnone
      | error e => exact ⟨e, rfl, group_of_parseAll_eq_error hparse⟩

end Selector

end TableScan
