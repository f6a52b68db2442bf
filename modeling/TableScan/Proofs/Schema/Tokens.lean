import TableScan.Proofs.Schema.Scanners

/-!
# The tokens of schema text

Schema text is cut into names and the symbols `:`, `,`, `(` and `)`, with white space in front of
any of them and at the end. A name goes on as far as it can.

Main statements: what stands at the front of a text is told by its first token
(`cutInto_nil_iff`, `cutInto_symbol_iff`, `cutInto_name_iff`), in the terms in which the scanners
look at it.
-/

namespace TableScan.Grammar

open Text (trimStart isBlank)

/-- A token of schema text: a name, or one of the symbols that stand between names. -/
inductive Token where
  | name (name : String)
  | symbol (c : Char)
  deriving DecidableEq, Repr

/-- The symbols. White space and the characters of names are none of them. -/
def symbols : List Char := [':', ',', '(', ')']

/-- A text is cut into tokens. Behind a name stands nothing that it could go on with. -/
inductive CutInto : List Char → List Token → Prop where
  /-- Nothing has no tokens. -/
  | nil : CutInto [] []
  /-- White space is passed over, wherever a token may begin. -/
  | blank {c : Char} {cs : List Char} {tokens : List Token}
      (hblank : isBlank c = true) (hcut : CutInto cs tokens) : CutInto (c :: cs) tokens
  /-- A symbol is a token by itself, whatever follows. -/
  | symbol {c : Char} {cs : List Char} {tokens : List Token}
      (hsymbol : c ∈ symbols) (hcut : CutInto cs tokens) : CutInto (c :: cs) (.symbol c :: tokens)
  /-- A name is one token only as a whole, so what follows must not be able to go on with it. -/
  | name {name : String} {cs : List Char} {tokens : List Token}
      (hname : isName name.toList = true) (hends : EndsName cs) (hcut : CutInto cs tokens) :
      CutInto (name.toList ++ cs) (.name name :: tokens)

variable {cs rest : List Char} {tokens behind : List Token}

/-- A symbol is not white space, so trimming stops in front of it. -/
theorem isBlank_of_mem_symbols {c : Char} (h : c ∈ symbols) : isBlank c = false := by
  have hall : symbols.all (!isBlank ·) = true := by decide
  simpa using List.all_eq_true.1 hall c h

/-- A symbol does not begin a name, so at most one of the two ways to cut a token applies. -/
theorem isNameStart_of_mem_symbols {c : Char} (h : c ∈ symbols) : isNameStart c = false := by
  have hall : symbols.all (!isNameStart ·) = true := by decide
  simpa using List.all_eq_true.1 hall c h

/-- White space in front belongs to no token. -/
theorem cutInto_of_trimStart (h : CutInto (trimStart cs) tokens) : CutInto cs tokens := by
  -- on the characters that are trimmed away
  induction cs with
  | nil => exact h
  | cons c cs ih =>
    by_cases hblank : isBlank c = true
    · rw [Text.trimStart_cons_of_blank hblank] at h
      exact .blank hblank (ih h)
    · rwa [Text.trimStart_cons_of_not_blank (by simpa using hblank)] at h

/-! ## The front of a text -/

/-- What a text starts with, white space aside, by its first token. -/
inductive FrontOf (cs : List Char) : List Token → Prop where
  | nil (htrim : trimStart cs = []) : FrontOf cs []
  | symbol {c : Char} {rest : List Char} {tokens : List Token}
      (htrim : trimStart cs = c :: rest) (hsymbol : c ∈ symbols) (hcut : CutInto rest tokens) :
      FrontOf cs (.symbol c :: tokens)
  | name {name : String} {rest : List Char} {tokens : List Token}
      (hname : Reads (scanName cs) name rest) (hcut : CutInto rest tokens) :
      FrontOf cs (.name name :: tokens)

/-- The front of a text is looked at behind the white space, so texts that are trimmed to the same
have the same front. -/
theorem FrontOf.of_trimStart_eq {ds : List Char} (htrim : trimStart cs = trimStart ds)
    (h : FrontOf ds tokens) : FrontOf cs tokens := by
  cases h with
  | nil hnil => exact .nil (htrim.trans hnil)
  | symbol hcons hsymbol hcut => exact .symbol (htrim.trans hcons) hsymbol hcut
  | name hname hcut =>
    rw [reads_scanName_iff, ← htrim] at hname
    exact .name (reads_scanName_iff.2 hname) hcut

/-- What is cut into tokens starts with the first of them. -/
theorem CutInto.front (h : CutInto cs tokens) : FrontOf cs tokens := by
  -- white space is passed over; any other way to cut a text shows its first token
  induction h with
  | nil => exact .nil rfl
  | blank hblank _ ih => exact ih.of_trimStart_eq (Text.trimStart_cons_of_blank hblank _)
  | symbol hsymbol hcut =>
    exact .symbol (Text.trimStart_cons_of_not_blank (isBlank_of_mem_symbols hsymbol) _) hsymbol hcut
  | @name name cs tokens hname hends hcut _ =>
    have htrim := trimStart_of_isName hname cs
    exact .name (reads_scanName_iff.2 ⟨htrim, hname, hends⟩) hcut

/-- A first token and a text that is cut into the others make a text that is cut into all of
them. -/
theorem FrontOf.cutInto (h : FrontOf cs tokens) : CutInto cs tokens := by
  cases h with
  | nil htrim => exact cutInto_of_trimStart (htrim ▸ .nil)
  | symbol htrim hsymbol hcut => exact cutInto_of_trimStart (htrim ▸ .symbol hsymbol hcut)
  | name hread hcut =>
    obtain ⟨htrim, hname, hends⟩ := reads_scanName_iff.1 hread
    exact cutInto_of_trimStart (htrim ▸ .name hname hends hcut)

/-- White space in front of a text does not change its tokens. -/
theorem CutInto.of_trimStart_eq {ds : List Char} (htrim : trimStart cs = trimStart ds)
    (h : CutInto ds tokens) : CutInto cs tokens :=
  (h.front.of_trimStart_eq htrim).cutInto

/-- A text has no tokens just when it is white space. -/
theorem cutInto_nil_iff : CutInto cs [] ↔ trimStart cs = [] := by
  constructor
  · intro h
    cases h.front with
    | nil htrim => exact htrim
  · exact fun htrim => (FrontOf.nil htrim).cutInto

/-- A symbol is the first token just when it stands behind the white space. -/
theorem cutInto_symbol_iff {c : Char} :
    CutInto cs (.symbol c :: tokens) ↔
      ∃ rest, trimStart cs = c :: rest ∧ c ∈ symbols ∧ CutInto rest tokens := by
  constructor
  · intro h
    cases h.front with
    | symbol htrim hsymbol hcut => exact ⟨_, htrim, hsymbol, hcut⟩
  · rintro ⟨rest, htrim, hsymbol, hcut⟩
    exact (FrontOf.symbol htrim hsymbol hcut).cutInto

/-- A name is the first token just when the scanner of names reads it. -/
theorem cutInto_name_iff {name : String} :
    CutInto cs (.name name :: tokens) ↔
      ∃ rest, Reads (scanName cs) name rest ∧ CutInto rest tokens := by
  constructor
  · intro h
    cases h.front with
    | name hname hcut => exact ⟨_, hname, hcut⟩
  · rintro ⟨rest, hname, hcut⟩
    exact (FrontOf.name hname hcut).cutInto

/-- A symbol at the front of a text is its first token. -/
theorem CutInto.exists_of_symbol {c : Char} (h : CutInto cs tokens) (hsymbol : c ∈ symbols)
    (htrim : trimStart cs = c :: rest) :
    ∃ behind, tokens = .symbol c :: behind ∧ CutInto rest behind := by
  cases h.front with
  | nil hnil => cases htrim.symm.trans hnil
  | symbol hcons _ hcut =>
    obtain ⟨rfl, rfl⟩ := List.cons.inj (htrim.symm.trans hcons)
    exact ⟨_, rfl, hcut⟩
  -- a name does not begin with a symbol
  | name hname _ =>
    obtain ⟨d, r, hcons, hstart⟩ := exists_head_of_reads hname
    obtain rfl := (List.cons.inj (htrim.symm.trans hcons)).1
    rw [isNameStart_of_mem_symbols hsymbol] at hstart
    cases hstart

/-- The names among the tokens of a text are names by the rules for names. -/
theorem CutInto.isName_of_mem (h : CutInto cs tokens) {name : String}
    (hmem : Token.name name ∈ tokens) : isName name.toList = true := by
  induction h with
  | nil => cases hmem
  | blank _ _ ih => exact ih hmem
  | symbol _ _ ih =>
    rcases List.mem_cons.1 hmem with heq | hmem
    · cases heq
    · exact ih hmem
  | name hname _ _ ih =>
    rcases List.mem_cons.1 hmem with heq | hmem
    · obtain rfl := Token.name.inj heq
      exact hname
    · exact ih hmem

/-! ## Tokens in front of a rest -/

/-- The text in front of a rest is cut into tokens, whatever the rest is cut into. -/
def LeadsTo (cs : List Char) (tokens : List Token) (rest : List Char) : Prop :=
  ∀ behind, CutInto rest behind → CutInto cs (tokens ++ behind)

namespace LeadsTo

/-- Tokens that lead to a place and tokens that lead on from there, one after the other. -/
theorem append {middle : List Char} (h : LeadsTo cs tokens middle)
    (hbehind : LeadsTo middle behind rest) : LeadsTo cs (tokens ++ behind) rest := by
  intro more hmore
  rw [List.append_assoc]
  exact h _ (hbehind more hmore)

/-- White space in front of the rest may be passed over. -/
theorem trimStart (h : LeadsTo cs tokens rest) : LeadsTo cs tokens (trimStart rest) :=
  fun more hmore => h more (hmore.of_trimStart_eq (Text.trimStart_trimStart rest).symm)

/-- What the scanner of names reads is one token in front of the rest. -/
theorem name {name : String} (h : Reads (scanName cs) name rest) :
    LeadsTo cs [.name name] rest :=
  fun _ hmore => cutInto_name_iff.2 ⟨rest, h, hmore⟩

/-- A symbol behind white space is one token in front of the rest. -/
theorem symbol {c : Char} (htrim : Text.trimStart cs = c :: rest) (hsymbol : c ∈ symbols) :
    LeadsTo cs [.symbol c] rest :=
  fun _ hmore => cutInto_symbol_iff.2 ⟨rest, htrim, hsymbol, hmore⟩

end LeadsTo

end TableScan.Grammar
