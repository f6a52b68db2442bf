import Mathlib.Tactic.IntervalCases
import TableScan.Json.Reader
import TableScan.Proofs.Json.Numbers

/-!
# Written values read back

The text of a value is scanned as the tree that it spells (`Json.tree`), up to whatever stands
behind it (`scanValue_chars`). The proof follows the scanners: strings character by character, then
values, items and members together, by induction on the value that was written.

What a reader makes of the tree is another question: numbers out of range and deep values are
refused there.
-/

namespace TableScan.Json

open Text (Scan)

namespace Syntax

/-! ## Strings -/

variable {tail rest : List Char} {pieces : List Piece}

/-- An escape by code is one piece, a unit that may be half of a character. -/
theorem scanPieces_unit {a b c d : Char} {code : Nat} (hcode : hexUnit a b c d = some code)
    (htail : scanPieces tail = some (pieces, rest)) :
    scanPieces (['\\', 'u', a, b, c, d] ++ tail) = some (.unit code :: pieces, rest) := by
  show scanPieces ('\\' :: 'u' :: a :: b :: c :: d :: tail) = _
  simp [scanPieces, hcode, htail]

/-- An escape by letter is one piece. -/
theorem scanPieces_letter {e c : Char} (he : e ≠ 'u') (hc : escaped e = some c)
    (htail : scanPieces tail = some (pieces, rest)) :
    scanPieces (['\\', e] ++ tail) = some (.char c :: pieces, rest) := by
  show scanPieces ('\\' :: e :: tail) = _
  simp [scanPieces, he, hc, htail]

/-- A character that needs no escape is a piece as it stands. -/
theorem scanPieces_plain {c : Char} (hquote : c ≠ '"') (hslash : c ≠ '\\')
    (hc : 0x20 ≤ c.toNat) (htail : scanPieces tail = some (pieces, rest)) :
    scanPieces ([c] ++ tail) = some (.char c :: pieces, rest) := by
  have hcontrol : ¬ c.toNat < 0x20 := by omega
  show scanPieces (c :: tail) = _
  simp [scanPieces, hslash, hcontrol, htail]

/-- The code of a control character is written with four digits, of which the first two are
zeros. -/
theorem toList_hex {n : Nat} (h : n < 0x20) :
    (Text.hex 4 n).toList = ['0', '0', (n / 16).digitChar, (n % 16).digitChar] := by
  unfold Text.hex
  rw [String.toList_ofList]
  interval_cases n <;> rfl

/-- The four digits of a control character are read as its code. -/
theorem hexUnit_digitChar {n : Nat} (h : n < 0x20) :
    hexUnit '0' '0' (n / 16).digitChar (n % 16).digitChar = some n := by
  interval_cases n <;> rfl

/-- The text of a character is a backslash with a letter that stands for it, or with its code if it
is a control character, or the character as it is. -/
theorem escapedChar_cases (c : Char) :
    (∃ e, e ≠ 'u' ∧ escaped e = some c ∧ escapedChar c = ['\\', e])
    ∨ (c.toNat < 0x20 ∧ ∃ a b d e, hexUnit a b d e = some c.toNat
      ∧ escapedChar c = ['\\', 'u', a, b, d, e])
    ∨ (c ≠ '"' ∧ c ≠ '\\' ∧ 0x20 ≤ c.toNat ∧ escapedChar c = [c]) := by
  unfold escapedChar
  split
  · exact .inl ⟨'"', by decide, rfl, rfl⟩
  · exact .inl ⟨'\\', by decide, rfl, rfl⟩
  · exact .inl ⟨'b', by decide, rfl, rfl⟩
  · exact .inl ⟨'f', by decide, rfl, rfl⟩
  · exact .inl ⟨'n', by decide, rfl, rfl⟩
  · exact .inl ⟨'r', by decide, rfl, rfl⟩
  · exact .inl ⟨'t', by decide, rfl, rfl⟩
  · next hquote hslash _ _ _ _ _ =>
    by_cases hc : c.toNat < 0x20
    · rw [if_pos hc, toList_hex hc]
      exact .inr (.inl ⟨hc, _, _, _, _, hexUnit_digitChar hc, rfl⟩)
    · rw [if_neg hc]
      exact .inr (.inr ⟨hquote, hslash, by omega, rfl⟩)

/-- The code of a control character is no half of a pair, so it spells the character alone. -/
theorem joinPieces_unit {n : Nat} (h : n < 0x20) (pieces : List Piece) :
    joinPieces (.unit n :: pieces) = (joinPieces pieces).map (Char.ofNat n :: ·) := by
  have hhigh : isHighSurrogate n = false := by
    unfold isHighSurrogate
    simp only [Bool.and_eq_false_iff, decide_eq_false_iff_not]
    omega
  have hlow : isLowSurrogate n = false := by
    unfold isLowSurrogate
    simp only [Bool.and_eq_false_iff, decide_eq_false_iff_not]
    omega
  cases pieces with
  | nil => simp [joinPieces, hhigh, hlow]
  | cons piece pieces =>
    cases piece with
    | char c => simp [joinPieces, hhigh, hlow]
    | unit m => simp [joinPieces, hhigh, hlow]

/-- The characters of a string are scanned piece by piece, up to the closing quote, and the pieces
join to them again. -/
theorem exists_scanPieces (cs rest : List Char) :
    ∃ pieces, scanPieces (cs.flatMap escapedChar ++ '"' :: rest) = some (pieces, rest)
      ∧ joinPieces pieces = some cs := by
  induction cs with
  | nil => exact ⟨[], by simp [scanPieces], rfl⟩
  | cons c cs ih =>
    obtain ⟨pieces, htail, hjoin⟩ := ih
    rw [List.flatMap_cons, List.append_assoc]
    -- the scanner looks at the character in front, as the three ways to write it require
    rcases escapedChar_cases c with
      ⟨e, he, hc, heq⟩ | ⟨hc, a, b, d, e, hcode, heq⟩ | ⟨hquote, hslash, hc, heq⟩
    · rw [heq, scanPieces_letter he hc htail]
      exact ⟨_, rfl, by rw [joinPieces, hjoin]; rfl⟩
    · rw [heq, scanPieces_unit hcode htail]
      refine ⟨_, rfl, ?_⟩
      rw [joinPieces_unit hc, hjoin, Char.ofNat_toNat]
      rfl
    · rw [heq, scanPieces_plain hquote hslash hc htail]
      exact ⟨_, rfl, by rw [joinPieces, hjoin]; rfl⟩

/-- A string in quotes is scanned back to its closing quote. -/
theorem scanString_quoted (s : String) (rest : List Char) :
    Reads (scanString (s.toList.flatMap escapedChar ++ '"' :: rest)) (some s) rest := by
  obtain ⟨pieces, hscan, hjoin⟩ := exists_scanPieces s.toList rest
  unfold scanString
  -- the pieces are there, and they join to the string
  split
  · next hnone =>
    rw [hscan] at hnone
    cases hnone
  · next pieces' rest' heq =>
    rw [hscan] at heq
    obtain ⟨rfl, rfl⟩ := Prod.mk.inj (Option.some.inj heq)
    refine ⟨_, rfl, ?_, rfl⟩
    show (joinPieces pieces).map String.ofList = some s
    rw [hjoin, Option.map_some, String.ofList_toList]

end Syntax

/-! ## Values -/

mutual

/-- The tree that the text of a value spells. -/
def tree : Json → Syntax
  | .null => .null
  | .bool b => .bool b
  -- a number without a spelling is written as null
  | .number n => ((n.spelling?.map Spelling.numeral).map Syntax.number).getD .null
  | .string s => .string (some s)
  | .array items => .array (trees items)
  | .object members => .object (memberTrees members)

/-- The trees of items. -/
def trees : List Json → List Syntax
  | [] => []
  | j :: rest => tree j :: trees rest

/-- The trees of members. Keys are always readable. -/
def memberTrees : List (String × Json) → List (Option String × Syntax)
  | [] => []
  | (k, j) :: rest => (some k, tree j) :: memberTrees rest

end

namespace Syntax

/-- Skipping white space stops at a character that is none. -/
theorem skipSpace_cons_of_not_space {c : Char} (h : isSpace c = false) (cs : List Char) :
    skipSpace (c :: cs) = c :: cs :=
  List.dropWhile_cons_of_neg (by rw [h]; decide)

variable {r rest : List Char}

/-- The word for null is scanned by its first letter. -/
theorem scanValue_null (rest : List Char) :
    Reads (scanValue (['n', 'u', 'l', 'l'] ++ rest)) .null rest := by
  unfold scanValue
  exact ⟨_, rfl, rfl, rfl⟩

/-- So are the words for truth values. -/
theorem scanValue_bool (b : Bool) (rest : List Char) :
    Reads (scanValue ((Json.bool b).chars ++ rest)) (.bool b) rest := by
  cases b with
  | true =>
    show Reads (scanValue (['t', 'r', 'u', 'e'] ++ rest)) _ _
    unfold scanValue
    exact ⟨_, rfl, rfl, rfl⟩
  | false =>
    show Reads (scanValue (['f', 'a', 'l', 's', 'e'] ++ rest)) _ _
    unfold scanValue
    exact ⟨_, rfl, rfl, rfl⟩

/-- A quote opens a string. -/
theorem scanValue_string (s : String) (rest : List Char) :
    Reads (scanValue ((Json.string s).chars ++ rest)) (.string (some s)) rest := by
  have hscan := scanString_quoted s rest
  have hchars : (Json.string s).chars ++ rest
      = '"' :: (s.toList.flatMap escapedChar ++ '"' :: rest) := by
    simp [Json.chars, quoteChars]
  rw [hchars]
  unfold scanValue
  exact hscan.map_lift Syntax.string _

/-- An array without items closes at once. -/
theorem scanValue_array_nil (rest : List Char) :
    Reads (scanValue ('[' :: ']' :: rest)) (.array []) rest := by
  unfold scanValue
  exact ⟨_, rfl, rfl, rfl⟩

/-- An array with items goes on with these, where no bracket closes it before. -/
theorem scanValue_array {items : List Syntax} (hhead : ∀ t, skipSpace r ≠ ']' :: t)
    (h : Reads (scanItems r) items rest) :
    Reads (scanValue ('[' :: r)) (.array items) rest := by
  -- no other kind of value begins with this bracket
  have hother : ∀ {d t}, d ≠ '[' → skipSpace ('[' :: r) ≠ d :: t :=
    fun hd heq => hd (List.cons.inj heq).1.symm
  unfold scanValue
  split
  · next heq => exact absurd heq (hother (by decide))
  · next heq => exact absurd heq (hother (by decide))
  · next heq => exact absurd heq (hother (by decide))
  · next heq => exact absurd heq (hother (by decide))
  · next inside heq =>
    obtain rfl : r = inside := (List.cons.inj heq).2
    split
    · next t heq => exact absurd heq (hhead t)
    · exact h.map_lift Syntax.array _
  · next heq => exact absurd heq (hother (by decide))
  · next hnot _ => exact absurd rfl (hnot r)

/-- An object without members closes at once. -/
theorem scanValue_object_nil (rest : List Char) :
    Reads (scanValue ('\x7b' :: '\x7d' :: rest)) (.object []) rest := by
  unfold scanValue
  exact ⟨_, rfl, rfl, rfl⟩

/-- An object goes on with its members where the quote of a key is there. -/
theorem scanValue_object {members : List (Option String × Syntax)}
    (h : Reads (scanMembers ('"' :: r)) members rest) :
    Reads (scanValue ('\x7b' :: '"' :: r)) (.object members) rest := by
  unfold scanValue
  exact h.map_lift Syntax.object _

/-- A character that starts a number is none that does not. -/
theorem ne_of_startsNumber {c d : Char} (hc : c.isDigit = true ∨ c = '-')
    (hd : ¬ (d.isDigit = true ∨ d = '-')) : c ≠ d := by
  rintro rfl
  exact hd hc

/-- No white space starts a number. -/
theorem isSpace_of_startsNumber {c : Char} (hc : c.isDigit = true ∨ c = '-') :
    isSpace c = false := by
  unfold isSpace
  simp only [Bool.or_eq_false_iff, beq_eq_false_iff_ne]
  exact ⟨⟨⟨ne_of_startsNumber hc (by decide), ne_of_startsNumber hc (by decide)⟩,
    ne_of_startsNumber hc (by decide)⟩, ne_of_startsNumber hc (by decide)⟩

/-- A digit or a sign in front is the start of a number. -/
theorem scanValue_of_scanNumber {c : Char} {n : Numeral} (hc : c.isDigit = true ∨ c = '-')
    (h : Reads (scanNumber (c :: r)) n rest) : Reads (scanValue (c :: r)) (.number n) rest := by
  have hspace : skipSpace (c :: r) = c :: r :=
    skipSpace_cons_of_not_space (isSpace_of_startsNumber hc) r
  -- no value of another kind begins so
  have hother : ∀ {d t}, ¬ (d.isDigit = true ∨ d = '-') → skipSpace (c :: r) ≠ d :: t := by
    intro d t hd heq
    rw [hspace] at heq
    exact ne_of_startsNumber hc hd (List.cons.inj heq).1
  have hnumber : Reads (scanNumber (skipSpace (c :: r))) n rest := by
    rw [hspace]
    exact h
  unfold scanValue
  split
  · next heq => exact absurd heq (hother (by decide))
  · next heq => exact absurd heq (hother (by decide))
  · next heq => exact absurd heq (hother (by decide))
  · next heq => exact absurd heq (hother (by decide))
  · next heq => exact absurd heq (hother (by decide))
  · next heq => exact absurd heq (hother (by decide))
  · exact hnumber.map_lift Syntax.number _

/-- A number in its text is scanned as its numeral, in front of what ends a number. -/
theorem scanValue_number {s : Spelling} (h : s.IsNumber) (hrest : EndsNumber rest) :
    Reads (scanValue (s.chars ++ rest)) (.number s.numeral) rest := by
  obtain ⟨c, r, heq, hc⟩ := h.exists_chars_eq_cons
  have hscan := scanNumber_chars h hrest
  rw [heq, List.cons_append] at hscan ⊢
  exact scanValue_of_scanNumber hc hscan

/-! ## Items and members -/

/-- Items are read one by one: behind each stands the bracket that ends them, or a comma and the
other ones. -/
theorem scanItems_cons {cs tail : List Char} {v : Syntax} {items : List Syntax}
    (h : Reads (scanValue cs) v tail)
    (htail : (tail = ']' :: rest ∧ items = [])
      ∨ ∃ t, tail = ',' :: t ∧ Reads (scanItems t) items rest) :
    Reads (scanItems cs) (v :: items) rest := by
  obtain ⟨_, hv⟩ := h.eq_some
  unfold scanItems
  split
  · next hnone =>
    rw [hv] at hnone
    cases hnone
  · next w hw =>
    obtain rfl := Option.some.inj (hv.symm.trans hw)
    rcases htail with ⟨rfl, rfl⟩ | ⟨t, rfl, hitems⟩
    · exact ⟨_, rfl, rfl, rfl⟩
    · exact hitems.map_lift (v :: ·) _

/-- The text of a key, the colon behind it, and what follows. -/
def keyChars (key : String) (r : List Char) : List Char :=
  '"' :: (key.toList.flatMap escapedChar ++ '"' :: ':' :: r)

/-- Members are read one by one as items are, each with its key and a colon in front. -/
theorem scanMembers_cons {key : String} {tail : List Char} {v : Syntax}
    {members : List (Option String × Syntax)} (h : Reads (scanValue r) v tail)
    (htail : (tail = '\x7d' :: rest ∧ members = [])
      ∨ ∃ t, tail = ',' :: t ∧ Reads (scanMembers t) members rest) :
    Reads (scanMembers (keyChars key r)) ((some key, v) :: members) rest := by
  obtain ⟨_, hkey⟩ := (scanString_quoted key (':' :: r)).eq_some
  obtain ⟨_, hv⟩ := h.eq_some
  unfold scanMembers keyChars
  -- the scanner looks for a quote, the key, a colon and the value, and finds each of them
  split
  · next quoted heq =>
    obtain rfl := (List.cons.inj heq).2
    split
    · next hnone =>
      rw [hkey] at hnone
      cases hnone
    · next k hk =>
      obtain rfl := Option.some.inj (hkey.symm.trans hk)
      split
      · next t heq =>
        obtain rfl := (List.cons.inj heq).2
        split
        · next hnone =>
          rw [hv] at hnone
          cases hnone
        · next w hw =>
          obtain rfl := Option.some.inj (hv.symm.trans hw)
          rcases htail with ⟨rfl, rfl⟩ | ⟨u, rfl, hmembers⟩
          · exact ⟨_, rfl, rfl, rfl⟩
          · exact hmembers.map_lift ((some key, v) :: ·) _
      · next hne => exact absurd rfl (hne _)
  · next hne => exact absurd rfl (hne _)

/-! ## The tree of a text -/

/-- Separators and closing brackets end a number. -/
theorem endsNumber_of_mem {c : Char} (h : c ∈ [',', ']', '\x7d']) (rest : List Char) :
    EndsNumber (c :: rest) := by
  intro d hd
  obtain rfl : c = d := Option.some.inj hd
  simp only [List.mem_cons, List.not_mem_nil, or_false] at h
  rcases h with rfl | rfl | rfl <;> decide

/-- No value starts with white space or with a bracket that ends an array. -/
theorem chars_head (j : Json) (rest : List Char) :
    ∃ c r, j.chars ++ rest = c :: r ∧ isSpace c = false ∧ c ≠ ']' := by
  cases j with
  | null => exact ⟨'n', _, rfl, by decide⟩
  | bool b =>
    cases b with
    | true => exact ⟨'t', _, rfl, by decide⟩
    | false => exact ⟨'f', _, rfl, by decide⟩
  | number n =>
    show ∃ c r, n.chars ++ rest = c :: r ∧ _
    rw [n.chars_eq]
    cases hs : n.spelling? with
    | none => exact ⟨'n', _, rfl, by decide⟩
    | some s =>
      obtain ⟨c, cs, heq, hc⟩ := (Number.isNumber_of_spelling? hs).exists_chars_eq_cons
      exact ⟨c, cs ++ rest, congrArg (· ++ rest) heq, Syntax.isSpace_of_startsNumber hc,
        Syntax.ne_of_startsNumber hc (by decide)⟩
  | string s => exact ⟨'"', _, rfl, by decide⟩
  | array items => exact ⟨'[', _, rfl, by decide⟩
  | object members => exact ⟨'\x7b', _, rfl, by decide⟩

/-- The text of a value is not taken for the end of an array. -/
theorem skipSpace_chars (j : Json) (rest t : List Char) :
    skipSpace (j.chars ++ rest) ≠ ']' :: t := by
  obtain ⟨c, r, heq, hspace, hne⟩ := chars_head j rest
  rw [heq, skipSpace_cons_of_not_space hspace]
  exact fun h => hne (List.cons.inj h).1

/-- Behind the first of two or more items stands a comma. -/
theorem itemsChars_cons_cons (j k : Json) (items : List Json) (rest : List Char) :
    itemsChars (j :: k :: items) ++ rest = j.chars ++ ',' :: (itemsChars (k :: items) ++ rest) := by
  simp [itemsChars]

/-- A single member has nothing behind its value. -/
theorem membersChars_singleton (key : String) (j : Json) (rest : List Char) :
    membersChars [(key, j)] ++ rest = keyChars key (j.chars ++ rest) := by
  simp [membersChars, quoteChars, keyChars]

/-- Behind the first of two or more members stands a comma. -/
theorem membersChars_cons_cons (key : String) (j : Json) (m : String × Json)
    (members : List (String × Json)) (rest : List Char) :
    membersChars ((key, j) :: m :: members) ++ rest
      = keyChars key (j.chars ++ ',' :: (membersChars (m :: members) ++ rest)) := by
  simp [membersChars, quoteChars, keyChars]

/-- Members start with the quote of their first key. -/
theorem exists_membersChars_eq_cons (m : String × Json) (members : List (String × Json))
    (rest : List Char) : ∃ r, membersChars (m :: members) ++ rest = '"' :: r := by
  obtain ⟨key, j⟩ := m
  cases members with
  | nil => exact ⟨_, membersChars_singleton key j _⟩
  | cons m members => exact ⟨_, membersChars_cons_cons key j m members _⟩

/-- What stands in an array does not start with the bracket that ends it. -/
theorem skipSpace_itemsChars (j : Json) (items : List Json) (rest t : List Char) :
    skipSpace (itemsChars (j :: items) ++ rest) ≠ ']' :: t := by
  cases items with
  | nil => exact skipSpace_chars j rest t
  | cons k items =>
    rw [itemsChars_cons_cons]
    exact skipSpace_chars j _ t

mutual

/-- The text of a value is scanned as its tree, up to what stands behind it. -/
theorem scanValue_chars (j : Json) {rest : List Char} (hrest : EndsNumber rest) :
    Reads (scanValue (j.chars ++ rest)) j.tree rest := by
  -- the three theorems go down the value together: items and members are smaller than their array
  -- or object
  cases j with
  | null => exact scanValue_null rest
  | bool b => exact scanValue_bool b rest
  | number n =>
    show Reads (scanValue (n.chars ++ rest)) (Json.tree (.number n)) rest
    rw [n.chars_eq, Json.tree]
    cases hs : n.spelling? with
    | none => exact scanValue_null rest
    | some s => exact scanValue_number (Number.isNumber_of_spelling? hs) hrest
  | string s => exact scanValue_string s rest
  | array items =>
    cases items with
    | nil => exact scanValue_array_nil rest
    | cons j items =>
      have hchars : (Json.array (j :: items)).chars ++ rest
          = '[' :: (itemsChars (j :: items) ++ ']' :: rest) := by
        simp [Json.chars]
      rw [hchars]
      exact scanValue_array (skipSpace_itemsChars j items _)
        (scanItems_chars (j :: items) (List.cons_ne_nil _ _) rest)
  | object members =>
    cases members with
    | nil => exact scanValue_object_nil rest
    | cons m members =>
      have hchars : (Json.object (m :: members)).chars ++ rest
          = '\x7b' :: (membersChars (m :: members) ++ '\x7d' :: rest) := by
        simp [Json.chars]
      obtain ⟨r, hr⟩ := exists_membersChars_eq_cons m members ('\x7d' :: rest)
      have hmembers := scanMembers_chars (m :: members) (List.cons_ne_nil _ _) rest
      rw [hr] at hmembers
      rw [hchars, hr]
      exact scanValue_object hmembers

/-- The text of items is scanned as their trees, up to the bracket that closes the array. -/
theorem scanItems_chars (items : List Json) (hne : items ≠ []) (rest : List Char) :
    Reads (scanItems (itemsChars items ++ ']' :: rest)) (trees items) rest := by
  cases items with
  | nil => exact absurd rfl hne
  | cons j items =>
    cases items with
    | nil =>
      -- the last item, in front of the closing bracket
      have hends : EndsNumber (']' :: rest) := endsNumber_of_mem (by decide) rest
      exact scanItems_cons (scanValue_chars j hends) (.inl ⟨rfl, rfl⟩)
    | cons k items =>
      have hends : EndsNumber (',' :: (itemsChars (k :: items) ++ ']' :: rest)) :=
        endsNumber_of_mem (by decide) _
      have hitems := scanItems_chars (k :: items) (List.cons_ne_nil _ _) rest
      rw [itemsChars_cons_cons]
      exact scanItems_cons (scanValue_chars j hends) (.inr ⟨_, rfl, hitems⟩)

/-- The text of members is scanned as their trees, up to the brace that closes the object. -/
theorem scanMembers_chars (members : List (String × Json)) (hne : members ≠ [])
    (rest : List Char) :
    Reads (scanMembers (membersChars members ++ '\x7d' :: rest)) (memberTrees members) rest := by
  cases members with
  | nil => exact absurd rfl hne
  | cons m members =>
    obtain ⟨key, j⟩ := m
    cases members with
    | nil =>
      have hends : EndsNumber ('\x7d' :: rest) := endsNumber_of_mem (by decide) rest
      rw [membersChars_singleton]
      exact scanMembers_cons (scanValue_chars j hends) (.inl ⟨rfl, rfl⟩)
    | cons m members =>
      have hends : EndsNumber (',' :: (membersChars (m :: members) ++ '\x7d' :: rest)) :=
        endsNumber_of_mem (by decide) _
      have hmembers := scanMembers_chars (m :: members) (List.cons_ne_nil _ _) rest
      rw [membersChars_cons_cons]
      exact scanMembers_cons (scanValue_chars j hends) (.inr ⟨_, rfl, hmembers⟩)

end

/-- A rendered value is parsed as its tree. -/
theorem parse_render (j : Json) : Syntax.parse j.render.toList = some j.tree := by
  -- at the end of the text every number has ended
  have hscan : Reads (scanValue (j.chars ++ [])) j.tree [] :=
    scanValue_chars j fun c hc => by cases hc
  rw [List.append_nil] at hscan
  obtain ⟨_, hv⟩ := hscan.eq_some
  have hchars : j.render.toList = j.chars := String.toList_ofList
  rw [Syntax.parse, hchars, hv]
  rfl

end Syntax

end TableScan.Json
