import TableScan.Json.Basic
import TableScan.Text.Scan

/-!
# JSON text

The grammar of JSON text. `Syntax` is the tree that a text spells before anything in it is judged:
numbers keep their digits, members their order and repetitions, and a string whose escapes do not
spell characters is there without content. Whether such a string, or a number out of range, is an
error depends on who reads the tree, and members that nobody asks for are never judged.

`Syntax.parse` reads a whole text; `none` stands for text outside the grammar.
-/

namespace TableScan.Json

open Text (Scan)

/-- A number as it is spelled: `fraction` is empty without a decimal point, and `exponent` is
missing without an exponent part. -/
structure Numeral where
  negative : Bool
  integer : List Nat
  fraction : List Nat
  exponent : Option Int
  deriving DecidableEq, Repr

/-- JSON text as a tree. The content of a string is missing if its escapes spell no characters. -/
inductive Syntax where
  | null
  | bool (value : Bool)
  | number (numeral : Numeral)
  | string (content : Option String)
  | array (items : List Syntax)
  | object (members : List (Option String × Syntax))
  deriving Repr

namespace Syntax

/-- The four characters between which JSON text allows free space. -/
def isSpace (c : Char) : Bool := c == ' ' || c == '\t' || c == '\n' || c == '\r'

def skipSpace (cs : List Char) : List Char := cs.dropWhile isSpace

theorem length_skipSpace_le (cs : List Char) : (skipSpace cs).length ≤ cs.length := by
  induction cs with
  | nil => simp [skipSpace]
  | cons c r ih =>
    simp only [skipSpace, List.dropWhile_cons] at ih ⊢
    split
    · simp only [List.length_cons]; omega
    · simp

/-! ## Strings -/

/-- A part of a string: a character, or the number of an escape `\u`. -/
inductive Piece where
  | char (c : Char)
  | unit (code : Nat)
  deriving DecidableEq, Repr

def hexValue (c : Char) : Option Nat :=
  if '0' ≤ c && c ≤ '9' then some (c.toNat - 48)
  else if 'a' ≤ c && c ≤ 'f' then some (c.toNat - 87)
  else if 'A' ≤ c && c ≤ 'F' then some (c.toNat - 55)
  else none

/-- The number that four hexadecimal digits spell. -/
def hexUnit (a b c d : Char) : Option Nat := do
  let a ← hexValue a
  let b ← hexValue b
  let c ← hexValue c
  let d ← hexValue d
  return ((a * 16 + b) * 16 + c) * 16 + d

def escaped (c : Char) : Option Char :=
  match c with
  | '"' => some '"'
  | '\\' => some '\\'
  | '/' => some '/'
  | 'b' => some '\x08'
  | 'f' => some '\x0c'
  | 'n' => some '\n'
  | 'r' => some '\r'
  | 't' => some '\t'
  | _ => none

/-- The parts of a string up to its closing quote. Control characters must be escaped. -/
def scanPieces : List Char → Option (List Piece × List Char)
  | [] => none
  | '"' :: r => some ([], r)
  | '\\' :: 'u' :: a :: b :: c :: d :: r => do
    let code ← hexUnit a b c d
    let (pieces, rest) ← scanPieces r
    return (.unit code :: pieces, rest)
  | '\\' :: e :: r => do
    let c ← escaped e
    let (pieces, rest) ← scanPieces r
    return (.char c :: pieces, rest)
  | c :: r =>
    if c.toNat < 0x20 then none
    else do
      let (pieces, rest) ← scanPieces r
      return (.char c :: pieces, rest)

theorem length_scanPieces_lt {cs rest : List Char} {pieces : List Piece}
    (h : scanPieces cs = some (pieces, rest)) : rest.length < cs.length := by
  fun_induction scanPieces cs generalizing pieces rest with
  | case1 => simp at h
  | case2 r => simp_all
  | case3 a b c d r ih =>
    simp only [Option.bind_eq_bind, Option.bind_eq_some_iff, Option.pure_def,
      Option.some.injEq, Prod.mk.injEq, Prod.exists] at h
    obtain ⟨_, _, p, t, hp, _, rfl⟩ := h
    have := ih hp
    simp only [List.length_cons]; omega
  | case4 e r _ ih =>
    simp only [Option.bind_eq_bind, Option.bind_eq_some_iff, Option.pure_def,
      Option.some.injEq, Prod.mk.injEq, Prod.exists] at h
    obtain ⟨_, _, p, t, hp, _, rfl⟩ := h
    have := ih hp
    simp only [List.length_cons]; omega
  | case5 => simp at h
  | case6 c r _ _ _ _ ih =>
    simp only [Option.bind_eq_bind, Option.bind_eq_some_iff, Option.pure_def,
      Option.some.injEq, Prod.mk.injEq, Prod.exists] at h
    obtain ⟨p, t, hp, _, rfl⟩ := h
    have := ih hp
    simp only [List.length_cons]; omega

def isHighSurrogate (n : Nat) : Bool := 0xD800 ≤ n && n < 0xDC00

def isLowSurrogate (n : Nat) : Bool := 0xDC00 ≤ n && n < 0xE000

/-- The characters that the parts of a string spell; a surrogate counts in a pair only. -/
def joinPieces : List Piece → Option (List Char)
  | [] => some []
  | .char c :: r => (joinPieces r).map (c :: ·)
  | .unit n :: .unit m :: r =>
    if isHighSurrogate n then
      if isLowSurrogate m then
        -- both halves of a pair make one character
        (joinPieces r).map (Char.ofNat (0x10000 + (n - 0xD800) * 0x400 + (m - 0xDC00)) :: ·)
      else none
    else if isLowSurrogate n then none
    -- the second number may start a pair of its own
    else (joinPieces (.unit m :: r)).map (Char.ofNat n :: ·)
  | .unit n :: r =>
    if isHighSurrogate n || isLowSurrogate n then none
    else (joinPieces r).map (Char.ofNat n :: ·)

/-- The string after its opening quote. -/
def scanString (cs : List Char) : Option (Scan cs (Option String)) :=
  match h : scanPieces cs with
  | none => none
  | some (pieces, rest) =>
    some ⟨(joinPieces pieces).map String.ofList, rest, length_scanPieces_lt h⟩

/-! ## Numbers -/

/-- The values of the leading digits, and what follows them. -/
def scanDigits : List Char → List Nat × List Char
  | [] => ([], [])
  | c :: r =>
    if c.isDigit then
      let (ds, rest) := scanDigits r
      ((c.toNat - 48) :: ds, rest)
    else ([], c :: r)

theorem length_scanDigits (cs : List Char) :
    (scanDigits cs).1.length + (scanDigits cs).2.length = cs.length := by
  induction cs with
  | nil => rfl
  | cons c r ih =>
    simp only [scanDigits]
    split
    · simp only [List.length_cons]; omega
    · simp

def natOfDigits (ds : List Nat) : Nat := ds.foldl (fun n d => n * 10 + d) 0

/-- The digits after a decimal point; empty if there is no point. -/
def scanFraction : List Char → Option (List Nat × List Char)
  | '.' :: r => if (scanDigits r).1.isEmpty then none else some (scanDigits r)
  | cs => some ([], cs)

/-- Whether a minus sign leads, and what follows a sign of either kind. -/
def scanSign : List Char → Bool × List Char
  | '+' :: r => (false, r)
  | '-' :: r => (true, r)
  | cs => (false, cs)

def scanExponent : List Char → Option (Option Int × List Char)
  | [] => some (none, [])
  | c :: r =>
    if c = 'e' || c = 'E' then
      let (negative, t) := scanSign r
      let (ds, rest) := scanDigits t
      let n : Int := natOfDigits ds
      if ds.isEmpty then none else some (some (if negative then -n else n), rest)
    else some (none, c :: r)

theorem length_scanFraction_le {cs rest : List Char} {ds : List Nat}
    (h : scanFraction cs = some (ds, rest)) : rest.length ≤ cs.length := by
  fun_cases scanFraction cs with
  | case1 r hr => simp [scanFraction, hr] at h
  | case2 r hr =>
    rw [scanFraction, if_neg hr] at h
    have hd := length_scanDigits r
    rw [Option.some.inj h] at hd
    simp only [List.length_cons] at hd ⊢; omega
  | case3 =>
    simp_all [scanFraction]

theorem length_scanSign_le (cs : List Char) : (scanSign cs).2.length ≤ cs.length := by
  fun_cases scanSign cs <;> simp_all

theorem length_scanExponent_le {cs rest : List Char} {e : Option Int}
    (h : scanExponent cs = some (e, rest)) : rest.length ≤ cs.length := by
  cases cs with
  | nil => simp_all [scanExponent]
  | cons c r =>
    simp only [scanExponent] at h
    split at h
    · split at h
      · simp at h
      · simp only [Option.some.injEq, Prod.mk.injEq] at h
        have hd := length_scanDigits (scanSign r).2
        have hs := length_scanSign_le r
        rw [h.2] at hd
        simp only [List.length_cons]; omega
    · simp_all

/-- Whether digits are a whole number without a needless zero in front. -/
def isWhole : List Nat → Bool
  | [] => false
  | [_] => true
  | d :: _ => d != 0

/-- A number without its sign. -/
def scanUnsigned (negative : Bool) (cs : List Char) : Option (Scan cs Numeral) :=
  if hw : isWhole (scanDigits cs).1 then
    match hf : scanFraction (scanDigits cs).2 with
    | none => none
    | some (fraction, r) =>
      match he : scanExponent r with
      | none => none
      | some (exponent, rest) =>
        some ⟨⟨negative, (scanDigits cs).1, fraction, exponent⟩, rest, by
          have h1 := length_scanDigits cs
          have h2 := length_scanFraction_le hf
          have h3 := length_scanExponent_le he
          have h4 : 0 < (scanDigits cs).1.length := by
            cases hd : (scanDigits cs).1 with
            | nil => simp [hd, isWhole] at hw
            | cons => simp
          omega⟩
  else none

def scanNumber (cs : List Char) : Option (Scan cs Numeral) :=
  match cs with
  | '-' :: r => (scanUnsigned true r).map (Scan.lift (by simp))
  | r => scanUnsigned false r

/-! ## Values -/

mutual

/-- A value, with space before it. -/
def scanValue (cs : List Char) : Option (Scan cs Syntax) :=
  have hs := length_skipSpace_le cs
  match h : skipSpace cs with
  | 'n' :: 'u' :: 'l' :: 'l' :: r => some ⟨.null, r, by simp [h] at hs; omega⟩
  | 't' :: 'r' :: 'u' :: 'e' :: r => some ⟨.bool true, r, by simp [h] at hs; omega⟩
  | 'f' :: 'a' :: 'l' :: 's' :: 'e' :: r => some ⟨.bool false, r, by simp [h] at hs; omega⟩
  | '"' :: r => (scanString r).map fun s => (s.map .string).lift (by simp [h] at hs; omega)
  | '[' :: r =>
    have hr := length_skipSpace_le r
    match h' : skipSpace r with
    | ']' :: t => some ⟨.array [], t, by simp [h] at hs; simp [h'] at hr; omega⟩
    | _ => (scanItems r).map fun s => (s.map .array).lift (by simp [h] at hs; omega)
  | '\x7b' :: r =>
    have hr := length_skipSpace_le r
    match h' : skipSpace r with
    | '\x7d' :: t => some ⟨.object [], t, by simp [h] at hs; simp [h'] at hr; omega⟩
    | _ => (scanMembers r).map fun s => (s.map .object).lift (by simp [h] at hs; omega)
  | r => (scanNumber r).map fun s => (s.map .number).lift (by simp_all)
termination_by (cs.length, 0)
decreasing_by all_goals (simp [h] at hs; apply Prod.Lex.left; omega)

/-- One or more values between commas, up to the closing bracket. -/
def scanItems (cs : List Char) : Option (Scan cs (List Syntax)) :=
  match scanValue cs with
  | none => none
  | some v =>
    have hv := v.lt
    have hs := length_skipSpace_le v.rest
    match h : skipSpace v.rest with
    | ']' :: r => some ⟨[v.value], r, by simp [h] at hs; omega⟩
    | ',' :: r =>
      (scanItems r).map fun s => (s.map (v.value :: ·)).lift (by simp [h] at hs; omega)
    | _ => none
termination_by (cs.length, 1)
decreasing_by
  · apply Prod.Lex.right; omega
  · simp [h] at hs; apply Prod.Lex.left; omega

/-- One or more members between commas, up to the closing brace. -/
def scanMembers (cs : List Char) : Option (Scan cs (List (Option String × Syntax))) :=
  have hk := length_skipSpace_le cs
  match h : skipSpace cs with
  | '"' :: r =>
    match scanString r with
    | none => none
    | some key =>
      have hkey := key.lt
      have hc := length_skipSpace_le key.rest
      match h' : skipSpace key.rest with
      | ':' :: t =>
        match scanValue t with
        | none => none
        | some v =>
          have hv := v.lt
          have hs := length_skipSpace_le v.rest
          match h'' : skipSpace v.rest with
          | '\x7d' :: u =>
            some ⟨[(key.value, v.value)], u, by
              simp [h] at hk; simp [h'] at hc; simp [h''] at hs; omega⟩
          | ',' :: u =>
            (scanMembers u).map fun s =>
              (s.map ((key.value, v.value) :: ·)).lift (by
                simp [h] at hk; simp [h'] at hc; simp [h''] at hs; omega)
          | _ => none
      | _ => none
  | _ => none
termination_by (cs.length, 1)
decreasing_by
  · simp [h] at hk; simp [h'] at hc; apply Prod.Lex.left; omega
  · simp [h] at hk; simp [h'] at hc; simp [h''] at hs; apply Prod.Lex.left; omega

end

/-- The tree of a text that holds one value and space around it. -/
def parse (cs : List Char) : Option Syntax :=
  match scanValue cs with
  | some s => if (skipSpace s.rest).isEmpty then some s.value else none
  | none => none

end Syntax

end TableScan.Json
