import TableScan.Binary.Decimal
import TableScan.Text.Bytes

/-!
# JSON values

The values of JSON and their text. Numbers are integers or 64-bit floating-point values, which
stay apart: `1` and `1.0` are different values. Members of an object stand in the order in which
they are written.

* `Json.render` is the compact text of a value,
* `Json.quote` is the text of a string alone.
-/

namespace TableScan

inductive Json.Number where
  | int (value : Int)
  | double (bits : UInt64)
  deriving DecidableEq, Repr

inductive Json where
  | null
  | bool (value : Bool)
  | number (value : Json.Number)
  | string (value : String)
  | array (items : List Json)
  | object (members : List (String × Json))
  deriving Repr

namespace Json

def ofInt (n : Int) : Json := .number (.int n)

def ofNat (n : Nat) : Json := .number (.int n)

def ofStrings (texts : List String) : Json := .array (texts.map .string)

/-- A floating-point value as JSON; JSON has no spelling for infinities and non-numbers, which
become null. -/
def ofDouble (bits : UInt64) : Json :=
  if Binary.double.isFinite bits.toNat then .number (.double bits) else .null

/-! ## Text of numbers -/

/-- The least and the greatest decimal exponent that are written without an exponent part. -/
def plainExponents : Int × Int := (-5, 15)

/-- Digits with a decimal point after the first `point` of them; zeros fill in on either side, and
at least one digit stands on each side of the point. -/
def positional (digits : List Char) (point : Int) : List Char :=
  if point ≤ 0 then ['0', '.'] ++ List.replicate (-point).toNat '0' ++ digits
  else
    let whole := digits.take point.toNat
    let zeros := List.replicate (point.toNat - digits.length) '0'
    let fraction := digits.drop point.toNat
    whole ++ zeros ++ '.' :: (if fraction.isEmpty then ['0'] else fraction)

/-- Digits with a point after the first one, if more follow, and the decimal exponent with its
sign. -/
def scientific (digits : List Char) (exponent : Int) : List Char :=
  let mantissa := match digits with
    | d :: r => if r.isEmpty then [d] else d :: '.' :: r
    | [] => []
  let sign := if exponent < 0 then '-' else '+'
  mantissa ++ 'e' :: sign :: Nat.toDigits 10 exponent.natAbs

/-- The text of a finite magnitude: the shortest digits that round to it, positional within
`plainExponents` and scientific outside. -/
def magnitudeChars (magnitude : Nat) : List Char :=
  if magnitude = 0 then ['0', '.', '0']
  else
    let d := Binary.double.shortest magnitude
    let digits := Nat.toDigits 10 d.digits
    let exponent := d.exponent + digits.length - 1
    if plainExponents.1 ≤ exponent && exponent ≤ plainExponents.2 then
      positional digits (exponent + 1)
    else scientific digits exponent

def Number.chars : Number → List Char
  | .int n => if n < 0 then '-' :: Nat.toDigits 10 n.natAbs else Nat.toDigits 10 n.natAbs
  | .double bits =>
    let m := Binary.double.magnitude bits.toNat
    if m < Binary.double.infinity then
      let body := magnitudeChars m
      if Binary.double.isNegative bits.toNat then '-' :: body else body
    else ['n', 'u', 'l', 'l']

/-! ## Text of strings and values -/

/-- A character between quotes: quotes, backslashes and control characters are escaped, the
control characters without a letter of their own by their code. -/
def escapedChar (c : Char) : List Char :=
  match c with
  | '"' => ['\\', '"']
  | '\\' => ['\\', '\\']
  | '\x08' => ['\\', 'b']
  | '\x0c' => ['\\', 'f']
  | '\n' => ['\\', 'n']
  | '\r' => ['\\', 'r']
  | '\t' => ['\\', 't']
  | c => if c.toNat < 0x20 then ['\\', 'u'] ++ (Text.hex 4 c.toNat).toList else [c]

def quoteChars (s : String) : List Char := '"' :: s.toList.flatMap escapedChar ++ ['"']

mutual

def chars : Json → List Char
  | .null => ['n', 'u', 'l', 'l']
  | .bool true => ['t', 'r', 'u', 'e']
  | .bool false => ['f', 'a', 'l', 's', 'e']
  | .number n => n.chars
  | .string s => quoteChars s
  | .array items => '[' :: itemsChars items ++ [']']
  | .object members => '\x7b' :: membersChars members ++ ['\x7d']

def itemsChars : List Json → List Char
  | [] => []
  | [j] => chars j
  | j :: rest => chars j ++ ',' :: itemsChars rest

def membersChars : List (String × Json) → List Char
  | [] => []
  | [(k, j)] => quoteChars k ++ ':' :: chars j
  | (k, j) :: rest => quoteChars k ++ ':' :: chars j ++ ',' :: membersChars rest

end

def render (j : Json) : String := String.ofList j.chars

/-- A string as JSON text. -/
def quote (s : String) : String := String.ofList (quoteChars s)

end Json

end TableScan
