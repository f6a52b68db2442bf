import TableScan.Text.Bytes
import TableScan.Text.Printable

/-!
# Text: quoted for a reader

Error texts show a doubtful key between quotes, with everything that could mislead the eye
written as an escape: quotes and backslashes, line breaks and tabs, and any character that is not
printable as its code point in hexadecimal between braces.
-/

namespace TableScan.Text

def quotedChar (c : Char) : List Char :=
  match c with
  | '"' => ['\\', '"']
  | '\\' => ['\\', '\\']
  | '\n' => ['\\', 'n']
  | '\r' => ['\\', 'r']
  | '\t' => ['\\', 't']
  | '\x00' => ['\\', '0']
  | c =>
    if isPrintable c then [c]
    else ['\\', 'u', '\x7b'] ++ Nat.toDigits 16 c.toNat ++ ['\x7d']

/-- A string between quotes, with misleading characters escaped. -/
def quoted (s : String) : String :=
  String.ofList ('"' :: s.toList.flatMap quotedChar ++ ['"'])

end TableScan.Text
