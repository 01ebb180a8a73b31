import Highlighting.Text.Unprintable

/-!
Names in double quotes, as summary lines show them.

A double quote and a backslash stand behind a backslash, and so do the letters for tab, line feed,
carriage return and the digit for the zero character. Any other character that would not show as one
visible sign of its own is written by its code point in hexadecimal.
-/

namespace Highlighting.Quoted

/-- The code point in lower case hexadecimal, between braces. -/
def codePoint (c : Char) : List Char :=
  ['\\', 'u', '\x7b'] ++ Nat.toDigits 16 c.toNat ++ ['\x7d']

def escape (c : Char) : List Char :=
  match c with
  | '"' => ['\\', '"']
  | '\\' => ['\\', '\\']
  | '\t' => ['\\', 't']
  | '\n' => ['\\', 'n']
  | '\r' => ['\\', 'r']
  | '\x00' => ['\\', '0']
  | c => if isUnprintable c then codePoint c else [c]

def quote (s : String) : String :=
  String.ofList ('"' :: s.toList.flatMap escape ++ ['"'])

end Highlighting.Quoted
