import LetLang.Text.Combining
import LetLang.Text.Ignorable
import LetLang.Text.Unprintable

/-!
# Quoted text

A text between double quotes, in which every character that could be mistaken or would not be
seen is written as an escape. The quoted form holds no line break.
-/

namespace LetLang.Text

/-- The escape that names a character by its code point, in hexadecimal digits. -/
def codePointEscape (c : Char) : List Char :=
  ['\\', 'u', '\x7b'] ++ Nat.toDigits 16 c.toNat ++ ['\x7d']

/-- Whether `c` would not be seen in a text, or not as a character of its own. -/
def isHidden (c : Char) : Bool := isUnprintable c || isIgnorable c || isCombining c

/-- The quoted form of one character. The quote, the backslash and four control characters
have an escape of their own; other hidden characters are named by their code point; all else
stands for itself. -/
def escape (c : Char) : List Char :=
  match c with
  | '\x00' => ['\\', '0']
  | '\t' => ['\\', 't']
  | '\r' => ['\\', 'r']
  | '\n' => ['\\', 'n']
  | '"' => ['\\', '"']
  | '\\' => ['\\', '\\']
  | c => if isHidden c then codePointEscape c else [c]

/-- The text in double quotes. -/
def quoted (s : String) : String :=
  String.ofList ('"' :: s.toList.flatMap escape ++ ['"'])

end LetLang.Text
