import LetLang.Text.Pad
import LetLang.Text.Quoted
import LetLang.Token.Kind

/-!
# Tokens

A token is a piece of the source with its kind and its place. Places are counted in bytes of
the UTF-8 encoding of the source.
-/

namespace LetLang

/-- A piece of the source text that starts at byte `start`. -/
structure Token where
  kind : TokenKind
  text : String
  start : Nat
  deriving DecidableEq

namespace Token

/-- The token at the end of a source of `length` bytes. -/
def eof (length : Nat) : Token := ⟨.eof, "", length⟩

/-- Whether the token stands for the end of the source. -/
def isEof (t : Token) : Bool := t.kind == .eof

/-- The token as one row of a listing: its place, its kind and its quoted text. -/
def row (t : Token) : String :=
  Text.padLeft ' ' 5 (toString t.start) ++ "  " ++ Text.padRight ' ' 12 t.kind.name ++ " "
    ++ Text.quoted t.text

/-- The listing of several tokens, one row each. -/
def rows (tokens : List Token) : String := "\n".intercalate (tokens.map row)

end Token

end LetLang
