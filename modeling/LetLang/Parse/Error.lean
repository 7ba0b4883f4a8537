import LetLang.Syntax.Equality
import LetLang.Syntax.Text
import LetLang.Token.Basic

/-!
# Parse errors

What can be wrong with a source, where, and how it is reported.
-/

namespace LetLang

/-- A place at which the source leaves the grammar. -/
inductive ParseError where
  /-- A token of kind `expected` had to stand where `got` stands. -/
  | unexpectedToken (expected : TokenKind) (got : Token)
  /-- No expression starts with `token`. -/
  | noOperand (token : Token)
  /-- The digits of `token` are no integer of the language. -/
  | invalidInteger (token : Token)
  /-- The expression before the parenthesis at byte `start` cannot be called. -/
  | invalidCallee (callee : Expr Unit) (start : Nat)
  deriving DecidableEq

namespace ParseError

/-- The byte at which the error stands. -/
def start : ParseError → Nat
  | unexpectedToken _ got => got.start
  | noOperand token => token.start
  | invalidInteger token => token.start
  | invalidCallee _ start => start

/-- The wording of the error. -/
def message : ParseError → String
  | unexpectedToken expected got =>
      "expected next token to be " ++ expected.name ++ ", got " ++ got.kind.name ++ " instead"
  | noOperand token => "No unary parse function for " ++ token.kind.name
  | invalidInteger token => "could not parse " ++ token.text ++ " as integer"
  | invalidCallee callee _ =>
      "cannot call " ++ callee.text ++ ": only identifiers and function literals are callable"

/-- The error with its place, as one line of a report. -/
def line (e : ParseError) : String :=
  "parse error at " ++ toString e.start ++ ": " ++ e.message

/-- The report of several errors, one line each. -/
def report (errors : List ParseError) : String := "\n".intercalate (errors.map line)

end ParseError

end LetLang
