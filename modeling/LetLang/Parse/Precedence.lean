import LetLang.Syntax.Basic
import LetLang.Token.Kind

/-!
# Precedence

How tightly an operator holds its operands, from the weakest level to the strongest.
-/

namespace LetLang

/-- Levels of binding strength. -/
inductive Precedence where
  | lowest
  | equality
  | relational
  | additive
  | multiplicative
  | unary
  | call
  deriving DecidableEq

namespace Precedence

/-- The place of a level in the order. -/
def rank : Precedence → Nat
  | lowest => 0
  | equality => 1
  | relational => 2
  | additive => 3
  | multiplicative => 4
  | unary => 5
  | call => 6

instance : LT Precedence := ⟨fun p q => p.rank < q.rank⟩

instance (p q : Precedence) : Decidable (p < q) := inferInstanceAs (Decidable (p.rank < q.rank))

theorem lt_iff {p q : Precedence} : p < q ↔ p.rank < q.rank := Iff.rfl

/-- The name of a level. -/
def name : Precedence → String
  | lowest => "Lowest"
  | equality => "Equality"
  | relational => "Relational"
  | additive => "Additive"
  | multiplicative => "Multiplicative"
  | unary => "Unary"
  | call => "Call"

end Precedence

/-- The level of a binary operator. -/
def BinaryOp.precedence : BinaryOp → Precedence
  | equal | notEqual => .equality
  | lessThan | greaterThan => .relational
  | add | subtract => .additive
  | multiply | divide => .multiplicative

/-- The binary operator that a token of the given kind stands for between two operands. -/
def TokenKind.binaryOp? : TokenKind → Option BinaryOp
  | equal => some .equal
  | notEqual => some .notEqual
  | lessThan => some .lessThan
  | greaterThan => some .greaterThan
  | plus => some .add
  | minus => some .subtract
  | asterisk => some .multiply
  | slash => some .divide
  | _ => none

/-- The unary operator that a token of the given kind stands for before its operand. -/
def TokenKind.unaryOp? : TokenKind → Option UnaryOp
  | bang => some .not
  | minus => some .negate
  | _ => none

/-- How tightly a token behind an expression holds it. A token that continues no expression
has the lowest level. -/
def TokenKind.precedence (kind : TokenKind) : Precedence :=
  match kind.binaryOp? with
  | some op => op.precedence
  | none => if kind = .leftParen then .call else .lowest

end LetLang
