/-!
# Syntax trees

Expressions, statements and programs of the language. Only a name or a function literal can be
called, so these two form a type of their own.

A function literal carries a label of type `α`. No rule of the language reads it: it lets a
host tell two literals apart that are written alike, and is `Unit` where nobody asks.
-/

namespace LetLang

/-- Operators with one operand. -/
inductive UnaryOp where
  | not
  | negate
  deriving DecidableEq

/-- Operators with two operands. -/
inductive BinaryOp where
  | equal
  | notEqual
  | lessThan
  | greaterThan
  | add
  | subtract
  | multiply
  | divide
  deriving DecidableEq

namespace UnaryOp

/-- The spelling of an operator. -/
def symbol : UnaryOp → String
  | not => "!"
  | negate => "-"

/-- The operator of the given spelling. -/
def ofSymbol? : String → Option UnaryOp
  | "!" => some not
  | "-" => some negate
  | _ => none

/-- An operator is found by its spelling. -/
theorem ofSymbol?_symbol (op : UnaryOp) : ofSymbol? op.symbol = some op := by
  cases op <;> rfl

end UnaryOp

namespace BinaryOp

/-- The spelling of an operator. -/
def symbol : BinaryOp → String
  | equal => "=="
  | notEqual => "!="
  | lessThan => "<"
  | greaterThan => ">"
  | add => "+"
  | subtract => "-"
  | multiply => "*"
  | divide => "/"

/-- The operator of the given spelling. -/
def ofSymbol? : String → Option BinaryOp
  | "==" => some equal
  | "!=" => some notEqual
  | "<" => some lessThan
  | ">" => some greaterThan
  | "+" => some add
  | "-" => some subtract
  | "*" => some multiply
  | "/" => some divide
  | _ => none

/-- An operator is found by its spelling. -/
theorem ofSymbol?_symbol (op : BinaryOp) : ofSymbol? op.symbol = some op := by
  cases op <;> rfl

end BinaryOp

mutual

/-- Expressions. The blocks of a conditional are statements. -/
inductive Expr (α : Type) where
  | callable (c : Callable α)
  | int (v : Int64)
  | bool (b : Bool)
  | unary (op : UnaryOp) (operand : Expr α)
  | binary (op : BinaryOp) (left right : Expr α)
  | ifThen (condition : Expr α) (consequence : List (Stmt α))
  | ifElse (condition : Expr α) (consequence alternative : List (Stmt α))
  | call (callee : Callable α) (arguments : List (Expr α))

/-- Expressions that can be called: names and function literals. -/
inductive Callable (α : Type) where
  | name (x : String)
  | func (label : α) (parameters : List String) (body : List (Stmt α))

/-- Statements. -/
inductive Stmt (α : Type) where
  | letDecl (x : String) (value : Expr α)
  | ret (value : Expr α)
  | expr (e : Expr α)

end

/-- The statements between two braces. -/
abbrev Block (α : Type) := List (Stmt α)

/-- A program is a sequence of statements. -/
abbrev Program (α : Type) := List (Stmt α)

end LetLang
