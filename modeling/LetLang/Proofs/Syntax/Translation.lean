import LetLang.Syntax.Basic

/-!
# Translations of trees

A translation replaces the names and the integer literals of a tree and keeps everything else. No
source writes a negative literal: the canonical text of one is a minus sign and a numeral, and what
a parser makes of it is the translation `signless`. A renaming of all names is a translation too
(`Translation.ofNames`).
-/

set_option autoImplicit false

namespace LetLang

variable {α : Type}

/-- What stands for a name, and what for an integer literal. -/
structure Translation (α : Type) where
  name : String → String
  literal : Int64 → Expr α

namespace Translation

variable (T : Translation α)

mutual

/-- The translation of an expression. -/
def expr : Expr α → Expr α
  | .callable c => .callable (callable c)
  | .int v => T.literal v
  | .bool b => .bool b
  | .unary op e => .unary op (expr e)
  | .binary op l r => .binary op (expr l) (expr r)
  | .ifThen c t => .ifThen (expr c) (stmts t)
  | .ifElse c t u => .ifElse (expr c) (stmts t) (stmts u)
  | .call f args => .call (callable f) (exprs args)

/-- The translation of a name, or of a function literal with its parameters and its body. -/
def callable : Callable α → Callable α
  | .name x => .name (T.name x)
  | .func label parameters body => .func label (parameters.map T.name) (stmts body)

/-- The translation of a statement. -/
def stmt : Stmt α → Stmt α
  | .letDecl x e => .letDecl (T.name x) (expr e)
  | .ret e => .ret (expr e)
  | .expr e => .expr (expr e)

/-- The translations of several expressions. -/
def exprs : List (Expr α) → List (Expr α)
  | [] => []
  | e :: es => expr e :: exprs es

/-- The translations of several statements. -/
def stmts : List (Stmt α) → List (Stmt α)
  | [] => []
  | s :: ss => stmt s :: stmts ss

end

/-- The translation that replaces names only. -/
def ofNames (s : String → String) : Translation α where
  name := s
  literal := .int

end Translation

/-- The translation that writes a negative literal as a minus before the literal without it. -/
def signless : Translation α where
  name := id
  literal v := if v.toInt < 0 then .unary .negate (.int (-v)) else .int v

/-- A negative literal becomes an operation on its opposite. -/
theorem signless_of_neg {v : Int64} (h : v.toInt < 0) :
    (signless : Translation α).literal v = .unary .negate (.int (-v)) := if_pos h

theorem signless_of_nonneg {v : Int64} (h : 0 ≤ v.toInt) :
    (signless : Translation α).literal v = .int v := if_neg (Int.not_lt.2 h)

end LetLang
