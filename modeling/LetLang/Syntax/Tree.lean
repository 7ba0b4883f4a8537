import LetLang.Syntax.Basic
import LetLang.Syntax.Numeral

/-!
# Trees as nested lists

Every node is written as a parenthesised list that starts with the kind of the node, so the
text determines the tree.
-/

namespace LetLang

variable {α : Type}

/-- A node: its parts between parentheses, separated by spaces. -/
def node (parts : List String) : String := "(" ++ " ".intercalate parts ++ ")"

mutual

/-- The nested list of an expression. -/
def Expr.tree : Expr α → String
  | .callable c => c.tree
  | .int v => node ["int", Numeral.text v]
  | .bool b => node ["bool", if b then "true" else "false"]
  | .unary op e => node ["un", op.symbol, e.tree]
  | .binary op l r => node ["bin", op.symbol, l.tree, r.tree]
  | .ifThen c t => node ["if", c.tree, node ("block" :: stmtTrees t)]
  | .ifElse c t e => node ["if", c.tree, node ("block" :: stmtTrees t), node ("block" :: stmtTrees e)]
  | .call f args => node ("call" :: f.tree :: exprTrees args)

/-- The nested list of a callable expression. -/
def Callable.tree : Callable α → String
  | .name x => node ["id", x]
  | .func _ parameters body => node ["fn", node parameters, node ("block" :: stmtTrees body)]

/-- The nested list of a statement. -/
def Stmt.tree : Stmt α → String
  | .letDecl x e => node ["let", x, e.tree]
  | .ret e => node ["return", e.tree]
  | .expr e => node ["expr", e.tree]

/-- The nested lists of several expressions. -/
def exprTrees : List (Expr α) → List String
  | [] => []
  | e :: es => e.tree :: exprTrees es

/-- The nested lists of several statements. -/
def stmtTrees : List (Stmt α) → List String
  | [] => []
  | s :: ss => s.tree :: stmtTrees ss

end

/-- The nested list of a program. -/
def programTree (program : Program α) : String := node ("program" :: stmtTrees program)

end LetLang
