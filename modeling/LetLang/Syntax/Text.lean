import LetLang.Syntax.Basic
import LetLang.Syntax.Numeral

/-!
# The canonical text of a tree

Every operator stands in parentheses of its own with its operands, so the text shows how an
expression is grouped. A conditional and a function literal are followed by their blocks
without parentheses.
-/

namespace LetLang

variable {α : Type}

/-- Texts separated by a comma and a space. -/
def commaSeparated (texts : List String) : String := ", ".intercalate texts

/-- A text between braces. -/
def braced (inner : String) : String := "\x7b" ++ inner ++ "\x7d"

mutual

/-- The text of an expression. -/
def Expr.text : Expr α → String
  | .callable c => c.text
  | .int v => Numeral.text v
  | .bool b => if b then "true" else "false"
  | .unary op e => "(" ++ op.symbol ++ e.text ++ ")"
  | .binary op l r => "(" ++ l.text ++ " " ++ op.symbol ++ " " ++ r.text ++ ")"
  | .ifThen c t => "if " ++ c.text ++ " " ++ braced (String.join (stmtTexts t))
  | .ifElse c t e =>
      "if " ++ c.text ++ " " ++ braced (String.join (stmtTexts t)) ++ " else "
        ++ braced (String.join (stmtTexts e))
  | .call f args => f.text ++ "(" ++ commaSeparated (exprTexts args) ++ ")"

/-- The text of a callable expression. -/
def Callable.text : Callable α → String
  | .name x => x
  | .func _ parameters body =>
      "fn(" ++ commaSeparated parameters ++ ") " ++ braced (String.join (stmtTexts body))

/-- The text of a statement. -/
def Stmt.text : Stmt α → String
  | .letDecl x e => "let " ++ x ++ " = " ++ e.text ++ ";"
  | .ret e => "return " ++ e.text ++ ";"
  | .expr e => e.text ++ ";"

/-- The texts of several expressions. -/
def exprTexts : List (Expr α) → List String
  | [] => []
  | e :: es => e.text :: exprTexts es

/-- The texts of several statements. -/
def stmtTexts : List (Stmt α) → List String
  | [] => []
  | s :: ss => s.text :: stmtTexts ss

end

theorem exprTexts_eq_map (es : List (Expr α)) : exprTexts es = es.map Expr.text := by
  induction es with
  | nil => rfl
  | cons e es ih => simp [exprTexts, ih]

theorem stmtTexts_eq_map (ss : List (Stmt α)) : stmtTexts ss = ss.map Stmt.text := by
  induction ss with
  | nil => rfl
  | cons s ss ih => simp [stmtTexts, ih]

/-- The text of a block: its statements between braces, with nothing between them. -/
def blockText (body : Block α) : String := braced (String.join (stmtTexts body))

/-- The text of a program: each statement on a line of its own. -/
def programText (program : Program α) : String :=
  String.join ((stmtTexts program).map (· ++ "\n"))

end LetLang
