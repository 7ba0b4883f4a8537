import LetLang.Evaluation.Rules
import Mathlib

/-!
# Nodes

Whatever can be evaluated by itself: an expression, a statement, or the statements of a block or a
program.
-/

set_option autoImplicit false

namespace LetLang

variable {α : Type}

/-- A part of a tree that has a value in an environment. -/
inductive Node (α : Type) where
  | expr (e : Expr α)
  | stmt (s : Stmt α)
  | block (body : Block α)

/-- The value of a node in an environment. -/
def Node.eval (depth : Nat) (env : FrameId) : Node α → Eval α (Value α)
  | .expr e => Eval.expression depth env e
  | .stmt s => Eval.statement depth env s
  | .block body => Eval.block depth env body

/-! ## Names that a node binds -/

mutual

/-- The names that `let` binds in an expression outside its function literals. -/
def Expr.lets : Expr α → List String
  | .callable _ => []
  | .int _ => []
  | .bool _ => []
  | .unary _ e => e.lets
  | .binary _ l r => l.lets ++ r.lets
  | .ifThen c t => c.lets ++ stmtsLets t
  | .ifElse c t u => c.lets ++ (stmtsLets t ++ stmtsLets u)
  | .call _ args => exprsLets args

/-- The names that `let` binds in a statement outside its function literals. -/
def Stmt.lets : Stmt α → List String
  | .letDecl x e => x :: e.lets
  | .ret e => e.lets
  | .expr e => e.lets

def exprsLets : List (Expr α) → List String
  | [] => []
  | e :: es => e.lets ++ exprsLets es

def stmtsLets : List (Stmt α) → List String
  | [] => []
  | s :: ss => s.lets ++ stmtsLets ss

end

/-- The names that `let` binds in a node outside its function literals. -/
def Node.lets : Node α → List String
  | .expr e => e.lets
  | .stmt s => s.lets
  | .block body => stmtsLets body

end LetLang
