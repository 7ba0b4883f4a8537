import LetLang.Syntax.Basic

/-!
# Labelled trees

Labels for the function literals of a tree: consecutive numbers from a given one on, so that
no two literals carry the same.
-/

namespace LetLang

variable {α : Type}

/-- Hands out numbers in order; the state is the next one. -/
abbrev Numbering := StateM Nat

/-- The next number. -/
def Numbering.fresh : Numbering Nat := fun n => (n, n + 1)

mutual

/-- The expression with its function literals numbered. -/
def Expr.label : Expr α → Numbering (Expr Nat)
  | .callable c => return .callable (← c.label)
  | .int v => return .int v
  | .bool b => return .bool b
  | .unary op e => return .unary op (← e.label)
  | .binary op l r => return .binary op (← l.label) (← r.label)
  | .ifThen c t => return .ifThen (← c.label) (← labelStmts t)
  | .ifElse c t e => return .ifElse (← c.label) (← labelStmts t) (← labelStmts e)
  | .call f args => return .call (← f.label) (← labelExprs args)

/-- The callable expression with its function literals numbered. -/
def Callable.label : Callable α → Numbering (Callable Nat)
  | .name x => return .name x
  | .func _ parameters body => do
    let n ← Numbering.fresh
    return .func n parameters (← labelStmts body)

/-- The statement with its function literals numbered. -/
def Stmt.label : Stmt α → Numbering (Stmt Nat)
  | .letDecl x e => return .letDecl x (← e.label)
  | .ret e => return .ret (← e.label)
  | .expr e => return .expr (← e.label)

/-- The expressions with their function literals numbered. -/
def labelExprs : List (Expr α) → Numbering (List (Expr Nat))
  | [] => return []
  | e :: es => return (← e.label) :: (← labelExprs es)

/-- The statements with their function literals numbered. -/
def labelStmts : List (Stmt α) → Numbering (List (Stmt Nat))
  | [] => return []
  | s :: ss => return (← s.label) :: (← labelStmts ss)

end

end LetLang
