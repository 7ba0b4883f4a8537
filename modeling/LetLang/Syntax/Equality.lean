import LetLang.Syntax.Basic

/-!
# Equality of syntax trees

Equality of trees is decidable. `Expr.beq` and its companions compare trees node by node, and
`Expr.beq_iff` states that they decide equality.
-/

namespace LetLang

variable {α : Type} [DecidableEq α]

mutual

/-- Structural comparison of expressions. -/
def Expr.beq : Expr α → Expr α → Bool
  | .callable c, .callable d => c.beq d
  | .int v, .int w => v == w
  | .bool b, .bool c => b == c
  | .unary op e, .unary op' e' => op == op' && e.beq e'
  | .binary op l r, .binary op' l' r' => op == op' && l.beq l' && r.beq r'
  | .ifThen c t, .ifThen c' t' => c.beq c' && stmtsBeq t t'
  | .ifElse c t e, .ifElse c' t' e' => c.beq c' && stmtsBeq t t' && stmtsBeq e e'
  | .call f as, .call g bs => f.beq g && exprsBeq as bs
  | _, _ => false

/-- Structural comparison of callable expressions. -/
def Callable.beq : Callable α → Callable α → Bool
  | .name x, .name y => x == y
  | .func a ps body, .func b qs body' => a == b && ps == qs && stmtsBeq body body'
  | _, _ => false

/-- Structural comparison of statements. -/
def Stmt.beq : Stmt α → Stmt α → Bool
  | .letDecl x e, .letDecl y e' => x == y && e.beq e'
  | .ret e, .ret e' => e.beq e'
  | .expr e, .expr e' => e.beq e'
  | _, _ => false

/-- Structural comparison of argument lists. -/
def exprsBeq : List (Expr α) → List (Expr α) → Bool
  | [], [] => true
  | e :: es, e' :: es' => e.beq e' && exprsBeq es es'
  | _, _ => false

/-- Structural comparison of blocks. -/
def stmtsBeq : List (Stmt α) → List (Stmt α) → Bool
  | [], [] => true
  | s :: ss, s' :: ss' => s.beq s' && stmtsBeq ss ss'
  | _, _ => false

end

mutual

/-- Comparing two expressions decides whether they are equal, by induction on the tree. -/
theorem Expr.beq_iff : (a b : Expr α) → (a.beq b = true ↔ a = b)
  | .callable c, b => by
    cases b <;> simp [Expr.beq, Callable.beq_iff c]
  | .int v, b => by
    cases b <;> simp [Expr.beq]
  | .bool v, b => by
    cases b <;> simp [Expr.beq]
  | .unary op e, b => by
    cases b <;> simp [Expr.beq, Expr.beq_iff e]
  | .binary op l r, b => by
    cases b <;> simp [Expr.beq, Expr.beq_iff l, Expr.beq_iff r, and_assoc]
  | .ifThen c t, b => by
    cases b <;> simp [Expr.beq, Expr.beq_iff c, stmtsBeq_iff t]
  | .ifElse c t e, b => by
    cases b <;> simp [Expr.beq, Expr.beq_iff c, stmtsBeq_iff t, stmtsBeq_iff e, and_assoc]
  | .call f as, b => by
    cases b <;> simp [Expr.beq, Callable.beq_iff f, exprsBeq_iff as]

theorem Callable.beq_iff : (a b : Callable α) → (a.beq b = true ↔ a = b)
  | .name x, b => by
    cases b <;> simp [Callable.beq]
  | .func label ps body, b => by
    cases b <;> simp [Callable.beq, stmtsBeq_iff body, and_assoc]

theorem Stmt.beq_iff : (a b : Stmt α) → (a.beq b = true ↔ a = b)
  | .letDecl x e, b => by
    cases b <;> simp [Stmt.beq, Expr.beq_iff e]
  | .ret e, b => by
    cases b <;> simp [Stmt.beq, Expr.beq_iff e]
  | .expr e, b => by
    cases b <;> simp [Stmt.beq, Expr.beq_iff e]

theorem exprsBeq_iff : (as bs : List (Expr α)) → (exprsBeq as bs = true ↔ as = bs)
  | [], bs => by
    cases bs <;> simp [exprsBeq]
  | e :: es, bs => by
    cases bs <;> simp [exprsBeq, Expr.beq_iff e, exprsBeq_iff es]

theorem stmtsBeq_iff : (as bs : List (Stmt α)) → (stmtsBeq as bs = true ↔ as = bs)
  | [], bs => by
    cases bs <;> simp [stmtsBeq]
  | s :: ss, bs => by
    cases bs <;> simp [stmtsBeq, Stmt.beq_iff s, stmtsBeq_iff ss]

end

instance : DecidableEq (Expr α) := fun a b => decidable_of_iff _ (a.beq_iff b)

instance : DecidableEq (Callable α) := fun a b => decidable_of_iff _ (a.beq_iff b)

instance : DecidableEq (Stmt α) := fun a b => decidable_of_iff _ (a.beq_iff b)

end LetLang
