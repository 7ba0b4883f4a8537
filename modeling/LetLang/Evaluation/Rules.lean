import LetLang.Evaluation.Basic

/-!
# Rules of evaluation

Operands and arguments are evaluated from left to right. Blocks of a conditional run in the
frame around them; a call runs in a frame of its own inside the frame that the function
captured.

Every evaluation takes the depth it may still use; no result depends on it.
-/

namespace LetLang

variable {α : Type}

namespace Eval

/-- The value of a callable expression: a binding, or the literal with the environment. -/
def callable (env : FrameId) : Callable α → Eval α (Value α)
  | .name x => find env x
  | .func label parameters body => pure (.func ⟨label, parameters, body, env⟩)

mutual

/-- The value of an expression in an environment. -/
def expression : Nat → FrameId → Expr α → Eval α (Value α)
  | 0, _, _ => exhausted
  | _ + 1, env, .callable c => callable env c
  | _ + 1, _, .int v => pure (.int v)
  | _ + 1, _, .bool b => pure (.bool b)
  | depth + 1, env, .unary op operand => do
    let a ← expression depth env operand
    ofExcept (op.apply a)
  | depth + 1, env, .binary op left right => do
    let a ← expression depth env left
    let b ← expression depth env right
    ofExcept (op.apply a b)
  | depth + 1, env, .ifThen condition consequence => do
    let v ← expression depth env condition
    if v.truthy then statements depth env .null consequence else pure .null
  | depth + 1, env, .ifElse condition consequence alternative => do
    let v ← expression depth env condition
    statements depth env .null (if v.truthy then consequence else alternative)
  | depth + 1, env, .call callee args => do
    let f ← callable env callee
    let vs ← arguments depth env args
    apply depth f vs

/-- The values of the arguments of a call. -/
def arguments : Nat → FrameId → List (Expr α) → Eval α (List (Value α))
  | 0, _, _ => exhausted
  | _ + 1, _, [] => pure []
  | depth + 1, env, e :: es => do
    let v ← expression depth env e
    let vs ← arguments depth env es
    pure (v :: vs)

/-- The result of a call. A `return` in the body ends there. -/
def apply : Nat → Value α → List (Value α) → Eval α (Value α)
  | 0, _, _ => exhausted
  | depth + 1, .func c, args => do
    let env ← alloc (c.frame args)
    catchReturn (statements depth env .null c.body)
  | _ + 1, v, _ => unwind (.error (.notAFunction v.kind))

/-- The value of a statement. A `let` has the value it binds. -/
def statement : Nat → FrameId → Stmt α → Eval α (Value α)
  | 0, _, _ => exhausted
  | depth + 1, env, .letDecl x e => do
    let v ← expression depth env e
    insert env x v
    pure v
  | depth + 1, env, .ret e => do
    let v ← expression depth env e
    unwind (.ret v)
  | depth + 1, env, .expr e => expression depth env e

/-- The value of the last of several statements, and of none the value `last`. -/
def statements : Nat → FrameId → Value α → List (Stmt α) → Eval α (Value α)
  | 0, _, _, _ => exhausted
  | _ + 1, _, last, [] => pure last
  | depth + 1, env, _, s :: ss => do
    let v ← statement depth env s
    statements depth env v ss

end

/-- The value of a sequence of statements in an environment: of a block, or of a whole
program. -/
def block (depth : Nat) (env : FrameId) (body : Block α) : Eval α (Value α) :=
  statements depth env .null body

end Eval

end LetLang
