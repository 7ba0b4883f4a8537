import LetLang.Evaluation.Rules

/-!
# The depth of evaluation

An evaluation that has an outcome in some depth has the same outcome in every greater depth
(`Eval.block_le`), so an outcome says nothing about the depth that was granted.
-/

namespace LetLang

variable {α : Type}

namespace Eval

variable {β γ : Type}

/-- Every outcome of `m` is an outcome of `m'`. -/
def Le (m m' : Eval α β) : Prop := ∀ h r, m h = some r → m' h = some r

namespace Le

theorem refl (m : Eval α β) : Le m m := fun _ _ h => h

theorem trans {m m' m'' : Eval α β} (h : Le m m') (h' : Le m' m'') : Le m m'' :=
  fun heap r hr => h' heap r (h heap r hr)

/-- An evaluation without depth has no outcome to keep. -/
theorem exhausted (m : Eval α β) : Le Eval.exhausted m := fun _ _ h => nomatch h

/-- A sequence keeps its outcomes if both parts do, whatever the first one hands over. -/
theorem bind {m m' : Eval α β} {f f' : β → Eval α γ} (hm : Le m m')
    (hf : ∀ b, Le (f b) (f' b)) : Le (m >>= f) (m' >>= f') := by
  intro heap r hr
  replace hr : Eval.bind m f heap = some r := hr
  show Eval.bind m' f' heap = some r
  unfold Eval.bind at hr ⊢
  cases hout : m heap with
  | none => rw [hout] at hr; cases hr
  | some out =>
    obtain ⟨value, heap'⟩ := out
    rw [hout] at hr
    rw [hm heap _ hout]
    cases value with
    | error u => exact hr
    | ok b => exact hf b heap' r hr

/-- A call keeps the outcomes of its body. -/
theorem catchReturn {m m' : Eval α (Value α)} (hm : Le m m') :
    Le (catchReturn m) (catchReturn m') := by
  intro heap r hr
  unfold Eval.catchReturn at hr ⊢
  cases hout : m heap with
  | none => rw [hout] at hr; cases hr
  | some out =>
    rw [hout] at hr
    rw [hm heap _ hout]
    exact hr

end Le

/-- Every evaluation keeps its outcomes at the next depth. -/
structure Grows (α : Type) (depth : Nat) : Prop where
  expression : ∀ env (e : Expr α), Le (expression depth env e) (Eval.expression (depth + 1) env e)
  arguments : ∀ env (es : List (Expr α)),
    Le (arguments depth env es) (Eval.arguments (depth + 1) env es)
  apply : ∀ (f : Value α) args, Le (apply depth f args) (Eval.apply (depth + 1) f args)
  statement : ∀ env (s : Stmt α), Le (statement depth env s) (Eval.statement (depth + 1) env s)
  statements : ∀ env last (ss : List (Stmt α)),
    Le (statements depth env last ss) (Eval.statements (depth + 1) env last ss)

namespace Grows

variable {depth : Nat} (ih : Grows α depth)

include ih

/-- The parts of an expression keep their outcomes, and so does what is made of their values. -/
theorem expression_succ (env : FrameId) (e : Expr α) :
    Le (Eval.expression (depth + 1) env e) (Eval.expression (depth + 2) env e) := by
  cases e with
  | callable c =>
    rw [Eval.expression, Eval.expression]
    exact .refl _
  | int v =>
    rw [Eval.expression, Eval.expression]
    exact .refl _
  | bool b =>
    rw [Eval.expression, Eval.expression]
    exact .refl _
  | unary op e =>
    rw [Eval.expression, Eval.expression]
    exact (ih.expression env e).bind fun _ => .refl _
  | binary op l r =>
    rw [Eval.expression, Eval.expression]
    exact (ih.expression env l).bind fun _ => (ih.expression env r).bind fun _ => .refl _
  | ifThen c t =>
    rw [Eval.expression, Eval.expression]
    refine (ih.expression env c).bind fun v => ?_
    split
    · exact ih.statements env .null t
    · exact .refl _
  | ifElse c t e =>
    rw [Eval.expression, Eval.expression]
    exact (ih.expression env c).bind fun _ => ih.statements env .null _
  | call f args =>
    rw [Eval.expression, Eval.expression]
    refine Le.bind (.refl _) fun v => ?_
    exact (ih.arguments env args).bind fun vs => ih.apply v vs

/-- The arguments keep their outcomes one after the other. -/
theorem arguments_succ (env : FrameId) (es : List (Expr α)) :
    Le (Eval.arguments (depth + 1) env es) (Eval.arguments (depth + 2) env es) := by
  cases es with
  | nil =>
    rw [Eval.arguments, Eval.arguments]
    exact .refl _
  | cons e es =>
    rw [Eval.arguments, Eval.arguments]
    exact (ih.expression env e).bind fun _ => (ih.arguments env es).bind fun _ => .refl _

/-- Nothing in a call depends on the depth but the body. -/
theorem apply_succ (f : Value α) (args : List (Value α)) :
    Le (Eval.apply (depth + 1) f args) (Eval.apply (depth + 2) f args) := by
  by_cases hf : ∃ c, f = .func c
  · obtain ⟨c, rfl⟩ := hf
    rw [Eval.apply, Eval.apply]
    exact Le.bind (.refl _) fun env => (ih.statements env .null c.body).catchReturn
  · have hne : ∀ c, f = .func c → False := fun c h => hf ⟨c, h⟩
    rw [Eval.apply.eq_3 _ _ _ hne, Eval.apply.eq_3 _ _ _ hne]
    exact .refl _

/-- A statement evaluates one expression and binds, returns or keeps its value. -/
theorem statement_succ (env : FrameId) (s : Stmt α) :
    Le (Eval.statement (depth + 1) env s) (Eval.statement (depth + 2) env s) := by
  cases s with
  | letDecl x e =>
    rw [Eval.statement, Eval.statement]
    exact (ih.expression env e).bind fun _ => .refl _
  | ret e =>
    rw [Eval.statement, Eval.statement]
    exact (ih.expression env e).bind fun _ => .refl _
  | expr e =>
    rw [Eval.statement, Eval.statement]
    exact ih.expression env e

/-- Each statement of a sequence keeps its outcomes, and so do those behind it. -/
theorem statements_succ (env : FrameId) (last : Value α) (ss : List (Stmt α)) :
    Le (Eval.statements (depth + 1) env last ss) (Eval.statements (depth + 2) env last ss) := by
  cases ss with
  | nil =>
    rw [Eval.statements, Eval.statements]
    exact .refl _
  | cons s ss =>
    rw [Eval.statements, Eval.statements]
    exact (ih.statement env s).bind fun v => ih.statements env v ss

end Grows

/-- Without depth there are no outcomes to keep, and each further level keeps what the one before
kept. -/
theorem grows_all : ∀ depth, Grows α depth
  | 0 =>
    { expression := fun _ _ => by rw [expression]; exact .exhausted _
      arguments := fun _ _ => by rw [arguments]; exact .exhausted _
      apply := fun _ _ => by rw [apply]; exact .exhausted _
      statement := fun _ _ => by rw [statement]; exact .exhausted _
      statements := fun _ _ _ => by rw [statements]; exact .exhausted _ }
  | depth + 1 =>
    have ih := grows_all depth
    { expression := ih.expression_succ
      arguments := ih.arguments_succ
      apply := ih.apply_succ
      statement := ih.statement_succ
      statements := ih.statements_succ }

/-- A family of evaluations that keeps its outcomes at the next depth keeps them at every
greater depth. -/
theorem le_of_le {m : Nat → Eval α β} (step : ∀ depth, Le (m depth) (m (depth + 1)))
    {depth depth' : Nat} (h : depth ≤ depth') : Le (m depth) (m depth') := by
  induction h with
  | refl => exact .refl _
  | step _ ih => exact ih.trans (step _)

section Depths

variable {depth depth' : Nat}

/-- An outcome of an expression is its outcome in every greater depth. -/
theorem expression_le (env : FrameId) (e : Expr α) (h : depth ≤ depth') :
    Le (expression depth env e) (expression depth' env e) :=
  le_of_le (fun d => (grows_all d).expression env e) h

theorem arguments_le (env : FrameId) (es : List (Expr α)) (h : depth ≤ depth') :
    Le (arguments depth env es) (arguments depth' env es) :=
  le_of_le (fun d => (grows_all d).arguments env es) h

/-- An outcome of a call is its outcome in every greater depth. -/
theorem apply_le (f : Value α) (args : List (Value α)) (h : depth ≤ depth') :
    Le (apply depth f args) (apply depth' f args) :=
  le_of_le (fun d => (grows_all d).apply f args) h

theorem statement_le (env : FrameId) (s : Stmt α) (h : depth ≤ depth') :
    Le (statement depth env s) (statement depth' env s) :=
  le_of_le (fun d => (grows_all d).statement env s) h

theorem statements_le (env : FrameId) (last : Value α) (ss : List (Stmt α)) (h : depth ≤ depth') :
    Le (statements depth env last ss) (statements depth' env last ss) :=
  le_of_le (fun d => (grows_all d).statements env last ss) h

end Depths

/-- An outcome of a block is its outcome in every greater depth. -/
theorem block_le {depth depth' : Nat} (h : depth ≤ depth') (env : FrameId) (body : Block α) :
    Le (block depth env body) (block depth' env body) :=
  statements_le env .null body h

end Eval

end LetLang
