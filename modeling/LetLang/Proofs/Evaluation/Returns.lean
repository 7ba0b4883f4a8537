import LetLang.Proofs.Evaluation.Node

/-!
# How far a `return` goes

A `return` unwinds what is evaluated around it up to the call in whose body it stands, and there its
value becomes the value of the call. So a call never unwinds by a `return`, whatever its body holds,
and an evaluation does so only if its node has a `return` outside its function literals
(`Eval.settles_all`). The bodies that are called come from the heap, about which nothing is assumed.
-/

set_option autoImplicit false

namespace LetLang

variable {α β γ : Type}

/-! ## Nodes without a `return` of their own -/

mutual

/-- No `return` stands in the expression outside its function literals. -/
def Expr.ReturnFree : Expr α → Prop
  | .callable _ => True
  | .int _ => True
  | .bool _ => True
  | .unary _ e => e.ReturnFree
  | .binary _ l r => l.ReturnFree ∧ r.ReturnFree
  | .ifThen c t => c.ReturnFree ∧ StmtsReturnFree t
  | .ifElse c t u => c.ReturnFree ∧ StmtsReturnFree t ∧ StmtsReturnFree u
  | .call _ args => ExprsReturnFree args

/-- The statement is no `return` and has none outside its function literals. -/
def Stmt.ReturnFree : Stmt α → Prop
  | .letDecl _ e => e.ReturnFree
  | .ret _ => False
  | .expr e => e.ReturnFree

def ExprsReturnFree : List (Expr α) → Prop
  | [] => True
  | e :: es => e.ReturnFree ∧ ExprsReturnFree es

def StmtsReturnFree : List (Stmt α) → Prop
  | [] => True
  | s :: ss => s.ReturnFree ∧ StmtsReturnFree ss

end

/-- No `return` stands in the node outside its function literals. -/
def Node.ReturnFree : Node α → Prop
  | .expr e => e.ReturnFree
  | .stmt s => s.ReturnFree
  | .block body => StmtsReturnFree body

namespace Eval

/-! ## Evaluations that end with a result or an error -/

/-- A result, or an error in its place. -/
def Settled (r : Except (Unwind α) β) : Prop := (∃ b, r = .ok b) ∨ ∃ e, r = .error (.error e)

/-- No run of the evaluation unwinds by a `return`. -/
def Settles (m : Eval α β) : Prop := ∀ h r k, m h = some (r, k) → Settled r

namespace Settles

variable {m : Eval α β} {f : β → Eval α γ}

theorem exhausted : Settles (exhausted : Eval α β) := by
  intro h r k hrun
  cases hrun

theorem pure (b : β) : Settles (Pure.pure b : Eval α β) := by
  intro h r k hrun
  cases hrun
  exact .inl ⟨b, rfl⟩

theorem error (e : EvalError) : Settles (unwind (.error e) : Eval α β) := by
  intro h r k hrun
  cases hrun
  exact .inr ⟨e, rfl⟩

theorem ofExcept (r : Except EvalError β) : Settles (ofExcept r : Eval α β) := by
  cases r with
  | ok b => exact pure b
  | error e => exact error e

/-- A sequence does not unwind by a `return` if neither part does. -/
theorem bind (hm : Settles m) (hf : ∀ b, Settles (f b)) : Settles (m >>= f) := by
  intro h r k hrun
  replace hrun : Eval.bind m f h = some (r, k) := hrun
  rw [Eval.bind] at hrun
  split at hrun
  · cases hrun
  · next u h' hmid =>
    cases hrun
    -- What the first part unwinds by, both do.
    rcases hm h _ k hmid with ⟨b, hb⟩ | ⟨e, he⟩
    · cases hb
    · cases he
      exact .inr ⟨e, rfl⟩
  · next b h' hmid => exact hf b h' r k hrun

/-- Whatever `m` does, no `return` passes. -/
theorem catchReturn (m : Eval α (Value α)) : Settles (catchReturn m) := by
  intro h r k hrun
  rw [Eval.catchReturn] at hrun
  split at hrun
  · next v h' hmid =>
    cases hrun
    exact .inl ⟨v, rfl⟩
  · next hother =>
    rcases r with (_ | e) | v
    · next v => exact absurd hrun (hother v k)
    · exact .inr ⟨e, rfl⟩
    · exact .inl ⟨v, rfl⟩

theorem callable (env : FrameId) (c : Callable α) : Settles (callable env c) := by
  cases c with
  | func label xs body => exact pure _
  | name x =>
    intro h r k hrun
    rw [Eval.callable, find] at hrun
    split at hrun
    · next v hfind =>
      cases hrun
      exact .inl ⟨v, rfl⟩
    · cases hrun
      exact .inr ⟨.unboundName x, rfl⟩

theorem insert (env : FrameId) (x : String) (v : Value α) : Settles (insert env x v) := by
  intro h r k hrun
  cases hrun
  exact .inl ⟨(), rfl⟩

theorem alloc (f : Frame α) : Settles (alloc f) := by
  intro h r k hrun
  cases hrun
  exact .inl ⟨_, rfl⟩

end Settles

/-! ## Evaluations of nodes without a `return` -/

/-- In some depth, evaluations of nodes without a `return` end with a result or an error, and so
does every call. -/
structure SettlesAll (α : Type) (depth : Nat) : Prop where
  expression : ∀ env (e : Expr α), e.ReturnFree → Settles (expression depth env e)
  arguments : ∀ env (es : List (Expr α)), ExprsReturnFree es → Settles (arguments depth env es)
  apply : ∀ (f : Value α) args, Settles (apply depth f args)
  statement : ∀ env (s : Stmt α), s.ReturnFree → Settles (statement depth env s)
  statements : ∀ env last (ss : List (Stmt α)), StmtsReturnFree ss →
    Settles (statements depth env last ss)

namespace SettlesAll

variable {depth : Nat} (ih : SettlesAll α depth)

include ih

/-- The parts of an expression without a `return` have none, and every call settles. -/
theorem expression_succ (env : FrameId) (e : Expr α) (hfree : e.ReturnFree) :
    Settles (Eval.expression (depth + 1) env e) := by
  cases e with
  | callable c =>
    rw [Eval.expression]
    exact .callable env c
  | int v =>
    rw [Eval.expression]
    exact .pure _
  | bool b =>
    rw [Eval.expression]
    exact .pure _
  | unary op e =>
    rw [Eval.expression]
    exact .bind (ih.expression env e hfree) fun _ => .ofExcept _
  | binary op l r =>
    obtain ⟨hl, hr⟩ := hfree
    rw [Eval.expression]
    refine .bind (ih.expression env l hl) fun _ => ?_
    exact .bind (ih.expression env r hr) fun _ => .ofExcept _
  | ifThen c t =>
    obtain ⟨hc, ht⟩ := hfree
    rw [Eval.expression]
    refine .bind (ih.expression env c hc) fun v => ?_
    split
    · exact ih.statements env .null t ht
    · exact .pure _
  | ifElse c t u =>
    obtain ⟨hc, ht, hu⟩ := hfree
    rw [Eval.expression]
    refine .bind (ih.expression env c hc) fun v => ?_
    split
    · exact ih.statements env .null t ht
    · exact ih.statements env .null u hu
  | call f args =>
    -- The arguments have no `return`, and what the body returns does not leave the call.
    rw [Eval.expression]
    refine .bind (.callable env f) fun v => ?_
    exact .bind (ih.arguments env args hfree) fun vs => ih.apply v vs

theorem arguments_succ (env : FrameId) (es : List (Expr α)) (hfree : ExprsReturnFree es) :
    Settles (Eval.arguments (depth + 1) env es) := by
  cases es with
  | nil =>
    rw [Eval.arguments]
    exact .pure _
  | cons e es =>
    obtain ⟨he, hes⟩ := hfree
    rw [Eval.arguments]
    refine .bind (ih.expression env e he) fun _ => ?_
    exact .bind (ih.arguments env es hes) fun _ => .pure _

omit ih in
/-- The body of a function may hold any number of `return`s. -/
theorem apply_succ (f : Value α) (args : List (Value α)) :
    Settles (Eval.apply (depth + 1) f args) := by
  by_cases hf : ∃ c, f = .func c
  · obtain ⟨c, rfl⟩ := hf
    rw [Eval.apply]
    exact .bind (.alloc _) fun _ => .catchReturn _
  · rw [Eval.apply.eq_3 _ _ _ fun c hc => hf ⟨c, hc⟩]
    exact .error _

/-- The only statement that returns by itself is a `return`. -/
theorem statement_succ (env : FrameId) (s : Stmt α) (hfree : s.ReturnFree) :
    Settles (Eval.statement (depth + 1) env s) := by
  cases s with
  | letDecl x e =>
    rw [Eval.statement]
    refine .bind (ih.expression env e hfree) fun v => ?_
    exact .bind (.insert env x v) fun _ => .pure _
  | ret e => exact absurd hfree id
  | expr e =>
    rw [Eval.statement]
    exact ih.expression env e hfree

theorem statements_succ (env : FrameId) (last : Value α) (ss : List (Stmt α))
    (hfree : StmtsReturnFree ss) : Settles (Eval.statements (depth + 1) env last ss) := by
  cases ss with
  | nil =>
    rw [Eval.statements]
    exact .pure _
  | cons s ss =>
    obtain ⟨hs, hss⟩ := hfree
    rw [Eval.statements]
    exact .bind (ih.statement env s hs) fun v => ih.statements env v ss hss

end SettlesAll

/-- Without depth there is no run, and each further level settles if its parts do. -/
theorem settles_all : ∀ depth, SettlesAll α depth
  | 0 =>
    { expression := fun _ _ _ => by rw [expression]; exact .exhausted
      arguments := fun _ _ _ => by rw [arguments]; exact .exhausted
      apply := fun _ _ => by rw [apply]; exact .exhausted
      statement := fun _ _ _ => by rw [statement]; exact .exhausted
      statements := fun _ _ _ _ => by rw [statements]; exact .exhausted }
  | depth + 1 =>
    have ih := settles_all depth
    { expression := ih.expression_succ
      arguments := ih.arguments_succ
      apply := SettlesAll.apply_succ
      statement := ih.statement_succ
      statements := ih.statements_succ }

/-- A call whose body unwinds by a `return` has the returned value. -/
theorem apply_of_return {c : Closure α} {args : List (Value α)} {depth : Nat} {h k : Heap α}
    {v : Value α} (hbody : block depth (h.alloc (c.frame args)).1 c.body (h.alloc (c.frame args)).2 =
      some (.error (.ret v), k)) :
    apply (depth + 1) (.func c) args h = some (.ok v, k) := by
  rw [apply]
  show catchReturn (block depth (h.alloc (c.frame args)).1 c.body) (h.alloc (c.frame args)).2 = _
  rw [catchReturn, hbody]

end Eval

/-- A node without a `return` of its own ends with a value or an error. -/
theorem Node.settles (node : Node α) (hfree : node.ReturnFree) (depth : Nat) (env : FrameId) :
    Eval.Settles (node.eval depth env) := by
  cases node with
  | expr e => exact (Eval.settles_all depth).expression env e hfree
  | stmt s => exact (Eval.settles_all depth).statement env s hfree
  | block body => exact (Eval.settles_all depth).statements env .null body hfree

/-- A `return` escapes exactly one call. A node without a `return` outside its function literals
ends with a value or an error in every heap, and so does every call of whatever value. If the body
of a call unwinds by a `return`, then the call ends there with the value that is returned. -/
theorem return_escapes_one_call (α : Type) :
    (∀ node : Node α, node.ReturnFree → ∀ (depth : Nat) (env : FrameId) (h k : Heap α)
      (r : Except (Unwind α) (Value α)), node.eval depth env h = some (r, k) →
      (∃ v, r = .ok v) ∨ ∃ e, r = .error (.error e)) ∧
    (∀ (f : Value α) (args : List (Value α)) (depth : Nat) (h k : Heap α)
      (r : Except (Unwind α) (Value α)), Eval.apply depth f args h = some (r, k) →
      (∃ v, r = .ok v) ∨ ∃ e, r = .error (.error e)) ∧
    ∀ (c : Closure α) (args : List (Value α)) (depth : Nat) (h k : Heap α) (v : Value α),
      Eval.block depth (h.alloc (c.frame args)).1 c.body (h.alloc (c.frame args)).2 =
        some (.error (.ret v), k) →
      Eval.apply (depth + 1) (.func c) args h = some (.ok v, k) := by
  refine ⟨fun node hfree depth env h k r hrun => ?_, fun f args depth h k r hrun => ?_, ?_⟩
  · exact node.settles hfree depth env h r k hrun
  · exact (Eval.settles_all depth).apply f args h r k hrun
  · intro c args depth h k v hbody
    exact Eval.apply_of_return hbody

/-- A frame that binds `f` to the function `fn() {return 1;}`, and behind it some frames of calls.
-/
def returner (calls : Nat) : Heap Unit :=
  ⟨(⟨[("f", .func ⟨(), [], [.ret (.int 1)], 0⟩)], none⟩ ::
    List.replicate calls ⟨[], some 0⟩).toArray⟩

/-- The conditional `if (f()) {f();}` calls `f` in its condition and in its block. The function
`fn() {if (true) {return f();}}` returns the value of a call that has returned. -/
theorem return_escapes_one_call_nested :
    (∃ r k, (Node.expr (.ifThen (.call (.name "f") []) [.expr (.call (.name "f") [])])).eval 8 0
        (returner 0) = some (r, k) ∧ ((∃ v, r = .ok v) ∨ ∃ e, r = .error (.error e))) ∧
    Eval.apply 11 (.func ⟨(), [], [.expr (.ifThen (.bool true) [.ret (.call (.name "f") [])])], 0⟩) []
      (returner 0) = some (.ok (.int 1), returner 2) := by
  constructor
  · have hfree : (Node.expr (.ifThen (.call (.name "f") []) [.expr (.call (.name "f") [])]) :
        Node Unit).ReturnFree := ⟨trivial, trivial, trivial⟩
    have hrun : (Node.expr (.ifThen (.call (.name "f") []) [.expr (.call (.name "f") [])])).eval 8 0
        (returner 0) = some (.ok (.int 1), returner 2) := by cbv
    exact ⟨_, _, hrun, (return_escapes_one_call Unit).1 _ hfree _ _ _ _ _ hrun⟩
  · have hbody : Eval.block 10 1 [.expr (.ifThen (.bool true) [.ret (.call (.name "f") [])])]
        (returner 1) = some (.error (.ret (.int 1)), returner 2) := by cbv
    exact (return_escapes_one_call Unit).2.2
      ⟨(), [], [.expr (.ifThen (.bool true) [.ret (.call (.name "f") [])])], 0⟩ [] 10 (returner 0) _ _
      hbody

end LetLang
