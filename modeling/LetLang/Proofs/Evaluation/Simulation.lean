import LetLang.Proofs.Evaluation.Node
import LetLang.Proofs.Heap.CallFrame

/-!
# Simulations

Two runs of one node on different heaps go alike as long as they read alike. A `Simulation` relates
the frames of two heaps so that all an evaluation does with a heap respects the relation: looking a
name up, binding a name, and making a frame. Then evaluating a node in related environments ends in
both heaps or in neither, with related outcomes, and relates the heaps that are left
(`Simulation.matches_eval`).
-/

set_option autoImplicit false

namespace LetLang

variable {α β γ δ ε : Type}

/-! ## Relations on data -/

/-- Values that differ at most in the frames that functions captured. -/
inductive Value.Related (envs : FrameId → FrameId → Prop) : Value α → Value α → Prop
  | int (v : Int64) : Related envs (.int v) (.int v)
  | bool (b : Bool) : Related envs (.bool b) (.bool b)
  | null : Related envs .null .null
  | func {label : α} {parameters : List String} {body : Block α} {e e' : FrameId} :
      envs e e' →
      Related envs (.func ⟨label, parameters, body, e⟩) (.func ⟨label, parameters, body, e'⟩)

/-- Reasons to unwind that differ at most in the frames that a returned function captured. -/
inductive Unwind.Related (envs : FrameId → FrameId → Prop) : Unwind α → Unwind α → Prop
  | ret {v v' : Value α} : v.Related envs v' → Related envs (.ret v) (.ret v')
  | error (e : EvalError) : Related envs (.error e) (.error e)

/-- Frames inside related frames, with related values under each name. -/
structure Frame.Related (envs : FrameId → FrameId → Prop) (f f' : Frame α) : Prop where
  outer : Option.Rel envs f.outer f'.outer
  bindings : ∀ x, Option.Rel (Value.Related envs) (f.bindings.find? x) (f'.bindings.find? x)

namespace Value.Related

variable {envs : FrameId → FrameId → Prop} {a a' b b' : Value α}

/-- Whether a condition holds does not depend on captured frames. -/
theorem truthy_eq (h : a.Related envs a') : a.truthy = a'.truthy := by
  cases h <;> rfl

/-- An operator does not see which frames its operands captured. -/
theorem unary_eq (op : UnaryOp) (h : a.Related envs a') : op.apply a = op.apply a' := by
  cases op with
  | not => rw [UnaryOp.apply, UnaryOp.apply, h.truthy_eq]
  | negate => cases h <;> rfl

/-- Neither does an operator between two operands. -/
theorem binary_eq (op : BinaryOp) (h : a.Related envs a') (h' : b.Related envs b') :
    op.apply a b = op.apply a' b' := by
  cases h <;> cases h' <;> cases op <;> rfl

/-- The result of an operator is no function. -/
theorem unary_result {op : UnaryOp} (h : op.apply a = .ok b) : b.Related envs b := by
  cases op with
  | not =>
    cases h
    exact .bool _
  | negate =>
    cases a with
    | int v =>
      cases h
      exact .int _
    | _ => cases h

theorem applyInt_result {op : BinaryOp} {v w : Int64} (h : op.applyInt v w = .ok b) :
    b.Related envs b := by
  cases op with
  | add | subtract | multiply =>
    cases h
    exact .int _
  | divide =>
    rw [BinaryOp.applyInt] at h
    split at h
    · cases h
    · cases h
      exact .int _
  | _ =>
    cases h
    exact .bool _

/-- The result of an operator between two operands captures nothing either. -/
theorem binary_result {op : BinaryOp} {r : Value α} (h : op.apply a b = .ok r) :
    r.Related envs r := by
  unfold BinaryOp.apply at h
  split at h
  · cases h
  · split at h
    · exact applyInt_result h
    · cases h
      exact .bool _
    · cases h
      exact .bool _
    · cases h

end Value.Related

namespace Frame.Related

variable {envs : FrameId → FrameId → Prop} {f f' : Frame α}

/-- Related values may be bound to one name in related frames. -/
theorem insert (h : f.Related envs f') (x : String) {v v' : Value α} (hv : v.Related envs v') :
    (f.insert x v).Related envs (f'.insert x v') := by
  refine ⟨h.outer, fun y => ?_⟩
  rw [Frame.insert, Frame.insert, Bindings.find?_insert, Bindings.find?_insert]
  split
  · exact .some hv
  · exact h.bindings y

/-- Related arguments make related frames of calls. -/
theorem closure_frame {c : Closure α} {e : FrameId} {args args' : List (Value α)}
    (he : envs c.env e) (hargs : List.Forall₂ (Value.Related envs) args args') :
    (c.frame args).Related envs (Closure.frame { c with env := e } args') := by
  have hsame : List.Forall₂ Eq c.parameters c.parameters := List.forall₂_same.2 fun _ _ => rfl
  refine Closure.frame_rel ?_ ⟨.some he, fun x => .none⟩ hsame hargs
  rintro f f' x _ v v' hf rfl hv
  exact hf.insert x hv

end Frame.Related

/-! ## Simulations -/

/-- A relation of frames, and one of heaps that is kept by everything an evaluation does. -/
structure Simulation (α : Type) where
  envs : FrameId → FrameId → Prop
  heaps : Heap α → Heap α → Prop
  find? : ∀ {h h' : Heap α} {e e' : FrameId}, heaps h h' → envs e e' →
    ∀ x, Option.Rel (Value.Related envs) (h.find? e x) (h'.find? e' x)
  insert : ∀ {h h' : Heap α} {e e' : FrameId} {v v' : Value α}, heaps h h' → envs e e' →
    v.Related envs v' → ∀ x, heaps (h.insert e x v) (h'.insert e' x v')
  alloc : ∀ {h h' : Heap α} {f f' : Frame α}, heaps h h' → f.Related envs f' →
    envs (h.alloc f).1 (h'.alloc f').1 ∧ heaps (h.alloc f).2 (h'.alloc f').2

/-- How two runs end alike: both without an outcome, or both with related ones. -/
inductive Simulation.Outcomes (S : Simulation α) (V : β → γ → Prop) :
    Option (Except (Unwind α) β × Heap α) → Option (Except (Unwind α) γ × Heap α) → Prop
  | none : Outcomes S V none none
  | ok {b : β} {c : γ} {h h' : Heap α} :
      V b c → S.heaps h h' → Outcomes S V (some (.ok b, h)) (some (.ok c, h'))
  | unwind {u u' : Unwind α} {h h' : Heap α} :
      u.Related S.envs u' → S.heaps h h' →
      Outcomes S V (some (.error u, h)) (some (.error u', h'))

/-- Runs of two evaluations on related heaps end alike. -/
def Simulation.Matches (S : Simulation α) (V : β → γ → Prop) (m : Eval α β) (m' : Eval α γ) :
    Prop :=
  ∀ h h', S.heaps h h' → S.Outcomes V (m h) (m' h')

namespace Simulation.Matches

variable {S : Simulation α} {V : β → γ → Prop} {W : δ → ε → Prop} {m : Eval α β} {m' : Eval α γ}

theorem exhausted : S.Matches V Eval.exhausted Eval.exhausted := by
  intro h h' _
  exact .none

theorem pure {b : β} {c : γ} (hv : V b c) : S.Matches V (Pure.pure b) (Pure.pure c) := by
  intro h h' hh
  exact .ok hv hh

/-- Runs that unwind must do so for related reasons. -/
theorem unwind {u u' : Unwind α} (hu : u.Related S.envs u') :
    S.Matches V (Eval.unwind u) (Eval.unwind u') := by
  intro h h' hh
  exact .unwind hu hh

/-- The results of operators are related to themselves. -/
theorem ofExcept {r : Except EvalError (Value α)}
    (hr : ∀ v, r = .ok v → v.Related S.envs v) :
    S.Matches (Value.Related S.envs) (Eval.ofExcept r) (Eval.ofExcept r) := by
  cases r with
  | ok v => exact pure (hr v rfl)
  | error e => exact unwind (.error e)

/-- If the first evaluations go alike, and from related results the second ones do, then so do the
wholes. -/
theorem bind {f : β → Eval α δ} {f' : γ → Eval α ε} (hm : S.Matches V m m')
    (hf : ∀ b c, V b c → S.Matches W (f b) (f' c)) : S.Matches W (m >>= f) (m' >>= f') := by
  intro h h' hh
  show S.Outcomes W (Eval.bind m f h) (Eval.bind m' f' h')
  unfold Eval.bind
  have houtcomes := hm h h' hh
  revert houtcomes
  generalize m h = out
  generalize m' h' = out'
  rintro (_ | ⟨hv, hh'⟩ | ⟨hu, hh'⟩)
  · exact .none
  · exact hf _ _ hv _ _ hh'
  · exact .unwind hu hh'

/-- Related values that are returned become related values of calls. -/
theorem catchReturn {m m' : Eval α (Value α)} (hm : S.Matches (Value.Related S.envs) m m') :
    S.Matches (Value.Related S.envs) (Eval.catchReturn m) (Eval.catchReturn m') := by
  intro h h' hh
  unfold Eval.catchReturn
  have houtcomes := hm h h' hh
  revert houtcomes
  generalize m h = out
  generalize m' h' = out'
  rintro (_ | ⟨hv, hh'⟩ | ⟨hu, hh'⟩)
  · exact .none
  · exact .ok hv hh'
  · cases hu with
    | ret hv => exact .ok hv hh'
    | error e => exact .unwind (.error e) hh'

/-- Lookup in related environments finds related values, or nothing in both heaps. -/
theorem find {e e' : FrameId} (he : S.envs e e') (x : String) :
    S.Matches (Value.Related S.envs) (Eval.find e x) (Eval.find e' x) := by
  intro h h' hh
  unfold Eval.find
  have hfind := S.find? hh he x
  revert hfind
  generalize h.find? e x = found
  generalize h'.find? e' x = found'
  rintro (hv | _)
  · exact .ok hv hh
  · exact .unwind (.error _) hh

/-- Function literals capture related environments. -/
theorem callable {e e' : FrameId} (he : S.envs e e') (c : Callable α) :
    S.Matches (Value.Related S.envs) (Eval.callable e c) (Eval.callable e' c) := by
  cases c with
  | name x => exact find he x
  | func label xs body => exact pure (.func he)

theorem insert {e e' : FrameId} {v v' : Value α} (he : S.envs e e') (hv : v.Related S.envs v')
    (x : String) : S.Matches Eq (Eval.insert e x v) (Eval.insert e' x v') := by
  intro h h' hh
  exact .ok rfl (S.insert hh he hv x)

/-- Related new frames have related names. -/
theorem alloc {f f' : Frame α} (hf : f.Related S.envs f') :
    S.Matches S.envs (Eval.alloc f) (Eval.alloc f') := by
  intro h h' hh
  obtain ⟨henvs, hheaps⟩ := S.alloc hh hf
  exact .ok henvs hheaps

end Simulation.Matches

/-! ## Evaluation -/

/-- In some depth, all evaluations in related environments end alike. -/
structure Simulation.MatchesAll (S : Simulation α) (depth : Nat) : Prop where
  expression : ∀ {env env'}, S.envs env env' → ∀ e : Expr α,
    S.Matches (Value.Related S.envs) (Eval.expression depth env e) (Eval.expression depth env' e)
  arguments : ∀ {env env'}, S.envs env env' → ∀ es : List (Expr α),
    S.Matches (List.Forall₂ (Value.Related S.envs)) (Eval.arguments depth env es)
      (Eval.arguments depth env' es)
  apply : ∀ {f f' : Value α} {args args' : List (Value α)}, f.Related S.envs f' →
    List.Forall₂ (Value.Related S.envs) args args' →
    S.Matches (Value.Related S.envs) (Eval.apply depth f args) (Eval.apply depth f' args')
  statement : ∀ {env env'}, S.envs env env' → ∀ s : Stmt α,
    S.Matches (Value.Related S.envs) (Eval.statement depth env s) (Eval.statement depth env' s)
  statements : ∀ {env env' last last'}, S.envs env env' → Value.Related S.envs last last' →
    ∀ ss : List (Stmt α), S.Matches (Value.Related S.envs) (Eval.statements depth env last ss)
      (Eval.statements depth env' last' ss)

namespace Simulation.MatchesAll

variable {S : Simulation α} {depth : Nat} (ih : S.MatchesAll depth) {env env' : FrameId}

include ih

/-- The parts of an expression go alike, and operators do not tell related values apart. -/
theorem expression_succ (henv : S.envs env env') (e : Expr α) :
    S.Matches (Value.Related S.envs) (Eval.expression (depth + 1) env e)
      (Eval.expression (depth + 1) env' e) := by
  cases e with
  | callable c =>
    rw [Eval.expression, Eval.expression]
    exact .callable henv c
  | int v =>
    rw [Eval.expression, Eval.expression]
    exact .pure (.int v)
  | bool b =>
    rw [Eval.expression, Eval.expression]
    exact .pure (.bool b)
  | unary op e =>
    rw [Eval.expression, Eval.expression]
    refine .bind (ih.expression henv e) fun a a' ha => ?_
    -- Operators have equal results on related operands, and none of them is a function.
    rw [ha.unary_eq op]
    exact .ofExcept fun _ hr => Value.Related.unary_result hr
  | binary op l r =>
    rw [Eval.expression, Eval.expression]
    refine .bind (ih.expression henv l) fun a a' ha => ?_
    refine .bind (ih.expression henv r) fun b b' hb => ?_
    rw [ha.binary_eq op hb]
    exact .ofExcept fun _ hr => Value.Related.binary_result hr
  | ifThen c t =>
    rw [Eval.expression, Eval.expression]
    refine .bind (ih.expression henv c) fun v v' hv => ?_
    rw [hv.truthy_eq]
    split
    · exact ih.statements henv .null t
    · exact .pure .null
  | ifElse c t u =>
    rw [Eval.expression, Eval.expression]
    refine .bind (ih.expression henv c) fun v v' hv => ?_
    rw [hv.truthy_eq]
    exact ih.statements henv .null _
  | call f args =>
    rw [Eval.expression, Eval.expression]
    refine .bind (.callable henv f) fun v v' hv => ?_
    exact .bind (ih.arguments henv args) fun vs vs' hvs => ih.apply hv hvs

theorem arguments_succ (henv : S.envs env env') (es : List (Expr α)) :
    S.Matches (List.Forall₂ (Value.Related S.envs)) (Eval.arguments (depth + 1) env es)
      (Eval.arguments (depth + 1) env' es) := by
  cases es with
  | nil =>
    rw [Eval.arguments, Eval.arguments]
    exact .pure .nil
  | cons e es =>
    rw [Eval.arguments, Eval.arguments]
    refine .bind (ih.expression henv e) fun v v' hv => ?_
    exact .bind (ih.arguments henv es) fun vs vs' hvs => .pure (.cons hv hvs)

/-- Calls of related functions run in frames that are new in both heaps. -/
theorem apply_succ {f f' : Value α} {args args' : List (Value α)} (hf : f.Related S.envs f')
    (hargs : List.Forall₂ (Value.Related S.envs) args args') :
    S.Matches (Value.Related S.envs) (Eval.apply (depth + 1) f args)
      (Eval.apply (depth + 1) f' args') := by
  cases hf with
  | func he =>
    rw [Eval.apply, Eval.apply]
    -- From here on the bodies run in frames that are related by being new.
    refine .bind (.alloc (.closure_frame he hargs)) fun e e' henv => ?_
    exact .catchReturn (ih.statements henv .null _)
  | _ =>
    rw [Eval.apply.eq_3 _ _ _ (by intro c hc; cases hc),
      Eval.apply.eq_3 _ _ _ (by intro c hc; cases hc)]
    exact .unwind (.error _)

/-- A `let` binds related values in related environments. -/
theorem statement_succ (henv : S.envs env env') (s : Stmt α) :
    S.Matches (Value.Related S.envs) (Eval.statement (depth + 1) env s)
      (Eval.statement (depth + 1) env' s) := by
  cases s with
  | letDecl x e =>
    rw [Eval.statement, Eval.statement]
    refine .bind (ih.expression henv e) fun v v' hv => ?_
    exact .bind (.insert henv hv x) fun _ _ _ => .pure hv
  | ret e =>
    rw [Eval.statement, Eval.statement]
    exact .bind (ih.expression henv e) fun v v' hv => .unwind (.ret hv)
  | expr e =>
    rw [Eval.statement, Eval.statement]
    exact ih.expression henv e

theorem statements_succ {last last' : Value α} (henv : S.envs env env')
    (hlast : last.Related S.envs last') (ss : List (Stmt α)) :
    S.Matches (Value.Related S.envs) (Eval.statements (depth + 1) env last ss)
      (Eval.statements (depth + 1) env' last' ss) := by
  cases ss with
  | nil =>
    rw [Eval.statements, Eval.statements]
    exact .pure hlast
  | cons s ss =>
    rw [Eval.statements, Eval.statements]
    exact .bind (ih.statement henv s) fun v v' hv => ih.statements henv hv ss

end Simulation.MatchesAll

namespace Simulation

/-- Without depth neither run has an outcome, and each further level goes alike if the one before
does. -/
theorem matches_all (S : Simulation α) : ∀ depth, S.MatchesAll depth
  | 0 =>
    { expression := fun _ _ => by rw [Eval.expression, Eval.expression]; exact .exhausted
      arguments := fun _ _ => by rw [Eval.arguments, Eval.arguments]; exact .exhausted
      apply := fun _ _ => by rw [Eval.apply, Eval.apply]; exact .exhausted
      statement := fun _ _ => by rw [Eval.statement, Eval.statement]; exact .exhausted
      statements := fun _ _ _ => by rw [Eval.statements, Eval.statements]; exact .exhausted }
  | depth + 1 =>
    have ih := S.matches_all depth
    { expression := ih.expression_succ
      arguments := ih.arguments_succ
      apply := ih.apply_succ
      statement := ih.statement_succ
      statements := ih.statements_succ }

/-- Evaluating a node in related environments ends alike. -/
theorem matches_eval (S : Simulation α) {env env' : FrameId} (henv : S.envs env env')
    (depth : Nat) (node : Node α) :
    S.Matches (Value.Related S.envs) (node.eval depth env) (node.eval depth env') := by
  cases node with
  | expr e => exact (S.matches_all depth).expression henv e
  | stmt s => exact (S.matches_all depth).statement henv s
  | block body => exact (S.matches_all depth).statements henv .null body

end Simulation

end LetLang
