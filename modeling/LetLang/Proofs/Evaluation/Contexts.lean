import LetLang.Proofs.Evaluation.Sequence

/-!
# Unwinding through contexts

A context is a tree with a hole at a place that evaluation comes to before anything around it is
done: the nodes around the hole are its layers. `Context.Reaches` says with which heap the hole is
reached, which is after all that stands before it has been evaluated to the end. What the tree in
the hole unwinds by, a `return` or an error, every layer passes on as it is (`Layer.unwinds`), and
so does the whole context (`context_unwinds`). The heap is then the one in which the hole unwound,
so nothing behind the hole has been evaluated and no `let` around it has bound its name.
-/

set_option autoImplicit false

namespace LetLang

variable {α : Type}

/-! ## Trees with a hole -/

/-- The kinds of nodes. -/
inductive NodeKind where
  | expr
  | stmt
  | block

/-- The trees of a kind. -/
abbrev NodeKind.Tree (α : Type) : NodeKind → Type
  | expr => Expr α
  | stmt => Stmt α
  | block => Block α

/-- A tree as a node. -/
def NodeKind.node : (kind : NodeKind) → kind.Tree α → Node α
  | expr, e => .expr e
  | stmt, s => .stmt s
  | block, body => .block body

/-- A node with one hole in it, by the kind of the hole and its own. -/
inductive Layer (α : Type) : NodeKind → NodeKind → Type where
  | operand (op : UnaryOp) : Layer α .expr .expr
  | left (op : BinaryOp) (right : Expr α) : Layer α .expr .expr
  | right (op : BinaryOp) (left : Expr α) : Layer α .expr .expr
  | conditionOfThen (consequence : Block α) : Layer α .expr .expr
  | conditionOfElse (consequence alternative : Block α) : Layer α .expr .expr
  | thenBlock (condition : Expr α) : Layer α .block .expr
  | consequence (condition : Expr α) (alternative : Block α) : Layer α .block .expr
  | alternative (condition : Expr α) (consequence : Block α) : Layer α .block .expr
  | argument (callee : Callable α) (before after : List (Expr α)) : Layer α .expr .expr
  | letValue (x : String) : Layer α .expr .stmt
  | retValue : Layer α .expr .stmt
  | expression : Layer α .expr .stmt
  | statement (before after : Block α) : Layer α .stmt .block

/-- The node with a tree in its hole. -/
def Layer.fill : {inner outer : NodeKind} → Layer α inner outer → inner.Tree α → outer.Tree α
  | _, _, .operand op, n => .unary op n
  | _, _, .left op r, n => .binary op n r
  | _, _, .right op l, n => .binary op l n
  | _, _, .conditionOfThen t, n => .ifThen n t
  | _, _, .conditionOfElse t u, n => .ifElse n t u
  | _, _, .thenBlock c, n => .ifThen c n
  | _, _, .consequence c u, n => .ifElse c n u
  | _, _, .alternative c t, n => .ifElse c t n
  | _, _, .argument f before after, n => .call f (before ++ n :: after)
  | _, _, .letValue x, n => .letDecl x n
  | _, _, .retValue, n => .ret n
  | _, _, .expression, n => .expr n
  | _, _, .statement before after, n => before ++ n :: after

/-- A hole inside any number of layers. -/
inductive Context (α : Type) (inner : NodeKind) : NodeKind → Type where
  | hole : Context α inner inner
  | inside {middle outer : NodeKind} (layer : Layer α middle outer)
      (context : Context α inner middle) : Context α inner outer

/-- The context with a tree in its hole. -/
def Context.fill {inner : NodeKind} :
    {outer : NodeKind} → Context α inner outer → inner.Tree α → outer.Tree α
  | _, .hole, n => n
  | _, .inside layer context, n => layer.fill (context.fill n)

/-! ## How evaluation comes to a hole -/

/-- Evaluation of an expression ends with a value that a test takes as `truth`. -/
def Tests (env : FrameId) (condition : Expr α) (truth : Bool) (h m : Heap α) : Prop :=
  ∃ v, Eval.Ends (fun depth => Eval.expression depth env condition) h (.ok v) m ∧ v.truthy = truth

/-- Evaluation of the layer on the heap `h` comes to its hole with the heap `m`. -/
def Layer.Reaches (env : FrameId) :
    {inner outer : NodeKind} → Layer α inner outer → Heap α → Heap α → Prop
  | _, _, .right _ l, h, m =>
    ∃ v, Eval.Ends (fun depth => Eval.expression depth env l) h (.ok v) m
  | _, _, .thenBlock c, h, m => Tests env c true h m
  | _, _, .consequence c _, h, m => Tests env c true h m
  | _, _, .alternative c _, h, m => Tests env c false h m
  | _, _, .argument f before _, h, m =>
    -- The callee is resolved first, and whether it is a function is asked last.
    (∃ v, Eval.callable env f h = some (.ok v, h)) ∧
      ∃ vs, Eval.Ends (fun depth => Eval.arguments depth env before) h (.ok vs) m
  | _, _, .statement before _, h, m =>
    ∃ v, Eval.Ends (fun depth => Eval.block depth env before) h (.ok v) m
  | _, _, .operand _, h, m => h = m
  | _, _, .left _ _, h, m => h = m
  | _, _, .conditionOfThen _, h, m => h = m
  | _, _, .conditionOfElse _ _, h, m => h = m
  | _, _, .letValue _, h, m => h = m
  | _, _, .retValue, h, m => h = m
  | _, _, .expression, h, m => h = m

/-- Evaluation of the context on the heap `h` comes to its hole with the heap `m`. -/
def Context.Reaches (env : FrameId) {inner : NodeKind} :
    {outer : NodeKind} → Context α inner outer → Heap α → Heap α → Prop
  | _, .hole, h, m => h = m
  | _, .inside layer context, h, m => ∃ k, layer.Reaches env h k ∧ context.Reaches env k m

/-! ## Unwinding -/

/-- Evaluation of a node unwinds. -/
def Node.Unwinds (env : FrameId) (node : Node α) (h : Heap α) (u : Unwind α) (k : Heap α) : Prop :=
  Eval.Ends (fun depth => node.eval depth env) h (.error u) k

section Layers

variable {env : FrameId} {h m m' : Heap α} {u : Unwind α} {node n : Node α} {e : Expr α}
  {rest : Nat → Value α → Eval α (Value α)}

/-- What its first part unwinds by, the node does. -/
theorem Node.unwinds_of_first
    (hnode : ∀ d, node.eval (d + 1) env = Eval.expression d env e >>= rest d)
    (he : (Node.expr e).Unwinds env m u m') : node.Unwinds env m u m' := by
  obtain ⟨d, he⟩ := he
  refine ⟨d + 1, ?_⟩
  show node.eval (d + 1) env m = _
  rw [hnode]
  exact Eval.bind_of_error he

/-- What the part behind a first one unwinds by, the node does. -/
theorem Node.unwinds_of_second {v : Value α}
    (hnode : ∀ d, node.eval (d + 1) env = Eval.expression d env e >>= rest d)
    (he : Eval.Ends (fun depth => Eval.expression depth env e) h (.ok v) m)
    (hn : n.Unwinds env m u m')
    (hrest : ∀ d, n.eval d env m = some (.error u, m') → rest d v m = some (.error u, m')) :
    node.Unwinds env h u m' := by
  obtain ⟨d, he, hn⟩ := he.both (Eval.expression_le env e) (n.eval_le env) hn
  refine ⟨d + 1, ?_⟩
  show node.eval (d + 1) env h = _
  rw [hnode, Eval.bind_of_ok he]
  exact hrest d hn

/-- What the tree in the hole unwinds by, the layer does. -/
theorem Layer.unwinds {inner outer : NodeKind} (layer : Layer α inner outer) {n : inner.Tree α}
    (hreach : layer.Reaches env h m) (hn : (inner.node n).Unwinds env m u m') :
    (outer.node (layer.fill n)).Unwinds env h u m' := by
  cases layer with
  -- A hole that is evaluated first is reached with the heap as it is.
  | operand op =>
    obtain rfl : h = m := hreach
    exact Node.unwinds_of_first
      (fun d => show Eval.expression (d + 1) env (.unary op n) = _ by rw [Eval.expression]) hn
  | left op r =>
    obtain rfl : h = m := hreach
    exact Node.unwinds_of_first
      (fun d => show Eval.expression (d + 1) env (.binary op n r) = _ by rw [Eval.expression])
      hn
  | right op l =>
    obtain ⟨v, hl⟩ := hreach
    exact Node.unwinds_of_second
      (fun d => show Eval.expression (d + 1) env (.binary op l n) = _ by rw [Eval.expression])
      hl hn fun d hd => Eval.bind_of_error hd
  | conditionOfThen t =>
    obtain rfl : h = m := hreach
    exact Node.unwinds_of_first
      (fun d => show Eval.expression (d + 1) env (.ifThen n t) = _ by rw [Eval.expression]) hn
  | conditionOfElse t u =>
    obtain rfl : h = m := hreach
    exact Node.unwinds_of_first
      (fun d => show Eval.expression (d + 1) env (.ifElse n t u) = _ by rw [Eval.expression])
      hn
  -- The branch that was chosen is evaluated as a block of its own, in the same environment.
  | thenBlock c =>
    obtain ⟨v, hc, hv⟩ := hreach
    refine Node.unwinds_of_second
      (fun d => show Eval.expression (d + 1) env (.ifThen c n) = _ by rw [Eval.expression])
      hc hn fun d hd => ?_
    rw [if_pos hv]
    exact hd
  | consequence c u =>
    obtain ⟨v, hc, hv⟩ := hreach
    refine Node.unwinds_of_second
      (fun d => show Eval.expression (d + 1) env (.ifElse c n u) = _ by rw [Eval.expression])
      hc hn fun d hd => ?_
    rw [if_pos hv]
    exact hd
  | alternative c t =>
    obtain ⟨v, hc, hv⟩ := hreach
    refine Node.unwinds_of_second
      (fun d => show Eval.expression (d + 1) env (.ifElse c t n) = _ by rw [Eval.expression])
      hc hn fun d hd => ?_
    rw [if_neg (by simp [hv])]
    exact hd
  | argument f before after =>
    obtain ⟨⟨v, hf⟩, vs, d, hbefore⟩ := hreach
    obtain ⟨d', hn⟩ := hn
    obtain ⟨depth, hargs⟩ : ∃ depth, Eval.arguments depth env (before ++ n :: after) h =
        some (.error u, m') := Eval.arguments_unwind hn hbefore
    -- The call itself is never made.
    refine ⟨depth + 1, ?_⟩
    show Eval.expression (depth + 1) env (.call f (before ++ n :: after)) h = _
    rw [Eval.expression, Eval.bind_of_ok hf, Eval.bind_of_error hargs]
  | letValue x =>
    obtain rfl : h = m := hreach
    exact Node.unwinds_of_first
      (fun d => show Eval.statement (d + 1) env (.letDecl x n) = _ by rw [Eval.statement]) hn
  | retValue =>
    obtain rfl : h = m := hreach
    exact Node.unwinds_of_first
      (fun d => show Eval.statement (d + 1) env (.ret n) = _ by rw [Eval.statement]) hn
  | expression =>
    obtain rfl : h = m := hreach
    obtain ⟨d, hn⟩ := hn
    refine ⟨d + 1, ?_⟩
    show Eval.statement (d + 1) env (.expr n) h = _
    rw [Eval.statement]
    exact hn
  | statement before after =>
    obtain ⟨v, d, hbefore⟩ := hreach
    obtain ⟨d', hn⟩ := hn
    have hbehind : Eval.block (d' + 1) env (n :: after) m = some (.error u, m') := by
      rw [Eval.block, Eval.statements]
      exact Eval.bind_of_error hn
    exact Eval.block_append (List.cons_ne_nil n after) hbefore hbehind

/-- What the tree in the hole unwinds by, the context does. -/
theorem Context.unwinds {inner : NodeKind} {n : inner.Tree α} :
    ∀ {outer : NodeKind} {context : Context α inner outer} {h : Heap α},
      context.Reaches env h m → (inner.node n).Unwinds env m u m' →
      (outer.node (context.fill n)).Unwinds env h u m' := by
  intro outer context
  -- The outermost layer is reached first, so the heap at the start changes along the induction.
  induction context with
  | hole =>
    intro h hreach hn
    obtain rfl : h = m := hreach
    exact hn
  | inside layer context ih =>
    intro h hreach hn
    obtain ⟨k, hlayer, hcontext⟩ := hreach
    exact layer.unwinds hlayer (ih hcontext hn)

end Layers

/-- Returns and errors pass through every context as they are, and nothing further is evaluated. -/
theorem context_unwinds {inner outer : NodeKind} (context : Context α inner outer)
    (n : inner.Tree α) {env : FrameId} {h m m' : Heap α} {u : Unwind α}
    (hreach : context.Reaches env h m) (hn : (inner.node n).Unwinds env m u m')
    (r : Except (Unwind α) (Value α)) (k : Heap α) :
    Eval.Ends (fun depth => (outer.node (context.fill n)).eval depth env) h r k ↔
      r = .error u ∧ k = m' := by
  have hcontext := context.unwinds hreach hn
  constructor
  · intro hends
    exact hcontext.unique (Node.eval_le _ env) hends
  · rintro ⟨rfl, rfl⟩
    exact hcontext

/-- The context `let x = (1 + f(if true {let b = 3; [ ] y}, z))`. -/
def nested : Context Unit .stmt .stmt :=
  .inside (.letValue "x") <| .inside (.right .add (.int 1)) <|
    .inside (.argument (.name "f") [] [.callable (.name "z")]) <|
    .inside (.thenBlock (.bool true)) <|
    .inside (.statement [.letDecl "b" (.int 3)] [.expr (.callable (.name "y"))]) .hole

/-- One frame, in which `f` is no function. -/
def bindsF : Heap Unit := ⟨#[⟨[("f", .int 5)], none⟩]⟩

/-- The frame with `b` bound as well. -/
def bindsB : Heap Unit := ⟨#[⟨[("f", .int 5), ("b", .int 3)], none⟩]⟩

/-- A `return` in the hole, with `y` and `z` unbound: the value is returned, `b` is bound and `x` is
not. -/
theorem context_unwinds_nested :
    Eval.Ends (fun depth => (NodeKind.stmt.node (nested.fill (.ret (.int 7)))).eval depth 0)
      bindsF (.error (.ret (.int 7))) bindsB := by
  have hreach : nested.Reaches 0 bindsF bindsB := by
    refine ⟨bindsF, rfl, bindsF, ⟨.int 1, 1, ?left⟩, bindsF, ⟨⟨.int 5, ?callee⟩, [], 1, ?arguments⟩,
      bindsF, ⟨.bool true, ⟨1, ?condition⟩, rfl⟩, bindsB, ⟨.int 3, 3, ?before⟩, rfl⟩
    all_goals cbv
  exact (context_unwinds nested (.ret (.int 7)) hreach ⟨2, by cbv⟩ _ _).2 ⟨rfl, rfl⟩

end LetLang
