import LetLang.Proofs.Evaluation.Node
import LetLang.Proofs.Heap.Frames

/-!
# What an evaluation writes

A `let` binds a name in the frame in which it is evaluated. Blocks of a conditional share that
frame, and a call runs in a frame of its own, so an evaluation writes only its own frame among those
that were there before, and there only the names that its `let`s bind (`Eval.writes_all`). A call
writes none of them.
-/

set_option autoImplicit false

namespace LetLang

variable {α β γ : Type}

/-! ## Changes of the heap -/

/-- The frame `f'` is `f` with bindings of some of the names added or changed, and none removed. -/
structure Frame.Rebinds (names : List String) (f f' : Frame α) : Prop where
  outer : f'.outer = f.outer
  bindings : ∀ x, f'.bindings.find? x = f.bindings.find? x ∨
    x ∈ names ∧ (f'.bindings.find? x).isSome

/-- The frames of `h` are frames of `h'`: the frame `env` with bindings of some of the names added
or changed, and all others as they were. -/
structure Heap.Writes (env : FrameId) (names : List String) (h h' : Heap α) : Prop where
  size : h.frames.size ≤ h'.frames.size
  others : ∀ i < h.frames.size, i ≠ env → h'.frame? i = h.frame? i
  own : ∀ f, h.frame? env = some f → ∃ f', h'.frame? env = some f' ∧ f.Rebinds names f'

/-- All frames of `h` are frames of `h'`. -/
def Heap.Keeps (h h' : Heap α) : Prop :=
  h.frames.size ≤ h'.frames.size ∧ ∀ i < h.frames.size, h'.frame? i = h.frame? i

namespace Frame.Rebinds

variable {names names' : List String} {f f' f'' : Frame α}

theorem refl : f.Rebinds names f := ⟨rfl, fun _ => .inl rfl⟩

/-- A frame may be said to bind more names than it does. -/
theorem mono (hsub : names ⊆ names') (h : f.Rebinds names f') : f.Rebinds names' f' := by
  refine ⟨h.outer, fun x => ?_⟩
  rcases h.bindings x with heq | ⟨hx, hsome⟩
  · exact .inl heq
  · exact .inr ⟨hsub hx, hsome⟩

/-- What two changes in a row bind is bound by the first or by the second. -/
theorem trans (h : f.Rebinds names f') (h' : f'.Rebinds names f'') : f.Rebinds names f'' := by
  refine ⟨h'.outer.trans h.outer, fun x => ?_⟩
  rcases h'.bindings x with heq' | hnew
  · -- A binding that the second change leaves alone is the one that the first has made.
    rcases h.bindings x with heq | ⟨hx, hsome⟩
    · exact .inl (heq'.trans heq)
    · exact .inr ⟨hx, by rw [heq']; exact hsome⟩
  · exact .inr hnew

/-- A binding of one of the names keeps all other bindings. -/
theorem insert {x : String} (v : Value α) (hx : x ∈ names) : f.Rebinds names (f.insert x v) := by
  refine ⟨rfl, fun y => ?_⟩
  rw [Frame.insert, Bindings.find?_insert]
  split
  · next heq => exact .inr ⟨heq ▸ hx, rfl⟩
  · exact .inl rfl

end Frame.Rebinds

namespace Heap.Writes

variable {env : FrameId} {names names' : List String} {h h' h'' : Heap α}

theorem refl : h.Writes env names h :=
  ⟨Nat.le_refl _, fun _ _ _ => rfl, fun f hf => ⟨f, hf, .refl⟩⟩

theorem mono (hsub : names ⊆ names') (hw : h.Writes env names h') : h.Writes env names' h' := by
  refine ⟨hw.size, hw.others, fun f hf => ?_⟩
  obtain ⟨f', hf', hrebinds⟩ := hw.own f hf
  exact ⟨f', hf', hrebinds.mono hsub⟩

/-- Changes in a row write the same frame. -/
theorem trans (hw : h.Writes env names h') (hw' : h'.Writes env names h'') :
    h.Writes env names h'' := by
  refine ⟨Nat.le_trans hw.size hw'.size, fun i hi hne => ?_, fun f hf => ?_⟩
  · rw [hw'.others i (Nat.lt_of_lt_of_le hi hw.size) hne, hw.others i hi hne]
  · obtain ⟨f', hf', hrebinds⟩ := hw.own f hf
    obtain ⟨f'', hf'', hrebinds'⟩ := hw'.own f' hf'
    exact ⟨f'', hf'', hrebinds.trans hrebinds'⟩

/-- A binding in the environment writes its own frame. -/
theorem insert {x : String} (v : Value α) (hx : x ∈ names) :
    h.Writes env names (h.insert env x v) := by
  refine ⟨Nat.le_of_eq (h.size_insert env x v).symm, fun i _ hne => ?_, fun f hf => ?_⟩
  · exact h.frame?_insert_of_ne x v hne
  · refine ⟨f.insert x v, ?_, .insert v hx⟩
    rw [Heap.frame?_insert_self, hf, Option.map_some]

/-- Keeping all frames is writing none of the names. -/
theorem of_keeps (hk : h.Keeps h') : h.Writes env names h' := by
  refine ⟨hk.1, fun i hi _ => hk.2 i hi, fun f hf => ?_⟩
  exact ⟨f, (hk.2 env (Heap.lt_size_of_frame?_eq_some hf)).trans hf, .refl⟩

/-- Writing a frame that is new keeps all others. -/
theorem keeps_of_alloc {f : Frame α} (hw : (h.alloc f).2.Writes (h.alloc f).1 names h') :
    h.Keeps h' := by
  have hsize := hw.size
  rw [Heap.size_alloc] at hsize
  refine ⟨Nat.le_of_succ_le hsize, fun i hi => ?_⟩
  have hlt : i < (h.alloc f).2.frames.size := by
    rw [Heap.size_alloc]
    exact Nat.lt_succ_of_lt hi
  rw [hw.others i hlt (Nat.ne_of_lt hi), h.frame?_alloc_of_ne f (Nat.ne_of_lt hi)]

end Heap.Writes

namespace Eval

/-! ## Changes by evaluations -/

/-- Every run of the evaluation, whatever its outcome, changes the heap by `R`. -/
def Changes (R : Heap α → Heap α → Prop) (m : Eval α β) : Prop :=
  ∀ h r h', m h = some (r, h') → R h h'

namespace Changes

variable {R S : Heap α → Heap α → Prop} {m : Eval α β} {f : β → Eval α γ}

theorem mono (hsub : ∀ h h', R h h' → S h h') (hm : Changes R m) : Changes S m :=
  fun h r h' hrun => hsub h h' (hm h r h' hrun)

theorem exhausted : Changes R (exhausted : Eval α β) := by
  intro h r h' hrun
  cases hrun

theorem pure (hrefl : ∀ h, R h h) (b : β) : Changes R (Pure.pure b : Eval α β) := by
  intro h r h' hrun
  cases hrun
  exact hrefl h

theorem unwind (hrefl : ∀ h, R h h) (u : Unwind α) : Changes R (unwind u : Eval α β) := by
  intro h r h' hrun
  cases hrun
  exact hrefl h

theorem ofExcept (hrefl : ∀ h, R h h) (r : Except EvalError β) :
    Changes R (ofExcept r : Eval α β) := by
  cases r with
  | ok b => exact pure hrefl b
  | error e => exact unwind hrefl (.error e)

theorem callable (hrefl : ∀ h, R h h) (env : FrameId) (c : Callable α) :
    Changes R (callable env c) := by
  intro h r h' hrun
  cases c with
  | func label xs body =>
    cases hrun
    exact hrefl h
  | name x =>
    rw [Eval.callable, find] at hrun
    cases hfind : h.find? env x with
    | none =>
      rw [hfind] at hrun
      cases hrun
      exact hrefl h
    | some v =>
      rw [hfind] at hrun
      cases hrun
      exact hrefl h

/-- If a relation holds of changes in a row, it holds of evaluations in a row. -/
theorem bind (htrans : ∀ {h h' h''}, R h h' → R h' h'' → R h h'') (hm : Changes R m)
    (hf : ∀ b, Changes R (f b)) : Changes R (m >>= f) := by
  intro h r h' hrun
  replace hrun : Eval.bind m f h = some (r, h') := hrun
  rw [Eval.bind] at hrun
  cases hmid : m h with
  | none =>
    rw [hmid] at hrun
    cases hrun
  | some out =>
    obtain ⟨value, h₁⟩ := out
    rw [hmid] at hrun
    have hfirst := hm h _ h₁ hmid
    cases value with
    | error u =>
      cases hrun
      exact hfirst
    | ok b => exact htrans hfirst (hf b h₁ r h' hrun)

/-- A call changes the heap as its body does. -/
theorem catchReturn {m : Eval α (Value α)} (hm : Changes R m) : Changes R (catchReturn m) := by
  intro h r h' hrun
  rw [Eval.catchReturn] at hrun
  split at hrun
  · next v h₁ hmid =>
    cases hrun
    exact hm h _ _ hmid
  · exact hm h r h' hrun

/-- An evaluation may be granted more names than it writes. -/
theorem widen {env : FrameId} {names names' : List String}
    (hm : Changes (Heap.Writes env names) m) (hsub : names ⊆ names') :
    Changes (Heap.Writes env names') m :=
  hm.mono fun _ _ hw => hw.mono hsub

end Changes

/-! ## The frames of evaluations -/

/-- What the evaluations in some depth write: those in an environment its frame, and calls
nothing. -/
structure WritesAll (α : Type) (depth : Nat) : Prop where
  expression : ∀ env (e : Expr α), Changes (Heap.Writes env e.lets) (expression depth env e)
  arguments : ∀ env (es : List (Expr α)),
    Changes (Heap.Writes env (exprsLets es)) (arguments depth env es)
  apply : ∀ (f : Value α) args, Changes Heap.Keeps (apply depth f args)
  statement : ∀ env (s : Stmt α), Changes (Heap.Writes env s.lets) (statement depth env s)
  statements : ∀ env last (ss : List (Stmt α)),
    Changes (Heap.Writes env (stmtsLets ss)) (statements depth env last ss)

namespace WritesAll

variable {depth : Nat} (ih : WritesAll α depth)

include ih

/-- The `let`s of a conditional are those of its blocks, and a call writes no frame that was there.
-/
theorem expression_succ (env : FrameId) (e : Expr α) :
    Changes (Heap.Writes env e.lets) (Eval.expression (depth + 1) env e) := by
  cases e with
  | callable c =>
    rw [Eval.expression]
    exact .callable (fun _ => .refl) env c
  | int v =>
    rw [Eval.expression]
    exact .pure (fun _ => .refl) _
  | bool b =>
    rw [Eval.expression]
    exact .pure (fun _ => .refl) _
  | unary op e =>
    rw [Eval.expression]
    exact .bind .trans (ih.expression env e) fun _ => .ofExcept (fun _ => .refl) _
  | binary op l r =>
    rw [Eval.expression, Expr.lets]
    have hl := (ih.expression env l).widen (List.subset_append_left l.lets r.lets)
    have hr := (ih.expression env r).widen (List.subset_append_right l.lets r.lets)
    exact .bind .trans hl fun _ => .bind .trans hr fun _ => .ofExcept (fun _ => .refl) _
  | ifThen c t =>
    rw [Eval.expression, Expr.lets]
    have hc := (ih.expression env c).widen (List.subset_append_left c.lets (stmtsLets t))
    have ht := (ih.statements env .null t).widen (List.subset_append_right c.lets (stmtsLets t))
    refine .bind .trans hc fun v => ?_
    split
    · exact ht
    · exact .pure (fun _ => .refl) _
  | ifElse c t u =>
    rw [Eval.expression, Expr.lets]
    have hc := (ih.expression env c).widen
      (List.subset_append_left c.lets (stmtsLets t ++ stmtsLets u))
    -- Both blocks run in the frame of the conditional.
    have hbranch : ∀ {ss : List (Stmt α)}, stmtsLets ss ⊆ stmtsLets t ++ stmtsLets u →
        Changes (Heap.Writes env (c.lets ++ (stmtsLets t ++ stmtsLets u)))
          (Eval.statements depth env .null ss) :=
      fun hsub => (ih.statements env .null _).widen
        (List.Subset.trans hsub (List.subset_append_right _ _))
    refine .bind .trans hc fun v => ?_
    split
    · exact hbranch (List.subset_append_left _ _)
    · exact hbranch (List.subset_append_right _ _)
  | call f args =>
    rw [Eval.expression, Expr.lets]
    refine .bind .trans (.callable (fun _ => .refl) env f) fun v => ?_
    refine .bind .trans (ih.arguments env args) fun vs => ?_
    -- A call keeps all frames, so it grants no name to the caller.
    exact (ih.apply v vs).mono fun _ _ hk => .of_keeps hk

theorem arguments_succ (env : FrameId) (es : List (Expr α)) :
    Changes (Heap.Writes env (exprsLets es)) (Eval.arguments (depth + 1) env es) := by
  cases es with
  | nil =>
    rw [Eval.arguments]
    exact .pure (fun _ => .refl) _
  | cons e es =>
    rw [Eval.arguments, exprsLets]
    have he := (ih.expression env e).widen (List.subset_append_left e.lets (exprsLets es))
    have hes := (ih.arguments env es).widen (List.subset_append_right e.lets (exprsLets es))
    exact .bind .trans he fun _ => .bind .trans hes fun _ => .pure (fun _ => .refl) _

/-- The body of a function runs in a frame that no frame before it shares. -/
theorem apply_succ (f : Value α) (args : List (Value α)) :
    Changes Heap.Keeps (Eval.apply (depth + 1) f args) := by
  intro h r h' hrun
  by_cases hf : ∃ c, f = .func c
  · obtain ⟨c, rfl⟩ := hf
    rw [Eval.apply] at hrun
    -- The body writes the frame of the call, which is none of the frames of `h`.
    have hbody := (ih.statements (h.alloc (c.frame args)).1 .null c.body).catchReturn
    exact (hbody (h.alloc (c.frame args)).2 r h' hrun).keeps_of_alloc
  · rw [Eval.apply.eq_3 _ _ _ fun c hc => hf ⟨c, hc⟩] at hrun
    cases hrun
    exact ⟨Nat.le_refl _, fun _ _ => rfl⟩

/-- A `let` binds what its expression binds, and its own name. -/
theorem statement_succ (env : FrameId) (s : Stmt α) :
    Changes (Heap.Writes env s.lets) (Eval.statement (depth + 1) env s) := by
  cases s with
  | letDecl x e =>
    rw [Eval.statement, Stmt.lets]
    have he := (ih.expression env e).widen (List.subset_cons_self x e.lets)
    -- The value is there before the name is bound, whatever its own evaluation has bound.
    refine .bind .trans he fun v => .bind .trans ?_ fun _ => .pure (fun _ => .refl) v
    intro h r h' hrun
    cases hrun
    exact .insert v List.mem_cons_self
  | ret e =>
    rw [Eval.statement]
    exact .bind .trans (ih.expression env e) fun v => .unwind (fun _ => .refl) (.ret v)
  | expr e =>
    rw [Eval.statement]
    exact ih.expression env e

theorem statements_succ (env : FrameId) (last : Value α) (ss : List (Stmt α)) :
    Changes (Heap.Writes env (stmtsLets ss)) (Eval.statements (depth + 1) env last ss) := by
  cases ss with
  | nil =>
    rw [Eval.statements]
    exact .pure (fun _ => .refl) _
  | cons s ss =>
    rw [Eval.statements, stmtsLets]
    have hs := (ih.statement env s).widen (List.subset_append_left s.lets (stmtsLets ss))
    have hss := fun v =>
      (ih.statements env v ss).widen (List.subset_append_right s.lets (stmtsLets ss))
    exact .bind .trans hs hss

end WritesAll

/-- Without depth there is no run, and each further level writes what its parts write. -/
theorem writes_all : ∀ depth, WritesAll α depth
  | 0 =>
    { expression := fun _ _ => by rw [expression]; exact .exhausted
      arguments := fun _ _ => by rw [arguments]; exact .exhausted
      apply := fun _ _ => by rw [apply]; exact .exhausted
      statement := fun _ _ => by rw [statement]; exact .exhausted
      statements := fun _ _ _ => by rw [statements]; exact .exhausted }
  | depth + 1 =>
    have ih := writes_all depth
    { expression := ih.expression_succ
      arguments := ih.arguments_succ
      apply := ih.apply_succ
      statement := ih.statement_succ
      statements := ih.statements_succ }

end Eval

/-- A node writes its own frame only, under the names that its `let`s bind. -/
theorem Node.changes_eval (node : Node α) (depth : Nat) (env : FrameId) :
    Eval.Changes (Heap.Writes env node.lets) (node.eval depth env) := by
  cases node with
  | expr e => exact (Eval.writes_all depth).expression env e
  | stmt s => exact (Eval.writes_all depth).statement env s
  | block body => exact (Eval.writes_all depth).statements env .null body

/-- Evaluation writes only the current frame. Of the frames that were there before, all but that of
the environment stay as they are; that one keeps its outer frame and its names, and only names that
the node binds by a `let` of its own are added or change. A call changes none of the frames. -/
theorem eval_writes_only_current_frame (α : Type) :
    (∀ (node : Node α) (depth : Nat) (env : FrameId) (h h' : Heap α)
      (r : Except (Unwind α) (Value α)), node.eval depth env h = some (r, h') →
      (∀ i < h.frames.size, i ≠ env → h'.frame? i = h.frame? i) ∧
      ∀ f, h.frame? env = some f → ∃ f', h'.frame? env = some f' ∧ f'.outer = f.outer ∧
        (∀ x, (f.bindings.find? x).isSome → (f'.bindings.find? x).isSome) ∧
        ∀ x, f'.bindings.find? x ≠ f.bindings.find? x → x ∈ node.lets) ∧
    (∀ (c : Closure α) (args : List (Value α)) (depth : Nat) (h h' : Heap α)
      (r : Except (Unwind α) (Value α)), Eval.apply depth (.func c) args h = some (r, h') →
      ∀ i < h.frames.size, h'.frame? i = h.frame? i) := by
  constructor
  · intro node depth env h h' r hrun
    have hwrites := node.changes_eval depth env h r h' hrun
    refine ⟨hwrites.others, fun f hf => ?_⟩
    obtain ⟨f', hf', houter, hbindings⟩ := hwrites.own f hf
    refine ⟨f', hf', houter, fun x hx => ?_, fun x hx => ?_⟩
    · rcases hbindings x with heq | ⟨-, hsome⟩
      · rw [heq]
        exact hx
      · exact hsome
    · rcases hbindings x with heq | ⟨hmem, -⟩
      · exact absurd heq hx
      · exact hmem
  · intro c args depth h h' r hrun
    exact ((Eval.writes_all depth).apply (.func c) args h r h' hrun).2

/-- A block that binds `x` and calls a function that binds `y`, in the only frame of a heap: that
frame gets no binding of `y`, and a call of the function alone leaves it as it is. -/
theorem eval_writes_only_current_frame_let_and_call :
    (∃ (r : Except (Unwind Unit) (Value Unit)) (h' : Heap Unit) (f' : Frame Unit),
      (Node.block [.letDecl "x" (.int 1),
        .expr (.call (.func () [] [.letDecl "y" (.int 2)]) [])]).eval 8 0
          (Heap.empty.enclose none).2 = some (r, h') ∧
      h'.frame? 0 = some f' ∧ f'.outer = none ∧
        ∀ x, f'.bindings.find? x ≠ none → x ∈ ["x"]) ∧
    ∃ (r : Except (Unwind Unit) (Value Unit)) (h' : Heap Unit),
      Eval.apply 5 (.func ⟨(), [], [.letDecl "y" (.int 2)], 0⟩) [] (Heap.empty.enclose none).2 =
        some (r, h') ∧ h'.frame? 0 = some ⟨[], none⟩ := by
  constructor
  · have hrun : (Node.block [.letDecl "x" (.int 1),
        .expr (.call (.func () [] [.letDecl "y" (.int 2)]) [])]).eval 8 0
          (Heap.empty.enclose none).2 =
        some (.ok (.int 2), ⟨#[⟨[("x", .int 1)], none⟩, ⟨[("y", .int 2)], some 0⟩]⟩) := by
      cbv
    obtain ⟨-, hown⟩ := (eval_writes_only_current_frame Unit).1 _ _ _ _ _ _ hrun
    obtain ⟨f', hf', houter, -, hchanged⟩ := hown ⟨[], none⟩ rfl
    exact ⟨_, _, f', hrun, hf', houter, hchanged⟩
  · have hrun : Eval.apply 5 (.func ⟨(), [], [.letDecl "y" (.int 2)], 0⟩) []
        (Heap.empty.enclose none).2 =
          some (.ok (.int 2), ⟨#[⟨[], none⟩, ⟨[("y", .int 2)], some 0⟩]⟩) := by
      cbv
    exact ⟨_, _, hrun, (eval_writes_only_current_frame Unit).2 _ _ _ _ _ _ hrun 0 (by decide)⟩

end LetLang
