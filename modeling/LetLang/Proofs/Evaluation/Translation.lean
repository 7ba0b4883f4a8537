import LetLang.Proofs.Evaluation.Locality
import LetLang.Proofs.Syntax.Translation

/-!
# Evaluation commutes with translation

A translated tree is evaluated in a translated heap, where functions have translated parameters and
bodies. If no two names become one, and every literal still has its value, then each step of the
evaluation does to the translated heap what it does to the heap itself. The literals of a
translation may need one level of depth more than those they replace, so an evaluation in some depth
lies between two translated ones (`Translation.Tracks`), and what depends on no depth commutes
(`Translation.Lawful.ends_iff`). A renaming that keeps names apart keeps all literals, so evaluation
commutes with it (`evaluation_commutes_with_renaming`).
-/

set_option autoImplicit false

namespace LetLang

variable {α β γ δ ε : Type}

namespace Translation

/-! ## What an evaluation handles -/

section Data

variable (T : Translation α)

/-- A function with the names of its parameters and its body translated. -/
def closure (c : Closure α) : Closure α :=
  ⟨c.label, c.parameters.map T.name, T.stmts c.body, c.env⟩

def value : Value α → Value α
  | .func c => .func (T.closure c)
  | .int v => .int v
  | .bool b => .bool b
  | .null => .null

def bindings (bs : Bindings α) : Bindings α := bs.map fun b => (T.name b.1, T.value b.2)

def frame (f : Frame α) : Frame α := ⟨T.bindings f.bindings, f.outer⟩

def heap (h : Heap α) : Heap α := ⟨h.frames.map T.frame⟩

/-- The error of a translated evaluation: the name that is not found is a translated one. -/
def error : EvalError → EvalError
  | .unboundName x => .unboundName (T.name x)
  | e => e

def unwind : Unwind α → Unwind α
  | .ret v => .ret (T.value v)
  | .error e => .error (T.error e)

/-- The result of a translated operator. -/
def applied : Except EvalError (Value α) → Except EvalError (Value α)
  | .ok v => .ok (T.value v)
  | .error e => .error (T.error e)

/-- A result whose value is translated by `V`. -/
def result (V : β → γ) : Except (Unwind α) β → Except (Unwind α) γ
  | .ok b => .ok (V b)
  | .error u => .error (T.unwind u)

/-- The translations of a result and of the heap that is left. -/
def outcome (V : β → γ) (out : Except (Unwind α) β × Heap α) : Except (Unwind α) γ × Heap α :=
  (T.result V out.1, T.heap out.2)

end Data

/-- No two names become one, and every literal still has its value. -/
structure Lawful (T : Translation α) : Prop where
  injective : Function.Injective T.name
  literal : ∀ depth env v, Eval.expression (depth + 2) env (T.literal v) = pure (.int v)

/-! ## Operators -/

section Operators

variable (T : Translation α) (a b : Value α)

@[simp] theorem truthy_value : (T.value a).truthy = a.truthy := by
  cases a <;> rfl

@[simp] theorem kind_value : (T.value a).kind = a.kind := by
  cases a <;> rfl

/-- An operator sees the kind of a value and no names. -/
theorem apply_value (op : UnaryOp) : op.apply (T.value a) = T.applied (op.apply a) := by
  cases op <;> cases a <;> rfl

/-- The results of integer operators have no names to translate. -/
theorem applied_applyInt (op : BinaryOp) (v w : Int64) :
    T.applied (op.applyInt v w) = op.applyInt v w := by
  cases op with
  | divide =>
    rw [BinaryOp.applyInt]
    split
    · rfl
    · rfl
  | _ => rfl

/-- An operator between two values sees no names either. -/
theorem apply_value_value (op : BinaryOp) :
    op.apply (T.value a) (T.value b) = T.applied (op.apply a b) := by
  cases a with
  | int v =>
    cases b with
    | int w => exact (T.applied_applyInt op v w).symm
    | _ => cases op <;> rfl
  | _ => cases b <;> cases op <;> rfl

end Operators

/-! ## Frames and heaps -/

section Frames

variable {T : Translation α}

/-- A translated name is found exactly where the name itself was. -/
theorem find?_bindings (hT : Function.Injective T.name) (x : String) (bs : Bindings α) :
    Bindings.find? (T.name x) (T.bindings bs) = (Bindings.find? x bs).map T.value := by
  induction bs with
  | nil => rfl
  | cons b bs ih =>
    show (if T.name b.1 = T.name x then _ else _) = _
    rw [Bindings.find?]
    by_cases hx : b.1 = x
    · rw [if_pos (congrArg T.name hx), if_pos hx]
      rfl
    · rw [if_neg fun h => hx (hT h), if_neg hx]
      exact ih

theorem bindings_insert (hT : Function.Injective T.name) (x : String) (v : Value α)
    (bs : Bindings α) :
    T.bindings (bs.insert x v) = (T.bindings bs).insert (T.name x) (T.value v) := by
  induction bs with
  | nil => rfl
  | cons b bs ih =>
    show _ = (if T.name b.1 = T.name x then _ else _)
    rw [Bindings.insert]
    by_cases hx : b.1 = x
    · rw [if_pos (congrArg T.name hx), if_pos hx]
      rfl
    · rw [if_neg fun h => hx (hT h), if_neg hx]
      exact congrArg (_ :: ·) ih

/-- Binding and then translating is translating and then binding. -/
theorem frame_insert (hT : Function.Injective T.name) (f : Frame α) (x : String) (v : Value α) :
    T.frame (f.insert x v) = (T.frame f).insert (T.name x) (T.value v) := by
  rw [frame, Frame.insert, bindings_insert hT]
  rfl

/-- The frame of a call of a translated function with translated arguments. -/
theorem closure_frame (hT : Function.Injective T.name) (c : Closure α) (args : List (Value α)) :
    (T.closure c).frame (args.map T.value) = T.frame (c.frame args) := by
  have hnames : List.Forall₂ (fun x y => T.name x = y) c.parameters (T.closure c).parameters :=
    List.forall₂_map_right_iff.2 (List.forall₂_same.2 fun _ _ => rfl)
  have hvalues : List.Forall₂ (fun v w => T.value v = w) args (args.map T.value) :=
    List.forall₂_map_right_iff.2 (List.forall₂_same.2 fun _ _ => rfl)
  symm
  refine Closure.frame_rel (R := fun f g => T.frame f = g) ?_ rfl hnames hvalues
  rintro f _ x _ v _ rfl rfl rfl
  exact frame_insert hT f x v

variable (T) in
theorem frame?_heap (h : Heap α) (e : FrameId) : (T.heap h).frame? e = (h.frame? e).map T.frame :=
  Array.getElem?_map

/-- A binding in a translated heap is the translated binding. -/
theorem heap_insert (hT : Function.Injective T.name) (h : Heap α) (e : FrameId) (x : String)
    (v : Value α) : T.heap (h.insert e x v) = (T.heap h).insert e (T.name x) (T.value v) := by
  have hframes : ∀ i, (T.heap (h.insert e x v)).frame? i =
      ((T.heap h).insert e (T.name x) (T.value v)).frame? i := by
    intro i
    by_cases hi : i = e
    · subst hi
      rw [frame?_heap, Heap.frame?_insert_self, Heap.frame?_insert_self, frame?_heap, Option.map_map,
        Option.map_map]
      congr 1
      funext f
      exact frame_insert hT f x v
    · rw [frame?_heap, Heap.frame?_insert_of_ne _ _ _ hi, Heap.frame?_insert_of_ne _ _ _ hi,
        frame?_heap]
  exact congrArg Heap.mk (Array.ext_getElem? hframes)

/-- A new frame has the same name in the translated heap. -/
theorem heap_alloc (h : Heap α) (f : Frame α) :
    (T.heap h).alloc (T.frame f) = ((h.alloc f).1, T.heap (h.alloc f).2) := by
  simp [Heap.alloc, heap]

/-- Lookup in a translated heap gives the translated value. -/
theorem find?_heap (hT : Function.Injective T.name) (h : Heap α) (x : String) (e : FrameId) :
    (T.heap h).find? e (T.name x) = (h.find? e x).map T.value := by
  induction e using Nat.strongRecOn with
  | ind e ih =>
    rw [Heap.find?_eq, Heap.find?_eq, frame?_heap]
    cases h.frame? e with
    | none => rfl
    | some f =>
      obtain ⟨bindings, outer⟩ := f
      -- The frame itself decides if it binds the name, and else the frame around it.
      simp only [Option.map_some, frame, find?_bindings hT]
      cases bindings.find? x with
      | some v => rfl
      | none =>
        cases outer with
        | none => rfl
        | some o =>
          by_cases ho : o < e
          · simp only [Option.map_none, if_pos ho]
            exact ih o ho
          · simp only [Option.map_none, if_neg ho]

end Frames

/-! ## Evaluations that keep in step -/

/-- The result of a call whose body has the given one. -/
def caught : Except (Unwind α) (Value α) → Except (Unwind α) (Value α)
  | .error (.ret v) => .ok v
  | r => r

/-- A call changes the result of its body, and leaves the heap as it is. -/
theorem catchReturn_apply (m : Eval α (Value α)) (h : Heap α) :
    Eval.catchReturn m h = (m h).map fun out => (caught out.1, out.2) := by
  rw [Eval.catchReturn]
  rcases m h with _ | ⟨(_ | _) | _, k⟩ <;> rfl

/-- In the translated heap, `high` has every outcome of `m`, translated, and `low` has no others. -/
structure Tracks (T : Translation α) (V : β → γ) (m : Eval α β) (low high : Eval α γ) : Prop where
  forth : ∀ {h out}, m h = some out → high (T.heap h) = some (T.outcome V out)
  back : ∀ {h out'}, low (T.heap h) = some out' → ∃ out, m h = some out ∧ out' = T.outcome V out

namespace Tracks

variable {T : Translation α} {V : β → γ} {W : δ → ε} {m : Eval α β} {m' low high : Eval α γ}

theorem exhausted : T.Tracks V Eval.exhausted Eval.exhausted high where
  forth h := nomatch h
  back h := nomatch h

/-- Evaluations that do the same in every heap and its translation. -/
theorem of_eq (heq : ∀ h, m' (T.heap h) = (m h).map (T.outcome V)) : T.Tracks V m m' m' where
  forth {h out} hm := by rw [heq, hm, Option.map_some]
  back {h out'} hm' := by
    rw [heq, Option.map_eq_some_iff] at hm'
    obtain ⟨out, hm, rfl⟩ := hm'
    exact ⟨out, hm, rfl⟩

theorem pure (b : β) : T.Tracks V (Pure.pure b) (Pure.pure (V b)) (Pure.pure (V b)) :=
  of_eq fun _ => rfl

theorem unwind (u : Unwind α) :
    T.Tracks V (Eval.unwind u) (Eval.unwind (T.unwind u)) (Eval.unwind (T.unwind u)) :=
  of_eq fun _ => rfl

theorem ofExcept (r : Except EvalError (Value α)) :
    T.Tracks T.value (Eval.ofExcept r) (Eval.ofExcept (T.applied r)) (Eval.ofExcept (T.applied r)) := by
  cases r with
  | ok v => exact pure v
  | error e => exact unwind (.error e)

/-- Sequences keep in step if both parts do, from below and from above. -/
theorem bind {f : β → Eval α δ} {low' high' : γ → Eval α ε} (hm : T.Tracks V m low high)
    (hf : ∀ b, T.Tracks W (f b) (low' (V b)) (high' (V b))) :
    T.Tracks W (m >>= f) (low >>= low') (high >>= high') := by
  constructor
  · intro h out hout
    replace hout : Eval.bind m f h = some out := hout
    show Eval.bind high high' (T.heap h) = _
    rw [Eval.bind] at hout ⊢
    split at hout
    · cases hout
    · next u k hmid =>
      cases hout
      rw [hm.forth hmid]
      rfl
    · next b k hmid =>
      rw [hm.forth hmid]
      exact (hf b).forth hout
  · intro h out' hout
    replace hout : Eval.bind low low' (T.heap h) = some out' := hout
    show ∃ out, Eval.bind m f h = some out ∧ _
    rw [Eval.bind] at hout ⊢
    -- The first part has an outcome, and its translation is that of the translated first part.
    cases hlow : low (T.heap h) with
    | none =>
      rw [hlow] at hout
      cases hout
    | some mid' =>
      obtain ⟨⟨r, k⟩, hmid, rfl⟩ := hm.back hlow
      rw [hlow] at hout
      rw [hmid]
      cases r with
      | error u =>
        cases hout
        exact ⟨_, rfl, rfl⟩
      | ok b => exact (hf b).back hout

theorem catchReturn {m low high : Eval α (Value α)} (hm : T.Tracks T.value m low high) :
    T.Tracks T.value (Eval.catchReturn m) (Eval.catchReturn low) (Eval.catchReturn high) := by
  have hcaught : ∀ out : Except (Unwind α) (Value α) × Heap α,
      T.outcome T.value (caught out.1, out.2) =
        (caught (T.outcome T.value out).1, (T.outcome T.value out).2) := by
    rintro ⟨(_ | _) | _, k⟩ <;> rfl
  constructor
  · intro h out hout
    rw [catchReturn_apply, Option.map_eq_some_iff] at hout ⊢
    obtain ⟨mid, hmid, rfl⟩ := hout
    exact ⟨_, hm.forth hmid, (hcaught mid).symm⟩
  · intro h out' hout
    rw [catchReturn_apply, Option.map_eq_some_iff] at hout
    obtain ⟨mid', hmid', rfl⟩ := hout
    obtain ⟨mid, hmid, rfl⟩ := hm.back hmid'
    refine ⟨(caught mid.1, mid.2), ?_, (hcaught mid).symm⟩
    rw [catchReturn_apply, hmid, Option.map_some]

/-- A translated name is looked up, and a translated function literal captures the same environment.
-/
theorem callable (hT : Function.Injective T.name) (env : FrameId) (c : Callable α) :
    T.Tracks T.value (Eval.callable env c) (Eval.callable env (T.callable c))
      (Eval.callable env (T.callable c)) := by
  cases c with
  | func label xs body => exact pure _
  | name x =>
    refine of_eq fun h => ?_
    rw [Translation.callable, Eval.callable, Eval.callable, Eval.find, Eval.find, find?_heap hT]
    cases h.find? env x with
    | none => rfl
    | some v => rfl

theorem insert (hT : Function.Injective T.name) (env : FrameId) (x : String) (v : Value α) :
    T.Tracks id (Eval.insert env x v) (Eval.insert env (T.name x) (T.value v))
      (Eval.insert env (T.name x) (T.value v)) := by
  refine of_eq fun h => ?_
  rw [Eval.insert, Eval.insert, ← heap_insert hT]
  rfl

theorem alloc (f : Frame α) :
    T.Tracks id (Eval.alloc f) (Eval.alloc (T.frame f)) (Eval.alloc (T.frame f)) := by
  refine of_eq fun h => ?_
  rw [Eval.alloc, Eval.alloc, heap_alloc]
  rfl

/-- A translated literal has its value at the latest in the next depth. -/
theorem literal (hT : T.Lawful) (depth : Nat) (env : FrameId) (v : Int64) :
    T.Tracks T.value (Eval.pure (.int v)) (Eval.expression (depth + 1) env (T.literal v))
      (Pure.pure (.int v)) := by
  refine ⟨fun {h out} hout => ?_, fun {h out'} hout => ?_⟩
  · cases hout
    rfl
  · have hnext := (Eval.grows_all (depth + 1)).expression env (T.literal v) _ _ hout
    rw [hT.literal] at hnext
    cases hnext
    exact ⟨_, rfl, rfl⟩

end Tracks

/-! ## Evaluations of translated nodes -/

/-- In some depth, evaluations of translated nodes in this depth and in the next one track those of
the nodes. -/
structure TracksAll (T : Translation α) (depth : Nat) : Prop where
  expression : ∀ env e, T.Tracks T.value (Eval.expression depth env e)
    (Eval.expression depth env (T.expr e)) (Eval.expression (depth + 1) env (T.expr e))
  arguments : ∀ env es, T.Tracks (List.map T.value) (Eval.arguments depth env es)
    (Eval.arguments depth env (T.exprs es)) (Eval.arguments (depth + 1) env (T.exprs es))
  apply : ∀ f args, T.Tracks T.value (Eval.apply depth f args)
    (Eval.apply depth (T.value f) (args.map T.value))
    (Eval.apply (depth + 1) (T.value f) (args.map T.value))
  statement : ∀ env s, T.Tracks T.value (Eval.statement depth env s)
    (Eval.statement depth env (T.stmt s)) (Eval.statement (depth + 1) env (T.stmt s))
  statements : ∀ env last ss, T.Tracks T.value (Eval.statements depth env last ss)
    (Eval.statements depth env (T.value last) (T.stmts ss))
    (Eval.statements (depth + 1) env (T.value last) (T.stmts ss))

namespace TracksAll

variable {T : Translation α} {depth : Nat} (ih : T.TracksAll depth) (hT : T.Lawful)

include ih hT

/-- A literal may be an operation once it is translated, so the upper bound has a level to spare. -/
theorem expression_succ (env : FrameId) (e : Expr α) :
    T.Tracks T.value (Eval.expression (depth + 1) env e)
      (Eval.expression (depth + 1) env (T.expr e)) (Eval.expression (depth + 2) env (T.expr e)) := by
  cases e with
  | callable c =>
    rw [Translation.expr, Eval.expression, Eval.expression, Eval.expression]
    exact .callable hT.injective env c
  | int v =>
    -- What stands for the literal has two levels to itself only in the next depth.
    rw [Translation.expr, hT.literal, Eval.expression]
    exact .literal hT depth env v
  | bool b =>
    rw [Translation.expr, Eval.expression, Eval.expression]
    exact .pure _
  | unary op e =>
    rw [Translation.expr, Eval.expression, Eval.expression, Eval.expression]
    refine (ih.expression env e).bind fun a => ?_
    rw [apply_value]
    exact .ofExcept _
  | binary op l r =>
    rw [Translation.expr, Eval.expression, Eval.expression, Eval.expression]
    refine (ih.expression env l).bind fun a => (ih.expression env r).bind fun b => ?_
    rw [apply_value_value]
    exact .ofExcept _
  | ifThen c t =>
    rw [Translation.expr, Eval.expression, Eval.expression, Eval.expression]
    refine (ih.expression env c).bind fun v => ?_
    rw [truthy_value]
    split
    · exact ih.statements env .null t
    · exact .pure _
  | ifElse c t u =>
    rw [Translation.expr, Eval.expression, Eval.expression, Eval.expression]
    refine (ih.expression env c).bind fun v => ?_
    rw [truthy_value]
    split
    · exact ih.statements env .null t
    · exact ih.statements env .null u
  | call f args =>
    rw [Translation.expr, Eval.expression, Eval.expression, Eval.expression]
    refine (Tracks.callable hT.injective env f).bind fun v => ?_
    exact (ih.arguments env args).bind fun vs => ih.apply v vs

omit hT in
theorem arguments_succ (env : FrameId) (es : List (Expr α)) :
    T.Tracks (List.map T.value) (Eval.arguments (depth + 1) env es)
      (Eval.arguments (depth + 1) env (T.exprs es))
      (Eval.arguments (depth + 2) env (T.exprs es)) := by
  cases es with
  | nil =>
    rw [Translation.exprs, Eval.arguments, Eval.arguments]
    exact .pure _
  | cons e es =>
    rw [Translation.exprs, Eval.arguments, Eval.arguments, Eval.arguments]
    refine (ih.expression env e).bind fun v => ?_
    exact (ih.arguments env es).bind fun vs => .pure _

/-- The body of a translated function is translated, and its frame binds translated parameters. -/
theorem apply_succ (f : Value α) (args : List (Value α)) :
    T.Tracks T.value (Eval.apply (depth + 1) f args)
      (Eval.apply (depth + 1) (T.value f) (args.map T.value))
      (Eval.apply (depth + 2) (T.value f) (args.map T.value)) := by
  cases f with
  | func c =>
    -- The heap holds translated functions only, so the called body is a translated one.
    rw [Translation.value, Eval.apply, Eval.apply, Eval.apply, closure_frame hT.injective]
    refine (Tracks.alloc (c.frame args)).bind fun env => ?_
    exact (ih.statements env .null c.body).catchReturn
  | _ =>
    simp only [Translation.value, Eval.apply]
    exact .unwind _

theorem statement_succ (env : FrameId) (s : Stmt α) :
    T.Tracks T.value (Eval.statement (depth + 1) env s)
      (Eval.statement (depth + 1) env (T.stmt s)) (Eval.statement (depth + 2) env (T.stmt s)) := by
  cases s with
  | letDecl x e =>
    rw [Translation.stmt, Eval.statement, Eval.statement, Eval.statement]
    refine (ih.expression env e).bind fun v => ?_
    exact (Tracks.insert hT.injective env x v).bind fun _ => .pure _
  | ret e =>
    rw [Translation.stmt, Eval.statement, Eval.statement, Eval.statement]
    exact (ih.expression env e).bind fun v => .unwind _
  | expr e =>
    rw [Translation.stmt, Eval.statement, Eval.statement, Eval.statement]
    exact ih.expression env e

omit hT in
theorem statements_succ (env : FrameId) (last : Value α) (ss : List (Stmt α)) :
    T.Tracks T.value (Eval.statements (depth + 1) env last ss)
      (Eval.statements (depth + 1) env (T.value last) (T.stmts ss))
      (Eval.statements (depth + 2) env (T.value last) (T.stmts ss)) := by
  cases ss with
  | nil =>
    rw [Translation.stmts, Eval.statements, Eval.statements, Eval.statements]
    exact .pure _
  | cons s ss =>
    rw [Translation.stmts, Eval.statements, Eval.statements, Eval.statements]
    exact (ih.statement env s).bind fun v => ih.statements env v ss

end TracksAll

/-- Without depth the lower bound has no outcome, and each further level keeps both bounds. -/
theorem Lawful.tracks_all {T : Translation α} (hT : T.Lawful) : ∀ depth, T.TracksAll depth
  | 0 =>
    { expression := fun _ _ => by rw [Eval.expression, Eval.expression]; exact .exhausted
      arguments := fun _ _ => by rw [Eval.arguments, Eval.arguments]; exact .exhausted
      apply := fun _ _ => by rw [Eval.apply, Eval.apply]; exact .exhausted
      statement := fun _ _ => by rw [Eval.statement, Eval.statement]; exact .exhausted
      statements := fun _ _ _ => by rw [Eval.statements, Eval.statements]; exact .exhausted }
  | depth + 1 =>
    have ih := hT.tracks_all depth
    { expression := ih.expression_succ hT
      arguments := ih.arguments_succ
      apply := ih.apply_succ hT
      statement := ih.statement_succ hT
      statements := ih.statements_succ }

/-- The translation of a node. -/
def node (T : Translation α) : Node α → Node α
  | .expr e => .expr (T.expr e)
  | .stmt s => .stmt (T.stmt s)
  | .block body => .block (T.stmts body)

/-- The evaluation of a node lies between two evaluations of the translated node. -/
theorem Lawful.tracks_eval {T : Translation α} (hT : T.Lawful) (depth : Nat) (env : FrameId)
    (node : Node α) : T.Tracks T.value (node.eval depth env) ((T.node node).eval depth env)
      ((T.node node).eval (depth + 1) env) := by
  cases node with
  | expr e => exact (hT.tracks_all depth).expression env e
  | stmt s => exact (hT.tracks_all depth).statement env s
  | block body => exact (hT.tracks_all depth).statements env .null body

/-- In the translated heap, a translated node has the translated outcomes of the node and no
others. -/
theorem Lawful.ends_iff {T : Translation α} (hT : T.Lawful) (node : Node α) (env : FrameId)
    (h : Heap α) (r' : Except (Unwind α) (Value α)) (k' : Heap α) :
    Eval.Ends (fun depth => (T.node node).eval depth env) (T.heap h) r' k' ↔
      ∃ r k, Eval.Ends (fun depth => node.eval depth env) h r k ∧
        r' = T.result T.value r ∧ k' = T.heap k := by
  constructor
  · rintro ⟨depth, hrun⟩
    obtain ⟨⟨r, k⟩, hnode, heq⟩ := (hT.tracks_eval depth env node).back hrun
    rw [outcome, Prod.mk.injEq] at heq
    exact ⟨r, k, ⟨depth, hnode⟩, heq⟩
  · rintro ⟨r, k, ⟨depth, hnode⟩, rfl, rfl⟩
    exact ⟨depth + 1, (hT.tracks_eval depth env node).forth hnode⟩

/-! ## Renamings -/

/-- A renaming that keeps names apart keeps all literals. -/
theorem ofNames_lawful {s : String → String} (hs : Function.Injective s) :
    (ofNames s : Translation α).Lawful where
  injective := hs
  literal depth env v := by
    rw [ofNames, Eval.expression]
    rfl

end Translation

/-- Evaluation commutes with every renaming that keeps names apart: in the heap whose bindings and
functions have renamed names, a node with all its names renamed ends if and only if the node does,
with the same result, up to the names in it, and in the same heap, up to the names in it. -/
theorem evaluation_commutes_with_renaming {s : String → String} (hs : Function.Injective s)
    (node : Node α) (env : FrameId) (h : Heap α) (r' : Except (Unwind α) (Value α)) (k' : Heap α) :
    Eval.Ends (fun depth => ((Translation.ofNames s).node node).eval depth env)
        ((Translation.ofNames s).heap h) r' k' ↔
      ∃ r k, Eval.Ends (fun depth => node.eval depth env) h r k ∧
        r' = (Translation.ofNames s).result (Translation.ofNames s).value r ∧
        k' = (Translation.ofNames s).heap k :=
  (Translation.ofNames_lawful hs).ends_iff node env h r' k'

/-- A frame that binds `x` to the integer and `f` to the function `fn(y, y, x) {(y - x);}`, and
further frames. -/
def subtracts (x y : String) (v : Int64) (calls : List (Frame Unit)) : Heap Unit :=
  ⟨(⟨[(x, .int v), ("f", .func ⟨(), [y, y, x],
    [.expr (.binary .subtract (.callable (.name y)) (.callable (.name x)))], 0⟩)], none⟩ ::
      calls).toArray⟩

/-- The statements `let x = f(10, 7); y;`. -/
def rebinds (x y : String) : Node Unit :=
  .block [.letDecl x (.call (.name "f") [.int 10, .int 7]), .expr (.callable (.name y))]

/-- With `x` and `y` exchanged, the call takes its second argument for both parameters `x` and finds
`y` outside of its frame; behind the call `x` is not found. -/
theorem evaluation_commutes_with_renaming_exchange :
    Eval.Ends (fun depth => (rebinds "y" "x").eval depth 0) (subtracts "y" "x" 2 [])
      (.error (.error (.unboundName "x"))) (subtracts "y" "x" 5 [⟨[("x", .int 7)], some 0⟩]) := by
  have hrun : Eval.Ends (fun depth => (rebinds "x" "y").eval depth 0) (subtracts "x" "y" 2 [])
      (.error (.error (.unboundName "y"))) (subtracts "x" "y" 5 [⟨[("y", .int 7)], some 0⟩]) :=
    ⟨9, by cbv⟩
  -- The exchange takes the statements and both heaps to those with the names exchanged.
  have hnode : (Translation.ofNames (Equiv.swap "x" "y")).node (rebinds "x" "y") =
      rebinds "y" "x" := by cbv
  have hheap : (Translation.ofNames (Equiv.swap "x" "y")).heap (subtracts "x" "y" 2 []) =
      subtracts "y" "x" 2 [] := by cbv
  have hleft : (Translation.ofNames (Equiv.swap "x" "y")).heap
      (subtracts "x" "y" 5 [⟨[("y", .int 7)], some 0⟩]) =
        subtracts "y" "x" 5 [⟨[("x", .int 7)], some 0⟩] := by cbv
  have hrenamed := evaluation_commutes_with_renaming (Equiv.injective (Equiv.swap "x" "y"))
    (rebinds "x" "y") 0 (subtracts "x" "y" 2 []) (.error (.error (.unboundName "x")))
    (subtracts "y" "x" 5 [⟨[("x", .int 7)], some 0⟩])
  rw [hnode, hheap] at hrenamed
  exact hrenamed.2 ⟨_, _, hrun, rfl, hleft.symm⟩

end LetLang
