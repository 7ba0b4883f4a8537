import LetLang.Proofs.Evaluation.Simulation
import LetLang.Proofs.Heap.Reachable

/-!
# What evaluations keep

An evaluation does three things with a heap: it looks names up, binds names, and makes frames. An
`Invariant` is a property of heaps that the last two keep, together with the frames that may be used
in a heap of a given size, from which lookup does not lead away. Every evaluation in such a frame
keeps the invariant, and its result captured such frames only (`Node.keeps`), whether it ends with a
value, returns or fails.
-/

set_option autoImplicit false

namespace LetLang

variable {α β γ : Type}

/-! ## Values and frames that hold live frames only -/

/-- A value that captured no frame but live ones. -/
def Value.Within (live : FrameId → Prop) (v : Value α) : Prop := ∀ i, v.Captures i → live i

/-- A frame that links no frame but live ones, with values that captured no others. -/
structure Frame.Within (live : FrameId → Prop) (f : Frame α) : Prop where
  outer : ∀ o, f.outer = some o → live o
  bindings : ∀ x v, f.bindings.find? x = some v → v.Within live

section Within

variable {live live' : FrameId → Prop} {v : Value α} {f : Frame α}

theorem Value.Within.mono (hsub : ∀ i, live i → live' i) (hv : v.Within live) : v.Within live' :=
  fun i hi => hsub i (hv i hi)

/-- A value that is no function captured no frame. -/
theorem Value.within_of_ne (hv : ∀ c, v ≠ .func c) : v.Within live := by
  rintro i ⟨c, rfl, -⟩
  exact absurd rfl (hv c)

/-- A value that is related to itself though no frames are related captured none. -/
theorem Value.within_of_related (hv : v.Related (fun _ _ => False) v) : v.Within live := by
  refine Value.within_of_ne ?_
  rintro c rfl
  cases hv with
  | func henvs => exact henvs

theorem null_within : (Value.null : Value α).Within live :=
  Value.within_of_ne fun _ hc => by cases hc

theorem Frame.Within.mono (hsub : ∀ i, live i → live' i) (hf : f.Within live) : f.Within live' :=
  ⟨fun o ho => hsub o (hf.outer o ho), fun x v hv => (hf.bindings x v hv).mono hsub⟩

/-- A binding of a value that captured live frames keeps a frame within them. -/
theorem Frame.Within.insert (hf : f.Within live) (x : String) (hv : v.Within live) :
    (f.insert x v).Within live := by
  refine ⟨hf.outer, fun y w hw => ?_⟩
  rw [Frame.insert, Bindings.find?_insert] at hw
  split at hw
  · cases hw
    exact hv
  · exact hf.bindings y w hw

/-- The frame of a call is inside the captured frame and holds arguments. -/
theorem Closure.frame_within {c : Closure α} {args : List (Value α)} (hc : live c.env)
    (hargs : ∀ v ∈ args, v.Within live) : (c.frame args).Within live := by
  refine Closure.frame_keeps ⟨?_, ?_⟩ fun f hf x v hv => hf.insert x (hargs v hv)
  · rintro o ho
    cases ho
    exact hc
  · intro x v hv
    cases hv

end Within

/-! ## Invariants -/

/-- A property of heaps, and the frames that are live in a heap of a given size. -/
structure Invariant (α : Type) where
  live : Nat → FrameId → Prop
  heap : Heap α → Prop
  live_mono : ∀ {size size' i}, live size i → size ≤ size' → live size' i
  /-- A value that is found from a live frame captured live frames. -/
  find? : ∀ {h : Heap α} {env x v}, heap h → live h.frames.size env → h.find? env x = some v →
    v.Within (live h.frames.size)
  insert : ∀ {h : Heap α} {env x v}, heap h → v.Within (live h.frames.size) →
    heap (h.insert env x v)
  /-- A frame that is made to hold live frames is live itself. -/
  alloc : ∀ {h : Heap α} {f}, heap h → f.Within (live h.frames.size) →
    heap (h.alloc f).2 ∧ live (h.frames.size + 1) h.frames.size

namespace Eval

/-- What a run from the heap `h` to `k` keeps: the invariant holds of `k`, the result has the
property `P` in it, and what is returned captured live frames. -/
structure Kept (I : Invariant α) (P : Nat → β → Prop) (h : Heap α) (r : Except (Unwind α) β)
    (k : Heap α) : Prop where
  size_le : h.frames.size ≤ k.frames.size
  heap : I.heap k
  result : ∀ b, r = .ok b → P k.frames.size b
  returned : ∀ v, r = .error (.ret v) → v.Within (I.live k.frames.size)

/-- All runs on heaps of the invariant keep it, if there are `size` frames at least. -/
def Keeps (I : Invariant α) (P : Nat → β → Prop) (size : Nat) (m : Eval α β) : Prop :=
  ∀ h r k, size ≤ h.frames.size → I.heap h → m h = some (r, k) → Kept I P h r k

/-- Values that captured live frames. -/
abbrev Lives (I : Invariant α) (size : Nat) (v : Value α) : Prop := v.Within (I.live size)

/-- Frames that are live stay live in greater heaps. -/
theorem Lives.mono {I : Invariant α} {size size' : Nat} {v : Value α} (hv : Lives I size v)
    (hle : size ≤ size') : Lives I size' v :=
  Value.Within.mono (fun _ hi => I.live_mono hi hle) hv

namespace Keeps

variable {I : Invariant α} {P : Nat → β → Prop} {Q : Nat → γ → Prop} {size : Nat} {m : Eval α β}
  {f : β → Eval α γ} {env : FrameId}

theorem exhausted : Keeps I P size (exhausted : Eval α β) := by
  intro h r k _ _ hrun
  cases hrun

theorem pure {b : β} (hb : ∀ t, size ≤ t → P t b) : Keeps I P size (Pure.pure b : Eval α β) := by
  intro h r k hsize hh hrun
  cases hrun
  refine ⟨Nat.le_refl _, hh, ?_, fun v hv => by cases hv⟩
  rintro _ ⟨⟩
  exact hb _ hsize

/-- What is returned must have captured live frames, since it becomes the value of a call. -/
theorem unwind {u : Unwind α} (hu : ∀ v, u = .ret v → Lives I size v) :
    Keeps I P size (unwind u : Eval α β) := by
  intro h r k hsize hh hrun
  cases hrun
  refine ⟨Nat.le_refl _, hh, fun b hb => (by cases hb), ?_⟩
  rintro v ⟨⟩
  exact (hu v rfl).mono hsize

/-- The results of operators capture nothing. -/
theorem ofExcept {r : Except EvalError (Value α)}
    (hr : ∀ v, r = .ok v → v.Related (fun _ _ => False) v) :
    Keeps I (Lives I) size (ofExcept r : Eval α (Value α)) := by
  cases r with
  | ok v => exact pure fun t _ => Value.within_of_related (hr v rfl)
  | error e => exact unwind fun v hv => by cases hv

/-- The second evaluation runs in a heap that may be greater, where what the first one says still
holds. -/
theorem bind (hm : Keeps I P size m) (hf : ∀ b t, size ≤ t → P t b → Keeps I Q t (f b)) :
    Keeps I Q size (m >>= f) := by
  intro h r k hsize hh hrun
  replace hrun : Eval.bind m f h = some (r, k) := hrun
  rw [Eval.bind] at hrun
  split at hrun
  · cases hrun
  · next u h' hmid =>
    cases hrun
    have hfirst := hm h _ k hsize hh hmid
    refine ⟨hfirst.size_le, hfirst.heap, fun b hb => (by cases hb), ?_⟩
    rintro v ⟨⟩
    exact hfirst.returned v rfl
  · next b h' hmid =>
    have hfirst := hm h _ h' hsize hh hmid
    have hsecond := hf b _ (Nat.le_trans hsize hfirst.size_le) (hfirst.result b rfl) h' r k
      (Nat.le_refl _) hfirst.heap hrun
    exact ⟨Nat.le_trans hfirst.size_le hsecond.size_le, hsecond.heap, hsecond.result,
      hsecond.returned⟩

/-- A call keeps the invariant with its body, and what its body returns is its value. -/
theorem catchReturn {m : Eval α (Value α)} (hm : Keeps I (Lives I) size m) :
    Keeps I (Lives I) size (catchReturn m) := by
  intro h r k hsize hh hrun
  rw [Eval.catchReturn] at hrun
  split at hrun
  · next v h' hmid =>
    cases hrun
    have hbody := hm h _ _ hsize hh hmid
    refine ⟨hbody.size_le, hbody.heap, ?_, fun w hw => by cases hw⟩
    rintro _ ⟨⟩
    exact hbody.returned v rfl
  · exact hm h r k hsize hh hrun

/-- Lookup does not lead away from live frames, and a function literal captures the environment. -/
theorem callable (henv : I.live size env) (c : Callable α) :
    Keeps I (Lives I) size (callable env c) := by
  cases c with
  | func label xs body =>
    refine pure fun t ht i hi => ?_
    obtain ⟨c, hc, rfl⟩ := hi
    cases hc
    exact I.live_mono henv ht
  | name x =>
    intro h r k hsize hh hrun
    rw [Eval.callable, find] at hrun
    split at hrun
    · next v hfind =>
      cases hrun
      refine ⟨Nat.le_refl _, hh, ?_, fun w hw => by cases hw⟩
      rintro _ ⟨⟩
      exact I.find? hh (I.live_mono henv hsize) hfind
    · cases hrun
      exact ⟨Nat.le_refl _, hh, fun b hb => (by cases hb), fun w hw => by cases hw⟩

theorem insert {x : String} {v : Value α} (hv : Lives I size v) :
    Keeps I (fun _ _ => True) size (insert env x v) := by
  intro h r k hsize hh hrun
  cases hrun
  exact ⟨Nat.le_of_eq (h.size_insert env x v).symm, I.insert hh (hv.mono hsize),
    fun _ _ => trivial, fun w hw => by cases hw⟩

theorem alloc {f : Frame α} (hf : f.Within (I.live size)) :
    Keeps I I.live size (alloc f) := by
  intro h r k hsize hh hrun
  cases hrun
  obtain ⟨hheap, hnew⟩ := I.alloc hh (hf.mono fun i hi => I.live_mono hi hsize)
  refine ⟨?_, hheap, ?_, fun w hw => by cases hw⟩
  · exact Nat.le_trans (Nat.le_succ _) (Nat.le_of_eq (h.size_alloc f).symm)
  · rintro _ ⟨⟩
    show I.live (h.alloc f).2.frames.size h.frames.size
    rw [Heap.size_alloc]
    exact hnew

end Keeps

/-- In some depth, all evaluations in live frames keep the invariant. -/
structure KeepsAll (I : Invariant α) (depth : Nat) : Prop where
  expression : ∀ {size env}, I.live size env → ∀ e : Expr α,
    Keeps I (Lives I) size (expression depth env e)
  arguments : ∀ {size env}, I.live size env → ∀ es : List (Expr α),
    Keeps I (fun t vs => ∀ v ∈ vs, Lives I t v) size (arguments depth env es)
  apply : ∀ {size} {f : Value α} {args : List (Value α)}, Lives I size f →
    (∀ v ∈ args, Lives I size v) → Keeps I (Lives I) size (apply depth f args)
  statement : ∀ {size env}, I.live size env → ∀ s : Stmt α,
    Keeps I (Lives I) size (statement depth env s)
  statements : ∀ {size env last}, I.live size env → Lives I size last → ∀ ss : List (Stmt α),
    Keeps I (Lives I) size (statements depth env last ss)

namespace KeepsAll

variable {I : Invariant α} {depth size : Nat} (ih : KeepsAll I depth) {env : FrameId}

include ih

/-- The parts of an expression run in the environment of the whole. -/
theorem expression_succ (henv : I.live size env) (e : Expr α) :
    Keeps I (Lives I) size (Eval.expression (depth + 1) env e) := by
  cases e with
  | callable c =>
    rw [Eval.expression]
    exact .callable henv c
  | int v =>
    rw [Eval.expression]
    exact .pure fun _ _ => Value.within_of_ne fun _ hc => by cases hc
  | bool b =>
    rw [Eval.expression]
    exact .pure fun _ _ => Value.within_of_ne fun _ hc => by cases hc
  | unary op e =>
    rw [Eval.expression]
    refine .bind (ih.expression henv e) fun a t _ _ => ?_
    exact .ofExcept fun _ hr => Value.Related.unary_result hr
  | binary op l r =>
    rw [Eval.expression]
    refine .bind (ih.expression henv l) fun a t ht _ => ?_
    refine .bind (ih.expression (I.live_mono henv ht) r) fun b t' _ _ => ?_
    exact .ofExcept fun _ hr => Value.Related.binary_result hr
  | ifThen c b =>
    rw [Eval.expression]
    refine .bind (ih.expression henv c) fun v t ht _ => ?_
    split
    · exact ih.statements (I.live_mono henv ht) null_within b
    · exact .pure fun _ _ => null_within
  | ifElse c b b' =>
    rw [Eval.expression]
    refine .bind (ih.expression henv c) fun v t ht _ => ?_
    exact ih.statements (I.live_mono henv ht) null_within _
  | call f args =>
    -- The callee was found before the arguments made frames, and its frame is still live.
    rw [Eval.expression]
    refine .bind (.callable henv f) fun v t ht hv => ?_
    refine .bind (ih.arguments (I.live_mono henv ht) args) fun vs t' ht' hvs => ?_
    exact ih.apply (hv.mono ht') hvs

theorem arguments_succ (henv : I.live size env) (es : List (Expr α)) :
    Keeps I (fun t vs => ∀ v ∈ vs, Lives I t v) size (Eval.arguments (depth + 1) env es) := by
  cases es with
  | nil =>
    rw [Eval.arguments]
    exact .pure fun t _ v hv => by cases hv
  | cons e es =>
    rw [Eval.arguments]
    refine .bind (ih.expression henv e) fun v t ht hv => ?_
    refine .bind (ih.arguments (I.live_mono henv ht) es) fun vs t' ht' hvs => ?_
    refine .pure fun t'' ht'' w hw => ?_
    -- What captured live frames before still does, since live frames stay live.
    rcases List.mem_cons.1 hw with rfl | hw
    · exact hv.mono (Nat.le_trans ht' ht'')
    · exact (hvs w hw).mono ht''

/-- The body of a function runs in a new frame inside a live one. -/
theorem apply_succ {f : Value α} {args : List (Value α)} (hf : Lives I size f)
    (hargs : ∀ v ∈ args, Lives I size v) :
    Keeps I (Lives I) size (Eval.apply (depth + 1) f args) := by
  by_cases hfunc : ∃ c, f = .func c
  · obtain ⟨c, rfl⟩ := hfunc
    rw [Eval.apply]
    refine .bind (.alloc (Closure.frame_within (hf c.env ⟨c, rfl, rfl⟩) hargs)) fun e t _ he => ?_
    exact .catchReturn (ih.statements he null_within c.body)
  · rw [Eval.apply.eq_3 _ _ _ fun c hc => hfunc ⟨c, hc⟩]
    exact .unwind fun v hv => by cases hv

/-- A `let` binds a value that captured live frames. -/
theorem statement_succ (henv : I.live size env) (s : Stmt α) :
    Keeps I (Lives I) size (Eval.statement (depth + 1) env s) := by
  cases s with
  | letDecl x e =>
    rw [Eval.statement]
    refine .bind (ih.expression henv e) fun v t _ hv => ?_
    refine .bind (.insert hv) fun _ t' ht' _ => .pure fun t'' ht'' => ?_
    exact hv.mono (Nat.le_trans ht' ht'')
  | ret e =>
    rw [Eval.statement]
    refine .bind (ih.expression henv e) fun v t _ hv => .unwind ?_
    rintro _ ⟨⟩
    exact hv
  | expr e =>
    rw [Eval.statement]
    exact ih.expression henv e

theorem statements_succ {last : Value α} (henv : I.live size env) (hlast : Lives I size last)
    (ss : List (Stmt α)) : Keeps I (Lives I) size (Eval.statements (depth + 1) env last ss) := by
  cases ss with
  | nil =>
    rw [Eval.statements]
    exact .pure fun t ht => hlast.mono ht
  | cons s ss =>
    rw [Eval.statements]
    refine .bind (ih.statement henv s) fun v t ht hv => ?_
    exact ih.statements (I.live_mono henv ht) hv ss

end KeepsAll

/-- Without depth there is no run, and each further level keeps the invariant if the one before
does. -/
theorem keeps_all (I : Invariant α) : ∀ depth, KeepsAll I depth
  | 0 =>
    { expression := fun _ _ => by rw [expression]; exact .exhausted
      arguments := fun _ _ => by rw [arguments]; exact .exhausted
      apply := fun _ _ => by rw [apply]; exact .exhausted
      statement := fun _ _ => by rw [statement]; exact .exhausted
      statements := fun _ _ _ => by rw [statements]; exact .exhausted }
  | depth + 1 =>
    have ih := keeps_all I depth
    { expression := ih.expression_succ
      arguments := ih.arguments_succ
      apply := ih.apply_succ
      statement := ih.statement_succ
      statements := ih.statements_succ }

end Eval

/-- Every evaluation in a live frame keeps the invariant. -/
theorem Node.keeps (node : Node α) {I : Invariant α} {size : Nat} {env : FrameId}
    (henv : I.live size env) (depth : Nat) :
    Eval.Keeps I (Eval.Lives I) size (node.eval depth env) := by
  cases node with
  | expr e => exact (Eval.keeps_all I depth).expression henv e
  | stmt s => exact (Eval.keeps_all I depth).statement henv s
  | block body => exact (Eval.keeps_all I depth).statements henv null_within body

end LetLang
