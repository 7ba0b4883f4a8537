import LetLang.Proofs.Evaluation.Locality

/-!
# Bindings that nobody mentions

Two heaps may differ in what they bind to a name `k`: a frame may bind it in one heap and not in the
other, or to another value. If neither the node that is evaluated nor any function bound to another
name mentions `k`, then no run ever looks `k` up or passes on a value found under it. So the node
ends in both heaps or in none, with one result, and the heaps that are left again differ in nothing
but `k` (`unmentioned_binding_changes_nothing`).
-/

set_option autoImplicit false

namespace LetLang

variable {α β γ : Type}

/-! ## The names in a tree -/

mutual

/-- The names in an expression: those it looks up or binds, and those in its function literals. -/
def Expr.names : Expr α → List String
  | .callable c => c.names
  | .int _ => []
  | .bool _ => []
  | .unary _ e => e.names
  | .binary _ l r => l.names ++ r.names
  | .ifThen c t => c.names ++ stmtsNames t
  | .ifElse c t u => c.names ++ (stmtsNames t ++ stmtsNames u)
  | .call f args => f.names ++ exprsNames args

def Callable.names : Callable α → List String
  | .name x => [x]
  | .func _ xs body => xs ++ stmtsNames body

def Stmt.names : Stmt α → List String
  | .letDecl x e => x :: e.names
  | .ret e => e.names
  | .expr e => e.names

def exprsNames : List (Expr α) → List String
  | [] => []
  | e :: es => e.names ++ exprsNames es

def stmtsNames : List (Stmt α) → List String
  | [] => []
  | s :: ss => s.names ++ stmtsNames ss

end

/-- The names in a node. -/
def Node.names : Node α → List String
  | .expr e => e.names
  | .stmt s => s.names
  | .block body => stmtsNames body

/-- The names in a value: the parameters of a function, and the names in its body. -/
def Value.names : Value α → List String
  | .func c => c.parameters ++ stmtsNames c.body
  | _ => []

/-- The result of an operator is no function, and has no names. -/
theorem UnaryOp.names_apply {op : UnaryOp} {a v : Value α} (h : op.apply a = .ok v) :
    v.names = [] := by
  have hrelated : v.Related (fun _ _ => False) v := Value.Related.unary_result h
  cases hrelated with
  | func hfalse => exact hfalse.elim
  | _ => rfl

/-- The same holds of an operator between two operands. -/
theorem BinaryOp.names_apply {op : BinaryOp} {a b v : Value α} (h : op.apply a b = .ok v) :
    v.names = [] := by
  have hrelated : v.Related (fun _ _ => False) v := Value.Related.binary_result h
  cases hrelated with
  | func hfalse => exact hfalse.elim
  | _ => rfl

/-! ## Heaps that are the same but for one name -/

section Heaps

variable (k : String)

/-- Frames inside the same frame that bind every other name than `k` to the same value. -/
structure Frame.SameBut (f f' : Frame α) : Prop where
  outer : f.outer = f'.outer
  bindings : ∀ x, x ≠ k → f.bindings.find? x = f'.bindings.find? x

/-- Heaps with the same frames, but for what these bind to `k`. -/
def Heap.SameBut (h h' : Heap α) : Prop :=
  ∀ i, Option.Rel (Frame.SameBut k) (h.frame? i) (h'.frame? i)

/-- Whether a value is no function that mentions `k`. -/
def Value.Omits (v : Value α) : Prop := k ∉ v.names

/-- Functions that a frame binds to another name than `k` do not mention `k`. -/
def Frame.Omits (f : Frame α) : Prop :=
  ∀ x v, x ≠ k → f.bindings.find? x = some v → v.Omits k

/-- Functions that are bound to another name than `k` do not mention `k`. -/
def Heap.Omits (h : Heap α) : Prop := ∀ i f, h.frame? i = some f → f.Omits k

/-- Two heaps on which runs that do not mention `k` do the same. -/
structure Heap.Alike (h h' : Heap α) : Prop where
  same : h.SameBut k h'
  omits : h.Omits k

end Heaps

section Frames

variable {k : String} {f f' : Frame α} {v : Value α}

namespace Frame

theorem SameBut.refl (f : Frame α) : f.SameBut k f := ⟨rfl, fun _ _ => rfl⟩

theorem SameBut.symm (hsame : f.SameBut k f') : f'.SameBut k f :=
  ⟨hsame.outer.symm, fun x hx => (hsame.bindings x hx).symm⟩

/-- A binding made in both frames keeps them the same, whatever its name is. -/
theorem SameBut.insert (hsame : f.SameBut k f') (x : String) (v : Value α) :
    (f.insert x v).SameBut k (f'.insert x v) := by
  constructor
  · exact hsame.outer
  · intro y hy
    simp only [Frame.insert, Bindings.find?_insert, hsame.bindings y hy]

/-- What is bound to other names than `k` is the same in both frames. -/
theorem Omits.of_same (homits : f.Omits k) (hsame : f.SameBut k f') : f'.Omits k := by
  intro x v hx hv
  rw [← hsame.bindings x hx] at hv
  exact homits x v hx hv

/-- A value that does not mention `k` may be bound to any name. -/
theorem Omits.insert (homits : f.Omits k) (hv : v.Omits k) (x : String) :
    (f.insert x v).Omits k := by
  intro y w hy hw
  rw [Frame.insert, Bindings.find?_insert] at hw
  split at hw
  · cases hw
    exact hv
  · exact homits y w hy hw

/-- The frame of a call binds nothing but the arguments. -/
theorem Omits.closure_frame (c : Closure α) {args : List (Value α)}
    (hargs : ∀ v ∈ args, v.Omits k) : (c.frame args).Omits k := by
  refine Closure.frame_keeps (fun x v _ hv => ?_) fun f hf x v hv => hf.insert (hargs v hv) x
  cases hv

end Frame

end Frames

namespace Heap

variable {k : String} {h h' : Heap α}

theorem SameBut.symm (hsame : h.SameBut k h') : h'.SameBut k h := by
  intro i
  have hi := hsame i
  generalize h.frame? i = found at hi
  generalize h'.frame? i = found' at hi
  cases hi with
  | none => exact .none
  | some hf => exact .some hf.symm

/-- Heaps that differ in bindings only have the same number of frames. -/
theorem SameBut.size_eq (hsame : h.SameBut k h') : h.frames.size = h'.frames.size := by
  have hle : ∀ i, h.frames.size ≤ i ↔ h'.frames.size ≤ i := by
    intro i
    have hi := hsame i
    rw [← frame?_eq_none_iff, ← frame?_eq_none_iff]
    generalize h.frame? i = found at hi
    generalize h'.frame? i = found' at hi
    cases hi <;> simp
  exact Nat.le_antisymm ((hle _).2 le_rfl) ((hle _).1 le_rfl)

/-- A binding in both heaps is made in the same frame, or in none. -/
theorem SameBut.insert (hsame : h.SameBut k h') (e : FrameId) (x : String) (v : Value α) :
    (h.insert e x v).SameBut k (h'.insert e x v) := by
  intro i
  have hi := hsame i
  by_cases he : i = e
  · subst he
    rw [frame?_insert_self, frame?_insert_self]
    generalize h.frame? i = found at hi
    generalize h'.frame? i = found' at hi
    cases hi with
    | none => exact .none
    | some hf => exact .some (hf.insert x v)
  · rwa [frame?_insert_of_ne _ _ _ he, frame?_insert_of_ne _ _ _ he]

theorem SameBut.alloc (hsame : h.SameBut k h') (f : Frame α) :
    (h.alloc f).2.SameBut k (h'.alloc f).2 := by
  intro i
  by_cases hi : i = h.frames.size
  · -- The new frame has one name in both heaps, as these are of one size.
    have hself := h'.frame?_alloc_self f
    rw [← hsame.size_eq] at hself
    rw [hi, frame?_alloc_self, hself]
    exact .some (.refl f)
  · rw [frame?_alloc_of_ne _ _ hi, frame?_alloc_of_ne _ _ (hsame.size_eq ▸ hi)]
    exact hsame i

theorem Omits.of_same (homits : h.Omits k) (hsame : h.SameBut k h') : h'.Omits k := by
  intro i f' hf'
  have hi := hsame.symm i
  rw [hf'] at hi
  obtain ⟨f, hf, hback⟩ := exists_of_rel_some hi
  exact (homits i f hf).of_same hback.symm

/-- A binding changes one frame only, which goes on omitting `k`. -/
theorem Omits.insert (homits : h.Omits k) {v : Value α} (hv : v.Omits k) (e : FrameId)
    (x : String) : (h.insert e x v).Omits k := by
  intro i f hf
  by_cases he : i = e
  · subst he
    rw [frame?_insert_self, Option.map_eq_some_iff] at hf
    obtain ⟨g, hg, rfl⟩ := hf
    exact (homits i g hg).insert hv x
  · rw [frame?_insert_of_ne _ _ _ he] at hf
    exact homits i f hf

theorem Omits.alloc (homits : h.Omits k) {f : Frame α} (hf : f.Omits k) :
    (h.alloc f).2.Omits k := by
  intro i g hg
  by_cases hi : i = h.frames.size
  · rw [hi, frame?_alloc_self] at hg
    cases hg
    exact hf
  · rw [frame?_alloc_of_ne _ _ hi] at hg
    exact homits i g hg

namespace Alike

theorem symm (halike : h.Alike k h') : h'.Alike k h :=
  ⟨halike.same.symm, halike.omits.of_same halike.same⟩

/-- A binding of a value that does not mention `k` leaves the heaps alike. -/
theorem insert (halike : h.Alike k h') {v : Value α} (hv : v.Omits k) (e : FrameId)
    (x : String) : (h.insert e x v).Alike k (h'.insert e x v) :=
  ⟨halike.same.insert e x v, halike.omits.insert hv e x⟩

/-- A frame that omits `k` leaves the heaps alike. -/
theorem alloc (halike : h.Alike k h') {f : Frame α} (hf : f.Omits k) :
    (h.alloc f).2.Alike k (h'.alloc f).2 :=
  ⟨halike.same.alloc f, halike.omits.alloc hf⟩

/-- Another name than `k` has the same value in both heaps, which does not mention `k`. -/
theorem find? (halike : h.Alike k h') {x : String} (hx : x ≠ k) (e : FrameId) :
    h.find? e x = h'.find? e x ∧ ∀ v, h.find? e x = some v → v.Omits k := by
  -- The name is looked up in older and older frames, whether or not these bind `k`.
  induction e using Nat.strongRecOn with
  | ind e ih =>
    have he := halike.same e
    have homits := halike.omits e
    rw [find?_eq, find?_eq]
    generalize h.frame? e = found at he homits
    generalize h'.frame? e = found' at he
    cases he with
    | none => simp
    | @some f f' hf =>
      -- The frame itself decides if it binds the name, and else the frame around it.
      simp only [← hf.bindings x hx, ← hf.outer]
      cases hv : f.bindings.find? x with
      | some v => simpa using homits f rfl x v hx hv
      | none =>
        cases f.outer with
        | none => simp
        | some o =>
          by_cases ho : o < e
          · simp only [if_pos ho]
            exact ih o ho
          · simp [ho]

end Alike

end Heap

/-! ## Runs that overlook a name -/

/-- How two runs that overlook `k` end: both without an outcome, or both with one result, which does
not mention `k`, and on heaps that are alike. Of the value of a run, `P` is known. -/
inductive SameEnd (k : String) (P : β → Prop) :
    Option (Except (Unwind α) β × Heap α) → Option (Except (Unwind α) β × Heap α) → Prop
  | none : SameEnd k P none none
  | ok {b : β} {h h' : Heap α} :
      P b → h.Alike k h' → SameEnd k P (some (.ok b, h)) (some (.ok b, h'))
  | ret {v : Value α} {h h' : Heap α} :
      v.Omits k → h.Alike k h' →
      SameEnd k P (some (.error (.ret v), h)) (some (.error (.ret v), h'))
  | error {e : EvalError} {h h' : Heap α} :
      h.Alike k h' → SameEnd k P (some (.error (.error e), h)) (some (.error (.error e), h'))

/-- Runs of an evaluation on heaps that are alike end the same. -/
def Overlooks (k : String) (P : β → Prop) (m : Eval α β) : Prop :=
  ∀ h h', h.Alike k h' → SameEnd k P (m h) (m h')

namespace Overlooks

variable {k : String} {P : β → Prop} {Q : γ → Prop} {m : Eval α β}

theorem exhausted : Overlooks k P (Eval.exhausted : Eval α β) := by
  intro h h' _
  exact .none

theorem pure {b : β} (hb : P b) : Overlooks k P (Pure.pure b : Eval α β) := by
  intro h h' halike
  exact .ok hb halike

theorem error (e : EvalError) : Overlooks k P (Eval.unwind (.error e) : Eval α β) := by
  intro h h' halike
  exact .error halike

/-- What is returned becomes the value of a call, so it must not mention `k`. -/
theorem ret {v : Value α} (hv : v.Omits k) :
    Overlooks k P (Eval.unwind (.ret v) : Eval α β) := by
  intro h h' halike
  exact .ret hv halike

/-- The results of operators are no functions and mention nothing. -/
theorem ofExcept {r : Except EvalError (Value α)} (hr : ∀ v, r = .ok v → v.names = []) :
    Overlooks k (Value.Omits k) (Eval.ofExcept r : Eval α (Value α)) := by
  cases r with
  | ok v => exact pure (by simp [Value.Omits, hr v rfl])
  | error e => exact error e

/-- The second evaluation starts from a value of which the first says that it does not mention `k`.
-/
theorem bind {f : β → Eval α γ} (hm : Overlooks k P m) (hf : ∀ b, P b → Overlooks k Q (f b)) :
    Overlooks k Q (m >>= f) := by
  intro h h' halike
  show SameEnd k Q (Eval.bind m f h) (Eval.bind m f h')
  unfold Eval.bind
  have hend := hm h h' halike
  revert hend
  generalize m h = out
  generalize m h' = out'
  rintro (_ | ⟨hb, hk⟩ | ⟨hv, hk⟩ | hk)
  · exact .none
  · exact hf _ hb _ _ hk
  · exact .ret hv hk
  · exact .error hk

/-- To the caller, a value that is returned is a value like any other. -/
theorem catchReturn {m : Eval α (Value α)} (hm : Overlooks k (Value.Omits k) m) :
    Overlooks k (Value.Omits k) (Eval.catchReturn m) := by
  intro h h' halike
  unfold Eval.catchReturn
  have hend := hm h h' halike
  revert hend
  generalize m h = out
  generalize m h' = out'
  rintro (_ | ⟨hv, hk⟩ | ⟨hv, hk⟩ | hk)
  · exact .none
  · exact .ok hv hk
  · exact .ok hv hk
  · exact .error hk

/-- A name other than `k` has one value in both heaps, and a function literal does not mention `k`.
-/
theorem callable (env : FrameId) {c : Callable α} (hc : k ∉ c.names) :
    Overlooks k (Value.Omits k) (Eval.callable env c) := by
  cases c with
  | func label xs body => exact pure hc
  | name x =>
    intro h h' halike
    -- A callee that is not `k` is found alike, or is unbound in both heaps.
    have hx : x ≠ k := by simpa [Callable.names, eq_comm] using hc
    obtain ⟨hfind, hnames⟩ := halike.find? hx env
    rw [Eval.callable, Eval.find, Eval.find, ← hfind]
    cases hv : h.find? env x with
    | none => exact .error halike
    | some v => exact .ok (hnames v hv) halike

theorem insert (env : FrameId) (x : String) {v : Value α} (hv : v.Omits k) :
    Overlooks k (fun _ => True) (Eval.insert env x v) := by
  intro h h' halike
  exact .ok trivial (halike.insert hv env x)

theorem alloc {f : Frame α} (hf : f.Omits k) :
    Overlooks k (fun _ => True) (Eval.alloc f) := by
  intro h h' halike
  have henv : (h.alloc f).1 = (h'.alloc f).1 := halike.same.size_eq
  show SameEnd k _ (some (.ok (h.alloc f).1, _)) (some (.ok (h'.alloc f).1, _))
  rw [henv]
  exact .ok trivial (halike.alloc hf)

end Overlooks

/-! ## Evaluation -/

/-- In some depth, evaluations of what does not mention `k` overlook it. -/
structure OverlooksAll (α : Type) (k : String) (depth : Nat) : Prop where
  expression : ∀ env {e : Expr α}, k ∉ e.names →
    Overlooks k (Value.Omits k) (Eval.expression depth env e)
  arguments : ∀ env {es : List (Expr α)}, k ∉ exprsNames es →
    Overlooks k (fun vs => ∀ v ∈ vs, v.Omits k) (Eval.arguments depth env es)
  apply : ∀ {f : Value α} {args : List (Value α)}, f.Omits k → (∀ v ∈ args, v.Omits k) →
    Overlooks k (Value.Omits k) (Eval.apply depth f args)
  statement : ∀ env {s : Stmt α}, k ∉ s.names →
    Overlooks k (Value.Omits k) (Eval.statement depth env s)
  statements : ∀ env {last : Value α} {ss : List (Stmt α)}, last.Omits k → k ∉ stmtsNames ss →
    Overlooks k (Value.Omits k) (Eval.statements depth env last ss)

namespace OverlooksAll

variable {k : String} {depth : Nat} (ih : OverlooksAll α k depth) (env : FrameId)

include ih

theorem block {body : Block α} (hbody : k ∉ stmtsNames body) :
    Overlooks k (Value.Omits k) (Eval.statements depth env .null body) :=
  ih.statements env List.not_mem_nil hbody

/-- No part of an expression mentions `k` if the whole does not. -/
theorem expression_succ {e : Expr α} (he : k ∉ e.names) :
    Overlooks k (Value.Omits k) (Eval.expression (depth + 1) env e) := by
  cases e with
  | callable c =>
    rw [Eval.expression]
    exact .callable env he
  | int v =>
    rw [Eval.expression]
    exact .pure he
  | bool b =>
    rw [Eval.expression]
    exact .pure he
  | unary op e =>
    rw [Expr.names] at he
    rw [Eval.expression]
    -- Both runs apply the operator to one value, and no operator makes a function.
    exact (ih.expression env he).bind fun a _ => .ofExcept fun v hv => op.names_apply hv
  | binary op l r =>
    simp only [Expr.names, List.mem_append, not_or] at he
    rw [Eval.expression]
    refine (ih.expression env he.1).bind fun a _ => (ih.expression env he.2).bind fun b _ => ?_
    exact .ofExcept fun v hv => op.names_apply hv
  | ifThen c t =>
    simp only [Expr.names, List.mem_append, not_or] at he
    rw [Eval.expression]
    -- The condition has one value, so both runs go into the block or neither does.
    refine (ih.expression env he.1).bind fun v _ => ?_
    split
    · exact ih.block env he.2
    · exact .pure List.not_mem_nil
  | ifElse c t u =>
    simp only [Expr.names, List.mem_append, not_or] at he
    obtain ⟨hc, ht, hu⟩ := he
    rw [Eval.expression]
    refine (ih.expression env hc).bind fun v _ => ?_
    split
    · exact ih.block env ht
    · exact ih.block env hu
  | call f args =>
    simp only [Expr.names, List.mem_append, not_or] at he
    rw [Eval.expression]
    refine (Overlooks.callable env he.1).bind fun v hv => ?_
    exact (ih.arguments env he.2).bind fun vs hvs => ih.apply hv hvs

theorem arguments_succ {es : List (Expr α)} (hes : k ∉ exprsNames es) :
    Overlooks k (fun vs => ∀ v ∈ vs, v.Omits k) (Eval.arguments (depth + 1) env es) := by
  cases es with
  | nil =>
    rw [Eval.arguments]
    exact .pure (by simp)
  | cons e es =>
    simp only [exprsNames, List.mem_append, not_or] at hes
    rw [Eval.arguments]
    refine (ih.expression env hes.1).bind fun v hv => ?_
    exact (ih.arguments env hes.2).bind fun vs hvs => .pure (List.forall_mem_cons.2 ⟨hv, hvs⟩)

/-- The body of a function runs in a frame of arguments, none of which mentions `k`. -/
theorem apply_succ {f : Value α} {args : List (Value α)} (hf : f.Omits k)
    (hargs : ∀ v ∈ args, v.Omits k) :
    Overlooks k (Value.Omits k) (Eval.apply (depth + 1) f args) := by
  cases f with
  | func c =>
    simp only [Value.Omits, Value.names, List.mem_append, not_or] at hf
    rw [Eval.apply]
    -- The body runs in a frame that is the same in both heaps.
    refine (Overlooks.alloc (.closure_frame c hargs)).bind fun env _ => ?_
    exact .catchReturn (ih.block env hf.2)
  | _ =>
    rw [Eval.apply.eq_3 _ _ _ (by intro c hc; cases hc)]
    exact .error _

/-- A `let` of another name than `k` binds a value that does not mention `k`. -/
theorem statement_succ {s : Stmt α} (hs : k ∉ s.names) :
    Overlooks k (Value.Omits k) (Eval.statement (depth + 1) env s) := by
  cases s with
  | letDecl x e =>
    rw [Eval.statement]
    refine (ih.expression env (List.not_mem_of_not_mem_cons hs)).bind fun v hv => ?_
    exact (Overlooks.insert env x hv).bind fun _ _ => .pure hv
  | ret e =>
    rw [Eval.statement]
    exact (ih.expression env hs).bind fun v hv => .ret hv
  | expr e =>
    rw [Eval.statement]
    exact ih.expression env hs

theorem statements_succ {last : Value α} {ss : List (Stmt α)} (hlast : last.Omits k)
    (hss : k ∉ stmtsNames ss) :
    Overlooks k (Value.Omits k) (Eval.statements (depth + 1) env last ss) := by
  cases ss with
  | nil =>
    rw [Eval.statements]
    exact .pure hlast
  | cons s ss =>
    simp only [stmtsNames, List.mem_append, not_or] at hss
    rw [Eval.statements]
    exact (ih.statement env hss.1).bind fun v hv => ih.statements env hv hss.2

end OverlooksAll

/-- Without depth neither run has an outcome, and each further level overlooks `k` if the one before
does. -/
theorem overlooks_all (k : String) : ∀ depth, OverlooksAll α k depth
  | 0 =>
    { expression := fun _ _ _ => by rw [Eval.expression]; exact .exhausted
      arguments := fun _ _ _ => by rw [Eval.arguments]; exact .exhausted
      apply := fun _ _ => by rw [Eval.apply]; exact .exhausted
      statement := fun _ _ _ => by rw [Eval.statement]; exact .exhausted
      statements := fun _ _ _ _ _ => by rw [Eval.statements]; exact .exhausted }
  | depth + 1 =>
    have ih := overlooks_all k depth
    { expression := fun env _ => ih.expression_succ env
      arguments := fun env _ => ih.arguments_succ env
      apply := ih.apply_succ
      statement := fun env _ => ih.statement_succ env
      statements := fun env _ _ => ih.statements_succ env }

/-- Runs of a node that does not mention `k` overlook `k` in every depth. -/
theorem Node.overlooks {k : String} {node : Node α} (hnode : k ∉ node.names) (depth : Nat)
    (env : FrameId) : Overlooks k (Value.Omits k) (node.eval depth env) := by
  cases node with
  | expr e => exact (overlooks_all k depth).expression env hnode
  | stmt s => exact (overlooks_all k depth).statement env hnode
  | block body => exact (overlooks_all k depth).block env hnode

/-- What a run ends with on one of two heaps that are alike, it ends with on the other. -/
theorem Overlooks.ends {k : String} {P : β → Prop} {run : Nat → Eval α β}
    (hrun : ∀ depth, Overlooks k P (run depth)) {h h' : Heap α} (halike : h.Alike k h')
    {r : Except (Unwind α) β} {m : Heap α} (hends : Eval.Ends run h r m) :
    ∃ m', Eval.Ends run h' r m' ∧ m.Alike k m' := by
  obtain ⟨depth, hdepth⟩ := hends
  -- Runs of one depth end the same, so the other run ends in this depth, too.
  have hend := hrun depth h h' halike
  rw [hdepth] at hend
  generalize hdepth' : run depth h' = out' at hend
  cases hend with
  | ok _ hm => exact ⟨_, ⟨depth, hdepth'⟩, hm⟩
  | ret _ hm => exact ⟨_, ⟨depth, hdepth'⟩, hm⟩
  | error hm => exact ⟨_, ⟨depth, hdepth'⟩, hm⟩

/-- A binding that nobody mentions changes nothing. Let two heaps differ only in what their frames
bind to `k`, and let neither a node nor any function bound to another name mention `k`. Then what
the node ends with in one heap it ends with in the other, and the heaps that are left again differ
only in what their frames bind to `k`. -/
theorem unmentioned_binding_changes_nothing {k : String} {node : Node α} (hnode : k ∉ node.names)
    {h h' : Heap α} (hsame : h.SameBut k h') (homits : h.Omits k) (env : FrameId)
    (r : Except (Unwind α) (Value α)) :
    (∀ m, Eval.Ends (fun depth => node.eval depth env) h r m →
      ∃ m', Eval.Ends (fun depth => node.eval depth env) h' r m' ∧ m.SameBut k m') ∧
    ∀ m', Eval.Ends (fun depth => node.eval depth env) h' r m' →
      ∃ m, Eval.Ends (fun depth => node.eval depth env) h r m ∧ m.SameBut k m' := by
  have halike : h.Alike k h' := ⟨hsame, homits⟩
  have hrun := fun depth => Node.overlooks hnode depth env
  constructor
  · intro m hends
    obtain ⟨m', hends', hm⟩ := Overlooks.ends hrun halike hends
    exact ⟨m', hends', hm.same⟩
  · intro m' hends'
    obtain ⟨m, hends, hm⟩ := Overlooks.ends hrun halike.symm hends'
    exact ⟨m, hends, hm.symm.same⟩

/-- A frame that binds `f` to the function `fn(x) {(x + y);}` of the frame 0 and `y` to 2, with
further bindings. -/
def adder (hidden : Bindings Unit) : Frame Unit :=
  ⟨("f", .func ⟨(), ["x"], [.expr (.binary .add (.callable (.name "x")) (.callable (.name "y")))],
    0⟩) :: ("y", .int 2) :: hidden, none⟩

/-- The function `fn(k) {k();}` of the frame 0. -/
def callsItself : Value Unit := .func ⟨(), ["k"], [.expr (.call (.name "k") [])], 0⟩

/-- The statements `let g = fn(z) {f(z);}; g(3);`. -/
def forwards : Node Unit :=
  .block [
    .letDecl "g" (.callable (.func () ["z"] [.expr (.call (.name "f") [.callable (.name "z")])])),
    .expr (.call (.name "g") [.int 3])]

/-- The heap that these statements leave behind the frame without further bindings. -/
def forwarded : Heap Unit :=
  ⟨#[adder [("g", .func ⟨(), ["z"], [.expr (.call (.name "f") [.callable (.name "z")])], 0⟩)],
    ⟨[("z", .int 3)], some 0⟩, ⟨[("x", .int 3)], some 0⟩]⟩

/-- The function that is bound to `k` mentions `k` itself, and does no harm: `g(3)` has the value 5
beside it, too. -/
theorem unmentioned_binding_changes_nothing_adder :
    "k" ∉ forwards.names ∧
      (⟨#[adder []]⟩ : Heap Unit).SameBut "k" ⟨#[adder [("k", callsItself)]]⟩ ∧
      (⟨#[adder []]⟩ : Heap Unit).Omits "k" ∧
      ∃ m', Eval.Ends (fun depth => forwards.eval depth 0) ⟨#[adder [("k", callsItself)]]⟩
        (.ok (.int 5)) m' ∧ forwarded.SameBut "k" m' := by
  have hnode : "k" ∉ forwards.names := by decide
  have hsame : (⟨#[adder []]⟩ : Heap Unit).SameBut "k" ⟨#[adder [("k", callsItself)]]⟩ := by
    rintro (_ | i)
    · refine .some ⟨rfl, fun x hx => ?_⟩
      simp [adder, Bindings.find?, hx.symm]
    · exact .none
  have homits : (⟨#[adder []]⟩ : Heap Unit).Omits "k" := by
    rintro (_ | i) f hf x v - hv
    · obtain rfl : adder [] = f := Option.some.inj hf
      simp only [adder, Bindings.find?] at hv
      split at hv
      · cases hv
        simp [Value.Omits, Value.names, stmtsNames, Stmt.names, Expr.names, Callable.names]
      · split at hv
        · cases hv
          exact List.not_mem_nil
        · cases hv
    · cases hf
  have hrun : Eval.Ends (fun depth => forwards.eval depth 0) ⟨#[adder []]⟩ (.ok (.int 5))
      forwarded := ⟨14, by cbv⟩
  obtain ⟨hends, -⟩ :=
    unmentioned_binding_changes_nothing hnode hsame homits 0 (.ok (.int 5))
  exact ⟨hnode, hsame, homits, hends _ hrun⟩

end LetLang
