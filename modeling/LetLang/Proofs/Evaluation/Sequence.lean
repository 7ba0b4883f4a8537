import LetLang.Proofs.Evaluation.Locality

/-!
# Evaluations one after another

What a sequence of evaluations does if the first of them ends with a result, and what it does if the
first of them unwinds. Each part is granted a depth of its own, and all parts have their outcomes in
the greatest of these (`Eval.Ends.both`). Statements and arguments that are evaluated to the end can
stand before others (`Eval.statements_append`, `Eval.arguments_unwind`).
-/

set_option autoImplicit false

namespace LetLang

variable {α β γ : Type}

namespace Eval

variable {h k : Heap α} {env : FrameId}

/-! ## Two evaluations -/

theorem bind_of_ok {m : Eval α β} {f : β → Eval α γ} {b : β} (hm : m h = some (.ok b, k)) :
    (m >>= f) h = f b k := by
  show Eval.bind m f h = _
  rw [Eval.bind, hm]

/-- What the first evaluation unwinds by, both do. -/
theorem bind_of_error {m : Eval α β} {f : β → Eval α γ} {u : Unwind α}
    (hm : m h = some (.error u, k)) : (m >>= f) h = some (.error u, k) := by
  show Eval.bind m f h = _
  rw [Eval.bind, hm]

theorem exists_of_bind_ok {m : Eval α β} {f : β → Eval α γ} {c : γ}
    (hrun : (m >>= f) h = some (.ok c, k)) :
    ∃ b h', m h = some (.ok b, h') ∧ f b h' = some (.ok c, k) := by
  replace hrun : Eval.bind m f h = some (.ok c, k) := hrun
  rw [Eval.bind] at hrun
  split at hrun
  · cases hrun
  · cases hrun
  · next b h' hm => exact ⟨b, h', hm, hrun⟩

/-! ## Outcomes in some depth -/

namespace Ends

variable {run : Nat → Eval α β} {run' : Nat → Eval α γ} {h' k' : Heap α}
  {r r₁ : Except (Unwind α) β} {r' : Except (Unwind α) γ}

/-- Two evaluations have their outcomes in one depth. -/
theorem both (hle : ∀ {d d'}, d ≤ d' → Le (run d) (run d'))
    (hle' : ∀ {d d'}, d ≤ d' → Le (run' d) (run' d')) (hrun : Ends run h r k)
    (hrun' : Ends run' h' r' k') :
    ∃ depth, run depth h = some (r, k) ∧ run' depth h' = some (r', k') := by
  obtain ⟨d, hd⟩ := hrun
  obtain ⟨d', hd'⟩ := hrun'
  exact ⟨max d d', hle (Nat.le_max_left d d') h _ hd, hle' (Nat.le_max_right d d') h' _ hd'⟩

/-- The outcome does not depend on the depth. -/
theorem unique (hle : ∀ {d d'}, d ≤ d' → Le (run d) (run d')) (hrun : Ends run h r k)
    (hrun' : Ends run h r₁ k') : r₁ = r ∧ k' = k := by
  obtain ⟨depth, hd, hd'⟩ := hrun.both hle hle hrun'
  rw [hd', Option.some.injEq, Prod.mk.injEq] at hd
  exact hd

end Ends

/-! ## Statements -/

/-- The value of no statements counts only if there are none. -/
theorem statements_last {ss : List (Stmt α)} (hss : ss ≠ []) (depth : Nat) (last last' : Value α) :
    statements depth env last ss = statements depth env last' ss := by
  cases ss with
  | nil => exact absurd rfl hss
  | cons s ss =>
    cases depth with
    | zero => rw [statements, statements]
    | succ depth => rw [statements, statements]

/-- Statements that run through, and statements behind them. -/
theorem statements_append {ss ss' : List (Stmt α)} {v : Value α} {depth' : Nat}
    {out : Except (Unwind α) (Value α) × Heap α}
    (hsecond : statements depth' env v ss' k = some out) :
    ∀ {depth : Nat} {last : Value α} {h : Heap α},
      statements depth env last ss h = some (.ok v, k) →
      ∃ depth'', statements depth'' env last (ss ++ ss') h = some out := by
  induction ss with
  | nil =>
    intro depth last h hfirst
    cases depth with
    | zero =>
      rw [statements] at hfirst
      cases hfirst
    | succ depth =>
      rw [statements] at hfirst
      cases hfirst
      exact ⟨depth', hsecond⟩
  | cons s ss ih =>
    intro depth last h hfirst
    cases depth with
    | zero =>
      rw [statements] at hfirst
      cases hfirst
    | succ depth =>
      rw [statements] at hfirst
      obtain ⟨w, h', hs, hss⟩ := exists_of_bind_ok hfirst
      obtain ⟨depth'', hrest⟩ := ih hss
      -- Both parts have their outcomes in the greater of the two depths.
      obtain ⟨d, hs', hrest'⟩ := Ends.both (statement_le env s) (statements_le env w (ss ++ ss'))
        ⟨depth, hs⟩ ⟨depth'', hrest⟩
      refine ⟨d + 1, ?_⟩
      rw [List.cons_append, statements, bind_of_ok hs', hrest']

/-- A block that runs through, and statements behind it. -/
theorem block_append {body body' : Block α} {v : Value α} {depth depth' : Nat}
    {out : Except (Unwind α) (Value α) × Heap α} (hbody' : body' ≠ [])
    (hfirst : block depth env body h = some (.ok v, k))
    (hsecond : block depth' env body' k = some out) :
    ∃ depth'', block depth'' env (body ++ body') h = some out := by
  rw [block, statements_last hbody' depth' .null v] at hsecond
  exact statements_append hsecond hfirst

/-! ## Arguments -/

/-- What an argument unwinds by, all arguments do, if those before it are evaluated to the end. -/
theorem arguments_unwind {before after : List (Expr α)} {e : Expr α} {u : Unwind α} {m m' : Heap α}
    {depth' : Nat} (he : expression depth' env e m = some (.error u, m')) :
    ∀ {depth : Nat} {vs : List (Value α)} {h : Heap α},
      arguments depth env before h = some (.ok vs, m) →
      ∃ depth'', arguments depth'' env (before ++ e :: after) h = some (.error u, m') := by
  induction before with
  | nil =>
    intro depth vs h hbefore
    cases depth with
    | zero =>
      rw [arguments] at hbefore
      cases hbefore
    | succ depth =>
      rw [arguments] at hbefore
      cases hbefore
      refine ⟨depth' + 1, ?_⟩
      rw [List.nil_append, arguments, bind_of_error he]
  | cons a before ih =>
    intro depth vs h hbefore
    cases depth with
    | zero =>
      rw [arguments] at hbefore
      cases hbefore
    | succ depth =>
      rw [arguments] at hbefore
      obtain ⟨v, k, ha, hbefore⟩ := exists_of_bind_ok hbefore
      obtain ⟨ws, k', hrest, hpure⟩ := exists_of_bind_ok hbefore
      cases hpure
      -- The first argument and the others end in depths of their own, so both end in the greater one.
      obtain ⟨d, ha, hrest⟩ := Ends.both (expression_le env a) (arguments_le env _) ⟨depth, ha⟩
        (ih hrest)
      refine ⟨d + 1, ?_⟩
      rw [List.cons_append, arguments, bind_of_ok ha, bind_of_error hrest]

end Eval

end LetLang
