import LetLang.Proofs.Evaluation.Sequence
import LetLang.Proofs.Evaluation.Writes
import LetLang.Proofs.Print.Words
import LetLang.Proofs.Run.Lines

/-!
# What a `let` binds

A source that is one expression, without a semicolon behind it, is the value of a `let` when it
stands between an equals sign and a semicolon: the semicolon continues no expression, so the same
words are derived as the same tree. The `let` is evaluated as its value is. If that ends with a
value, the name is bound to it in the innermost frame and nothing else changes, also where the value
itself has bound the name before; if it unwinds, nothing is bound. `let_binds_value` puts both
together.
-/

set_option autoImplicit false

namespace LetLang

variable {α : Type}

/-! ## The source of a `let` -/

section Source

open Grammar

/-- An expression that is a whole program without a semicolon behind it takes all words. -/
theorem Grammar.Statements.expression {ws : List Word} {e : Expr Unit}
    (h : Statements ws [.expr e] []) (hopen : ¬ Closed ws) : Expression ws e [] := by
  cases h with
  | cons hs hrest =>
    cases hrest
    cases hs with
    | expr he hskip =>
      have hsuffix := he.suffix
      obtain ⟨run, hrun, rfl⟩ := hskip
      rw [List.append_nil] at he hsuffix
      cases hlast : run.getLast? with
      | none => rwa [List.getLast?_eq_none_iff.1 hlast] at he
      | some w =>
        -- A semicolon that is left would be the last word of all.
        obtain ⟨front, rfl⟩ := hsuffix
        exact absurd ⟨w, by simp [hlast], hrun w (List.mem_of_getLast? hlast)⟩ hopen

variable {source x : String} {e : Expr Unit}

theorem not_closed_of_not_endsWithSemicolon (hopen : ¬ EndsWithSemicolon source) :
    ¬ Closed (wordsOf source.toList) := by
  rintro ⟨w, hw, hkind⟩
  rw [← map_word_scan, List.getLast?_map] at hw
  obtain ⟨t, ht, rfl⟩ := Option.map_eq_some_iff.1 hw
  exact hopen ⟨t, ht, hkind⟩

theorem words_let (hx : IsName x) :
    wordsOf ("let " ++ x ++ " = " ++ source ++ ";").toList =
      ⟨.letWord, "let"⟩ :: ⟨.identifier, x⟩ :: ⟨.assign, "="⟩ ::
        (wordsOf source.toList ++ [⟨.semicolon, ";"⟩]) := by
  have hchars : ("let " ++ x ++ " = " ++ source ++ ";").toList =
      "let".toList ++ ' ' :: (x.toList ++ ' ' :: '=' :: ' ' :: (source.toList ++ [';'])) := by
    simp
  rw [hchars, (reads_keyword "let" .letWord (by decide)).before ' ' rfl, wordsOf_space,
    (reads_name hx).before ' ' rfl, wordsOf_space, wordsOf_assign (by simp), wordsOf_space,
    wordsOf_append _ (apart_cons rfl), wordsOf_semicolon, wordsOf_nil]
  rfl

/-- The source of an expression stands for the same expression in a `let`. -/
theorem parse?_let (hparse : parse? source = .ok [.expr e]) (hopen : ¬ EndsWithSemicolon source)
    (hx : IsName x) : parse? ("let " ++ x ++ " = " ++ source ++ ";") = .ok [.letDecl x e] := by
  rw [parse?_eq_ok_iff_derives] at hparse ⊢
  have hvalue := hparse.expression (not_closed_of_not_endsWithSemicolon hopen)
  -- No expression goes on with a semicolon.
  have hjoins : Joins [] [⟨.semicolon, ";"⟩] := by
    rintro -
    decide
  have hskip : Skipped [⟨.semicolon, ";"⟩] [] := ⟨[], by simp, .inl ⟨_, rfl, rfl⟩⟩
  rw [words_let hx]
  exact .cons (@Statement.letDecl _ ⟨.identifier, x⟩ _ _ _ _ _ rfl rfl rfl (hvalue.append hjoins)
    hskip) .nil

end Source

/-! ## The evaluation of a `let` -/

/-- The value of a name in the frame `i` itself. -/
def Heap.binding? (h : Heap α) (i : FrameId) (x : String) : Option (Value α) :=
  (h.frame? i).bind fun f => f.bindings.find? x

/-- The heap `k'` is `k` with the name `x` bound to `v` in the frame `env`. -/
structure Heap.Binds (env : FrameId) (x : String) (v : Value α) (k k' : Heap α) : Prop where
  bound : k'.binding? env x = some v
  others : ∀ i y, i ≠ env ∨ y ≠ x → k'.binding? i y = k.binding? i y
  /-- The frames are the same ones, each inside the same frame. -/
  outer : ∀ i, (k'.frame? i).map Frame.outer = (k.frame? i).map Frame.outer

theorem Heap.binds_insert {k : Heap α} {env : FrameId} (henv : env < k.frames.size) (x : String)
    (v : Value α) : k.Binds env x v (k.insert env x v) := by
  obtain ⟨f, hf⟩ := Heap.exists_frame?_of_lt henv
  have hself : (k.insert env x v).frame? env = some (f.insert x v) := by
    rw [Heap.frame?_insert_self, hf, Option.map_some]
  refine ⟨?_, fun i y hne => ?_, fun i => ?_⟩
  · rw [Heap.binding?, hself, Option.bind_some, Frame.insert, Bindings.find?_insert, if_pos rfl]
  · by_cases hi : i = env
    · subst hi
      have hxy : x ≠ y := (hne.resolve_left (absurd rfl)).symm
      rw [Heap.binding?, Heap.binding?, hself, hf, Option.bind_some, Option.bind_some, Frame.insert,
        Bindings.find?_insert, if_neg hxy]
    · rw [Heap.binding?, Heap.binding?, Heap.frame?_insert_of_ne k x v hi]
  · by_cases hi : i = env
    · subst hi
      rw [hself, hf]
      rfl
    · rw [Heap.frame?_insert_of_ne k x v hi]

namespace Eval

variable {env : FrameId} {x : String} {e : Expr α} {h k : Heap α} {r : Except (Unwind α) (Value α)}

/-- What a `let` makes of the outcome of its value. -/
def boundIn (env : FrameId) (x : String) :
    Except (Unwind α) (Value α) × Heap α → Except (Unwind α) (Value α) × Heap α
  | (.ok v, k) => (.ok v, k.insert env x v)
  | (.error u, k) => (.error u, k)

theorem block_letDecl (depth : Nat) :
    block (depth + 3) env [.letDecl x e] h =
      (expression (depth + 1) env e h).map (boundIn env x) := by
  have hlet : statement (depth + 2) env (.letDecl x e) h =
      (expression (depth + 1) env e h).map (boundIn env x) := by
    rw [statement]
    show Eval.bind _ _ h = _
    rw [Eval.bind]
    rcases expression (depth + 1) env e h with _ | ⟨_ | v, k⟩
    · rfl
    · rfl
    · rfl
  rw [block, statements]
  show Eval.bind _ _ h = _
  rw [Eval.bind, hlet]
  rcases expression (depth + 1) env e h with _ | ⟨_ | v, k⟩
  · rfl
  · rfl
  · show statements (depth + 2) env v [] _ = _
    rw [statements]
    rfl

/-- A `let` has an outcome if its value has one, and does no more than to bind it. -/
theorem letDecl_ends_iff : Ends (fun depth => block depth env [.letDecl x e]) h r k ↔
    ∃ r' k', Ends (fun depth => expression depth env e) h r' k' ∧
      (r, k) = boundIn env x (r', k') := by
  constructor
  · rintro ⟨depth, hrun⟩
    have hdeeper := block_le (Nat.le_add_right depth 3) env _ h _ hrun
    rw [block_letDecl, Option.map_eq_some_iff] at hdeeper
    obtain ⟨⟨r', k'⟩, hvalue, heq⟩ := hdeeper
    exact ⟨r', k', ⟨depth + 1, hvalue⟩, heq.symm⟩
  · rintro ⟨r', k', ⟨depth, hvalue⟩, heq⟩
    refine ⟨depth + 3, ?_⟩
    show block (depth + 3) env [.letDecl x e] h = some (r, k)
    rw [block_letDecl, expression_le env e (Nat.le_succ depth) h _ hvalue, heq]
    rfl

end Eval

/-- A `let` binds what its expression evaluates to. Let the source `t` be one expression, without a
semicolon behind it. The source `let x = t;` is one `let` of `x` and this expression. In every
environment it has an outcome if and only if the expression has one: if that is a value, the `let`
has the same value and binds `x` to it in the innermost frame, and everything else is as the
expression has left it; if the expression unwinds, the `let` does the same and leaves the same
heap. -/
theorem let_binds_value {t x : String} {e : Expr Unit} (hparse : parse? t = .ok [.expr e])
    (hopen : ¬ EndsWithSemicolon t) (hx : IsName x) :
    parse? ("let " ++ x ++ " = " ++ t ++ ";") = .ok [.letDecl x e] ∧
    ∀ (h : Heap Unit) (env : FrameId), env < h.frames.size →
      ((∃ r k, Eval.Ends (fun depth => Eval.block depth env [.letDecl x e]) h r k) ↔
        ∃ r k, Eval.Ends (fun depth => Eval.expression depth env e) h r k) ∧
      (∀ v k, Eval.Ends (fun depth => Eval.expression depth env e) h (.ok v) k →
        ∃ k', Eval.Ends (fun depth => Eval.block depth env [.letDecl x e]) h (.ok v) k' ∧
          k.Binds env x v k') ∧
      ∀ u k, Eval.Ends (fun depth => Eval.expression depth env e) h (.error u) k →
        Eval.Ends (fun depth => Eval.block depth env [.letDecl x e]) h (.error u) k := by
  refine ⟨parse?_let hparse hopen hx, fun h env henv =>
    ⟨?_, fun v k hends => ?_, fun u k hends => ?_⟩⟩
  · constructor
    · rintro ⟨r, k, hlet⟩
      obtain ⟨r', k', hends, -⟩ := Eval.letDecl_ends_iff.1 hlet
      exact ⟨r', k', hends⟩
    · rintro ⟨r, k, hends⟩
      exact ⟨_, _, Eval.letDecl_ends_iff.2 ⟨r, k, hends, rfl⟩⟩
  · -- The frames that were there before are still there, so the innermost one can be written.
    have hk : env < k.frames.size := by
      obtain ⟨depth, hrun⟩ := hends
      exact Nat.lt_of_lt_of_le henv ((Eval.writes_all depth).expression env e h _ k hrun).size
    exact ⟨k.insert env x v, Eval.letDecl_ends_iff.2 ⟨_, _, hends, rfl⟩, Heap.binds_insert hk x v⟩
  · exact Eval.letDecl_ends_iff.2 ⟨_, _, hends, rfl⟩

/-- A conditional that binds `x` to 1 before its last statement. -/
def innerLet (last : Stmt Unit) : Expr Unit := .ifThen (.bool true) [.letDecl "x" (.int 1), last]

/-- A value that binds the name of the `let` to 1 and goes on to 2, and one that binds it and
returns, where the name keeps the binding that the value has made. -/
theorem let_binds_value_inner_let :
    parse? ("let " ++ "x" ++ " = " ++ "if (true) \x7b let x = 1; x + 1 \x7d" ++ ";") =
      .ok [.letDecl "x" (innerLet (.expr (.binary .add (.callable (.name "x")) (.int 1))))] ∧
    (∃ k, Eval.Ends (fun depth => Eval.block depth 0
        [.letDecl "x" (innerLet (.expr (.binary .add (.callable (.name "x")) (.int 1))))])
        World.fresh.heap (.ok (.int 2)) k ∧ k.binding? 0 "x" = some (.int 2)) ∧
    Eval.Ends (fun depth => Eval.block depth 0 [.letDecl "x" (innerLet (.ret (.int 2)))])
      World.fresh.heap (.error (.ret (.int 2))) ⟨#[⟨[("x", .int 1)], none⟩]⟩ := by
  have hx : IsName "x" := ⟨by decide, by decide, by decide⟩
  have hsum : parse? "if (true) \x7b let x = 1; x + 1 \x7d" =
      .ok [.expr (innerLet (.expr (.binary .add (.callable (.name "x")) (.int 1))))] := by cbv
  have hreturn : parse? "if (true) \x7b let x = 1; return 2; \x7d" =
      .ok [.expr (innerLet (.ret (.int 2)))] := by cbv
  have hopen : ¬ EndsWithSemicolon "if (true) \x7b let x = 1; x + 1 \x7d" := by
    have hlast : (scan "if (true) \x7b let x = 1; x + 1 \x7d").getLast? =
        some ⟨.rightBrace, "\x7d", 29⟩ := by cbv
    rintro ⟨t, ht, hkind⟩
    cases hlast.symm.trans ht
    cases hkind
  have hopen' : ¬ EndsWithSemicolon "if (true) \x7b let x = 1; return 2; \x7d" := by
    have hlast : (scan "if (true) \x7b let x = 1; return 2; \x7d").getLast? =
        some ⟨.rightBrace, "\x7d", 33⟩ := by cbv
    rintro ⟨t, ht, hkind⟩
    cases hlast.symm.trans ht
    cases hkind
  obtain ⟨hparse, hlet⟩ := let_binds_value hsum hopen hx
  obtain ⟨-, hlet'⟩ := let_binds_value hreturn hopen' hx
  refine ⟨hparse, ?_, ?_⟩
  · obtain ⟨k, hends, hbinds⟩ := (hlet World.fresh.heap 0 (by decide)).2.1 (.int 2)
      ⟨#[⟨[("x", .int 1)], none⟩]⟩ ⟨8, by cbv⟩
    exact ⟨k, hends, hbinds.bound⟩
  · exact (hlet' World.fresh.heap 0 (by decide)).2.2 (.ret (.int 2)) _ ⟨8, by cbv⟩

end LetLang
