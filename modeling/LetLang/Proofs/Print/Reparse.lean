import LetLang.Proofs.Print.Phrases

/-!
# Canonical texts are in the grammar

The printer puts an operation in parentheses of its own and writes the condition of an `if` without
parentheses, so a conditional is in the grammar if its condition is an operation. Where this holds
of all conditions, the words of a tree are derived as that tree, except that a parser reads the sign
of a negative integer as an operator (`stmts_derive_signless`). So parsing the canonical text of a
well-formed program gives the program back (`parse_programText`).
-/

set_option autoImplicit false

namespace LetLang

open Grammar

/-! ## Trees whose conditions are operations -/

section Conditions

variable {α : Type}

/-- Whether an expression is an operator with its operands. -/
def Expr.isOperation : Expr α → Bool
  | .unary _ _ => true
  | .binary _ _ _ => true
  | _ => false

mutual

/-- Every condition of an `if` in the expression, at any depth, is an operation. -/
def Expr.TestsOperations : Expr α → Prop
  | .callable c => c.TestsOperations
  | .int _ => True
  | .bool _ => True
  | .unary _ e => e.TestsOperations
  | .binary _ l r => l.TestsOperations ∧ r.TestsOperations
  | .ifThen c t => c.isOperation = true ∧ c.TestsOperations ∧ StmtsTestOperations t
  | .ifElse c t u =>
      c.isOperation = true ∧ c.TestsOperations ∧ StmtsTestOperations t ∧ StmtsTestOperations u
  | .call f args => f.TestsOperations ∧ ExprsTestOperations args

/-- Every condition in a body is an operation. -/
def Callable.TestsOperations : Callable α → Prop
  | .name _ => True
  | .func _ _ body => StmtsTestOperations body

def Stmt.TestsOperations : Stmt α → Prop
  | .letDecl _ e => e.TestsOperations
  | .ret e => e.TestsOperations
  | .expr e => e.TestsOperations

def ExprsTestOperations : List (Expr α) → Prop
  | [] => True
  | e :: es => e.TestsOperations ∧ ExprsTestOperations es

/-- Every condition in the statements of a block or a program is an operation. -/
def StmtsTestOperations : List (Stmt α) → Prop
  | [] => True
  | s :: ss => s.TestsOperations ∧ StmtsTestOperations ss

end

end Conditions

/-! ## Derivations -/

/-- An operation is written in parentheses. -/
theorem Expr.words_of_isOperation {α : Type} {e : Expr α} (h : e.isOperation = true) :
    ∃ ws, e.words = ⟨.leftParen, "("⟩ :: ws := by
  cases e with
  | unary op e => exact ⟨_, rfl⟩
  | binary op l r => exact ⟨_, rfl⟩
  | _ => cases h

theorem Translation.isOperation_expr {α : Type} (T : Translation α) {e : Expr α}
    (h : e.isOperation = true) : (T.expr e).isOperation = true := by
  cases e with
  | unary op e => rfl
  | binary op l r => rfl
  | _ => cases h

/-- An operation in parentheses is derived inside of them. -/
theorem Grammar.Tier.inside {ws rest : List Word} {e : Expr Unit} {o : Word}
    (h : Tier .unary (o :: ws) e rest) (ho : o.kind = .leftParen) (he : e.isOperation = true) :
    ∃ c, Expression ws e (c :: rest) ∧ c.kind = .rightParen := by
  have htight : ∀ {k : Precedence}, Tier k (o :: ws) e rest → k = .call →
      ∃ c, Expression ws e (c :: rest) ∧ c.kind = .rightParen := by
    intro k h hk
    cases h with
    -- Nothing is tighter than a call.
    | @tighter _ k' _ _ _ hlt _ =>
      rw [hk] at hlt
      exact absurd hlt (by cases k' <;> decide)
    | call => cases he
    | primary h =>
      cases h with
      | group _ hexpr hc => exact ⟨_, hexpr, hc⟩
      | _ => cases he
    | binary hmem =>
      rw [hk] at hmem
      simp [binaryOps] at hmem
    | unary => cases hk
  cases h with
  | @tighter _ k _ _ _ hlt h =>
    have hk : k = .call := by cases k <;> first | rfl | exact absurd hlt (by decide)
    exact htight h hk
  | binary hmem => simp [binaryOps] at hmem
  | unary hmem => simp [ho, prefixOps] at hmem

/-- The parentheses of an operation serve as those of a condition. -/
theorem Phrase.tested_of_isOperation {ws : List Word} {e : Expr Unit}
    (h : Phrase (⟨.leftParen, "("⟩ :: ws) e) (hop : e.isOperation = true) :
    Tested (⟨.leftParen, "("⟩ :: ws) e := by
  intro rest hrest
  obtain ⟨c, hinside, hclose⟩ := (h rest hrest).inside rfl hop
  exact ⟨ws ++ rest, c, rfl, hinside, hclose⟩

theorem Expr.tested_signless {e : Expr Unit} (h : Phrase e.words (signless.expr e))
    (hop : e.isOperation = true) : Tested e.words (signless.expr e) := by
  obtain ⟨ws, hws⟩ := Expr.words_of_isOperation hop
  rw [hws] at h ⊢
  exact h.tested_of_isOperation (signless.isOperation_expr hop)

mutual

/-- The words of an expression are derived as that expression, with a sign read as an operator. -/
theorem Expr.derives_signless : ∀ e : Expr Unit, e.Writable → e.TestsOperations →
    Phrase e.words (signless.expr e)
  | .callable c, hwr, htests => (c.derives_signless hwr htests).phrase
  | .int _, hwr, _ => phrase_numeral hwr
  | .bool true, _, _ => phrase_bool true
  | .bool false, _, _ => phrase_bool false
  | .unary op e, hwr, htests => (e.derives_signless hwr htests).unary op
  | .binary op l r, ⟨hl, hr⟩, ⟨htl, htr⟩ =>
    (l.derives_signless hl htl).binary op (r.derives_signless hr htr)
  | .ifThen c t, ⟨hc, ht⟩, ⟨hop, htc, htt⟩ =>
    (Expr.tested_signless (c.derives_signless hc htc) hop).ifThen (stmts_derive_signless t ht htt)
  | .ifElse c t u, ⟨hc, ht, hu⟩, ⟨hop, htc, htt, htu⟩ =>
    (Expr.tested_signless (c.derives_signless hc htc) hop).ifElse (stmts_derive_signless t ht htt)
      (stmts_derive_signless u hu htu)
  | .call f args, ⟨hf, hargs⟩, ⟨htf, htargs⟩ =>
    (f.derives_signless hf htf).call (exprs_derive_signless args hargs htargs)

theorem Callable.derives_signless : ∀ c : Callable Unit, c.Writable → c.TestsOperations →
    Callee c.words (signless.callable c)
  | .name x, _, _ => callee_name x
  | .func _ xs body, ⟨_, hbody⟩, htests => by
    rw [Translation.callable, show xs.map signless.name = xs from List.map_id xs]
    exact callee_func (stmts_derive_signless body hbody htests)

theorem exprs_derive_signless : ∀ es : List (Expr Unit), ExprsWritable es → ExprsTestOperations es →
    List.Forall₂ Phrase (exprsWords es) (signless.exprs es)
  | [], _, _ => .nil
  | e :: es, ⟨he, hes⟩, ⟨hte, htes⟩ =>
    .cons (e.derives_signless he hte) (exprs_derive_signless es hes htes)

theorem Stmt.derives_signless : ∀ s : Stmt Unit, s.Writable → s.TestsOperations →
    Line s.words (signless.stmt s)
  | .letDecl x e, ⟨_, he⟩, hte => (e.derives_signless he hte).letDecl x
  | .ret e, hwr, hte => (e.derives_signless hwr hte).ret
  | .expr e, hwr, hte => (e.derives_signless hwr hte).expr

theorem stmts_derive_signless : ∀ ss : List (Stmt Unit), StmtsWritable ss → StmtsTestOperations ss →
    Lines (stmtsWords ss) (signless.stmts ss)
  | [], _, _ => lines_nil
  | s :: ss, ⟨hs, hss⟩, ⟨hts, htss⟩ =>
    (s.derives_signless hs hts).cons (stmts_derive_signless ss hss htss)

end

/-! ## Trees without signs -/

mutual

/-- A tree without negative integers is read as it is. -/
theorem Expr.signless_eq : ∀ e : Expr Unit, e.WellFormed → signless.expr e = e
  | .callable c, h => congrArg Expr.callable (c.signless_eq h)
  | .int _, h => signless_of_nonneg h
  | .bool _, _ => rfl
  | .unary op e, h => congrArg (Expr.unary op) (e.signless_eq h)
  | .binary op l r, ⟨hl, hr⟩ => congrArg₂ (Expr.binary op) (l.signless_eq hl) (r.signless_eq hr)
  | .ifThen c t, ⟨hc, ht⟩ => congrArg₂ Expr.ifThen (c.signless_eq hc) (stmts_signless_eq t ht)
  | .ifElse c t u, ⟨hc, ht, hu⟩ => by
    rw [Translation.expr, c.signless_eq hc, stmts_signless_eq t ht, stmts_signless_eq u hu]
  | .call f args, ⟨hf, hargs⟩ =>
    congrArg₂ Expr.call (f.signless_eq hf) (exprs_signless_eq args hargs)

theorem Callable.signless_eq : ∀ c : Callable Unit, c.WellFormed → signless.callable c = c
  | .name _, _ => rfl
  | .func _ xs body, ⟨_, hbody⟩ =>
    congrArg₂ (Callable.func _) (List.map_id xs) (stmts_signless_eq body hbody)

theorem exprs_signless_eq : ∀ es : List (Expr Unit), ExprsWellFormed es → signless.exprs es = es
  | [], _ => rfl
  | e :: es, ⟨he, hes⟩ => congrArg₂ List.cons (e.signless_eq he) (exprs_signless_eq es hes)

theorem Stmt.signless_eq : ∀ s : Stmt Unit, s.WellFormed → signless.stmt s = s
  | .letDecl x e, ⟨_, he⟩ => congrArg (Stmt.letDecl x) (e.signless_eq he)
  | .ret e, h => congrArg Stmt.ret (e.signless_eq h)
  | .expr e, h => congrArg Stmt.expr (e.signless_eq h)

theorem stmts_signless_eq : ∀ ss : List (Stmt Unit), StmtsWellFormed ss → signless.stmts ss = ss
  | [], _ => rfl
  | s :: ss, ⟨hs, hss⟩ => congrArg₂ List.cons (s.signless_eq hs) (stmts_signless_eq ss hss)

end

/-- The words of an expression without negative integers are derived as that expression. -/
theorem Expr.derives (e : Expr Unit) (hwf : e.WellFormed) (htests : e.TestsOperations) :
    Phrase e.words e := by
  have h := e.derives_signless (e.writable hwf) htests
  rwa [e.signless_eq hwf] at h

theorem Callable.derives (c : Callable Unit) (hwf : c.WellFormed) (htests : c.TestsOperations) :
    Callee c.words c := by
  have h := c.derives_signless (c.writable hwf) htests
  rwa [c.signless_eq hwf] at h

theorem Stmt.derives (s : Stmt Unit) (hwf : s.WellFormed) (htests : s.TestsOperations) :
    Line s.words s := by
  have h := s.derives_signless (s.writable hwf) htests
  rwa [s.signless_eq hwf] at h

theorem stmts_derive (ss : List (Stmt Unit)) (hwf : StmtsWellFormed ss)
    (htests : StmtsTestOperations ss) : Lines (stmtsWords ss) ss := by
  have h := stmts_derive_signless ss (stmts_writable ss hwf) htests
  rwa [stmts_signless_eq ss hwf] at h

/-- Before a word that ends it, an expression is derived as a whole. -/
theorem Expr.derives_before {e : Expr Unit} {rest : List Word} (hwf : e.WellFormed)
    (htests : e.TestsOperations) (hrest : nextKind rest ∈ closing) :
    Expression (e.words ++ rest) e rest :=
  (e.derives hwf htests).before hrest

/-- What a parser makes of the canonical text of a program whose conditions are operations: the
program, with every negative integer written as an operation. -/
theorem parse?_programText_signless {p : Program Unit} (hwr : StmtsWritable p)
    (htests : StmtsTestOperations p) : parse? (programText p) = .ok (signless.stmts p) := by
  rw [parse?_eq_ok, parse_eq_iff_derives, map_word_scan, wordsOf_programText hwr]
  have hderives := stmts_derive_signless p hwr htests []
  rwa [List.append_nil] at hderives

/-- Parsing the canonical text of a program whose conditions are operations gives the program
back. -/
theorem parse_programText {p : Program Unit} (hwf : StmtsWellFormed p)
    (htests : StmtsTestOperations p) : parse? (programText p) = .ok p := by
  rw [parse?_programText_signless (stmts_writable p hwf) htests, stmts_signless_eq p hwf]

end LetLang
