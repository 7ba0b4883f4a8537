import LetLang.Proofs.Parse.Invariant
import LetLang.Proofs.Parse.Program

/-!
# What tokens pay for

Every token pays for at most one thing: a statement, at whatever depth it stands, or an error. A
parser is granted a budget, of which one unit for each token that it leaves unread must be left over
(`Parser.Pays`). What is read before it can be owed already. A parser that reads an expression or a
statement can pay for one error more, since it reads a token unless there is none; this is the error
that its caller records. From the budgets of all parsers follows that of a whole source
(`tokens_pay_for_statements_and_errors`), which is read to its end.
-/

set_option autoImplicit false

namespace LetLang

variable {α β γ : Type}

/-! ## Statements at every depth -/

mutual

/-- The number of statements in an expression, those in function literals included. -/
def Expr.statements : Expr α → Nat
  | .callable c => c.statements
  | .int _ => 0
  | .bool _ => 0
  | .unary _ e => e.statements
  | .binary _ l r => l.statements + r.statements
  | .ifThen c t => c.statements + stmtsStatements t
  | .ifElse c t u => c.statements + (stmtsStatements t + stmtsStatements u)
  | .call f args => f.statements + exprsStatements args

def Callable.statements : Callable α → Nat
  | .name _ => 0
  | .func _ _ body => stmtsStatements body

/-- The number of statements in a statement, itself included. -/
def Stmt.statements : Stmt α → Nat
  | .letDecl _ e => e.statements + 1
  | .ret e => e.statements + 1
  | .expr e => e.statements + 1

def exprsStatements : List (Expr α) → Nat
  | [] => 0
  | e :: es => e.statements + exprsStatements es

def stmtsStatements : List (Stmt α) → Nat
  | [] => 0
  | s :: ss => s.statements + stmtsStatements ss

end

namespace Parser

/-! ## Budgets -/

/-- What a result costs: a value its own cost, and an error the given price. -/
def due (cost : β → Nat) (price : Nat) : Except ParseError β → Nat
  | .ok b => cost b
  | .error _ => price

/-- The budget `n` pays for the errors recorded from `c` on, for the result, and for every token
that is left. -/
def Pays (p : Parser β) (c : Cursor) (n : Nat) (cost : β → Nat) (price : Nat) : Prop :=
  p.Ensures c fun out => out.errors.length + due cost price out.value + out.cursor.left ≤ n

namespace Pays

variable {p : Parser β} {f : β → Parser γ} {c : Cursor} {n price price' : Nat} {cost : β → Nat}
  {cost' : γ → Nat}

theorem exhausted : (Parser.exhausted : Parser β).Pays c n cost price := Ensures.exhausted

theorem pure {b : β} (h : cost b + c.left ≤ n) :
    (Pure.pure b : Parser β).Pays c n cost price := by
  refine Ensures.pure ?_
  show 0 + cost b + c.left ≤ n
  omega

theorem fail {e : ParseError} (h : price + c.left ≤ n) :
    (Parser.fail e : Parser β).Pays c n cost price := by
  intro out hout
  cases hout
  show 0 + price + c.left ≤ n
  omega

/-- A parser that pays for more. -/
theorem mono {cost₁ : β → Nat} (hp : p.Pays c n cost price) (hcost : ∀ b, cost₁ b ≤ cost b)
    (hprice : price' ≤ price) : p.Pays c n cost₁ price' := by
  intro out hout
  have hpays := hp out hout
  obtain ⟨value, es, m⟩ := out
  cases value with
  | ok b =>
    have hpays : es.length + cost b + m.left ≤ n := hpays
    have hle := hcost b
    show es.length + cost₁ b + m.left ≤ n
    omega
  | error e =>
    have hpays : es.length + price + m.left ≤ n := hpays
    show es.length + price' + m.left ≤ n
    omega

/-- What the first part leaves of the budget is the budget of the second. -/
theorem bind (hp : p.Pays c n cost price) (hprice : price' ≤ price)
    (hf : ∀ b (m : Cursor) n', cost b + m.left ≤ n' → (f b).Pays m n' cost' price') :
    (p >>= f).Pays c n cost' price' := by
  intro out hout
  obtain ⟨e, es, m, hrun, rfl⟩ | ⟨b, es, m, out', hrun, hout', rfl⟩ := bind_eq_some hout
  · exact hp.mono (fun _ => Nat.le_refl _) hprice _ hrun
  · have hpays : es.length + cost b + m.left ≤ n := hp _ hrun
    have hrest := hf b m (n - es.length) (by omega) out' hout'
    show (es ++ out'.errors).length + due cost' price' out'.value + out'.cursor.left ≤ n
    rw [List.length_append]
    omega

/-- A caller that takes an error as a value is left with its price. -/
theorem attempt {f : Except ParseError β → Parser γ} (hp : p.Pays c n cost price)
    (hok : ∀ b (m : Cursor) n', cost b + m.left ≤ n' → (f (.ok b)).Pays m n' cost' price')
    (herror : ∀ e (m : Cursor) n', price + m.left ≤ n' → (f (.error e)).Pays m n' cost' price') :
    (Parser.attempt p >>= f).Pays c n cost' price' := by
  have hattempt : (Parser.attempt p).Pays c n (due cost price) price' := by
    intro out hout
    rw [Parser.attempt, Option.map_eq_some_iff] at hout
    obtain ⟨mid, hmid, rfl⟩ := hout
    exact hp mid hmid
  refine hattempt.bind (Nat.le_refl _) fun r m n' hm => ?_
  cases r with
  | ok b => exact hok b m n' hm
  | error e => exact herror e m n' hm

/-- A recorded error is paid for at once. -/
theorem record {e : ParseError} {f : Unit → Parser γ} (hn : 1 ≤ n)
    (hf : (f ()).Pays c (n - 1) cost' price') :
    (Parser.record e >>= f).Pays c n cost' price' := by
  intro out hout
  obtain ⟨out', hout', rfl⟩ := record_bind_eq_some hout
  have hpays := hf out' hout'
  show (out'.errors.length + 1) + due cost' price' out'.value + out'.cursor.left ≤ n
  omega

theorem peek {f : Token → Parser γ} (h : (f c.peek).Pays c n cost' price') :
    (Parser.peek >>= f).Pays c n cost' price' := Ensures.peek h

theorem next {f : Token → Parser γ} (h : (f c.peek).Pays c.advance n cost' price') :
    (Parser.next >>= f).Pays c n cost' price' := by
  intro out hout
  rw [next_bind] at hout
  exact h out hout

/-- An expected token is read, or an error is left to the caller. -/
theorem expect {kind : TokenKind} {f : Token → Parser γ} (hkind : kind ≠ .eof)
    (hprice : price' + c.left ≤ n)
    (h : c.advance.left + 1 = c.left → (f c.peek).Pays c.advance n cost' price') :
    (Parser.expect kind >>= f).Pays c n cost' price' := by
  intro out hout
  rw [expect_bind] at hout
  split at hout
  · next hpeek =>
    have hpos := Cursor.left_pos_of_peek (hpeek ▸ hkind)
    have hleft := c.left_advance
    exact h (by omega) out hout
  · cases hout
    show 0 + price' + c.left ≤ n
    omega

theorem lastKind {f : TokenKind → Parser γ} (h : (f c.last).Pays c n cost' price') :
    (Parser.lastKind >>= f).Pays c n cost' price' := by
  intro out hout
  rw [lastKind_bind] at hout
  exact h out hout

theorem move {g : Cursor → Cursor} {f : Unit → Parser γ}
    (h : (f ()).Pays (g c) n cost' price') : (Parser.move g >>= f).Pays c n cost' price' :=
  Ensures.move h

end Pays

/-! ## One lemma for each parser -/

/-- Names cost nothing. -/
theorem moreParameters_pays : ∀ depth {c : Cursor} {n j : Nat}, j + c.left ≤ n →
    (moreParameters depth).Pays c n (fun _ => j) j
  | 0, c, n, j, h => by rw [moreParameters]; exact .exhausted
  | depth + 1, c, n, j, h => by
    have hleft := c.left_advance
    rw [moreParameters]
    refine .peek ?_
    split
    · refine .next (.expect (by decide) (by omega) fun hleft' => ?_)
      refine .bind (moreParameters_pays depth (by omega)) (Nat.le_refl j) fun xs m n' hm => ?_
      exact .pure hm
    · exact .expect (by decide) h fun _ => .pure (by omega)

/-- Parameters hold no statements. -/
theorem parameters_pays {depth : Nat} {c : Cursor} {n j : Nat} (h : j + c.left ≤ n) :
    (parameters depth).Pays c n (fun _ => j) j := by
  have hleft := c.left_advance
  rw [parameters]
  refine .peek ?_
  split
  · exact .next (.pure (by omega))
  · refine .expect (by decide) h fun hleft' => ?_
    refine .bind (moreParameters_pays depth (by omega)) (Nat.le_refl j) fun xs m n' hm => ?_
    exact .pure hm

/-- What the parsers of some depth pay for, if `j` is owed already. -/
structure PaysAll (depth : Nat) : Prop where
  expression : ∀ level {c : Cursor} {n j : Nat}, j + c.left ≤ n →
    (expression depth level).Pays c n (fun e => j + (e.statements + 1)) (j + min 1 c.left)
  operand : ∀ {c : Cursor} {n j : Nat}, j + c.left ≤ n →
    (operand depth).Pays c n (fun e => j + (e.statements + 1)) (j + min 1 c.left)
  conditional : ∀ {c : Cursor} {n j : Nat}, j + c.left ≤ n →
    (conditional depth).Pays c n (fun e => j + e.statements) j
  functionLiteral : ∀ {c : Cursor} {n j : Nat}, j + c.left ≤ n →
    (functionLiteral depth).Pays c n (fun e => j + e.statements) j
  climb : ∀ level left {c : Cursor} {n j : Nat}, j + left.statements + c.left ≤ n →
    (climb depth level left).Pays c n (fun e => j + e.statements) j
  arguments : ∀ {c : Cursor} {n j : Nat}, j + c.left ≤ n →
    (arguments depth).Pays c n (fun es => j + exprsStatements es) j
  moreArguments : ∀ {c : Cursor} {n j : Nat}, j + c.left ≤ n →
    (moreArguments depth).Pays c n (fun es => j + exprsStatements es) j
  block : ∀ {c : Cursor} {n j : Nat}, j + c.left ≤ n →
    (block depth).Pays c n (fun ss => j + stmtsStatements ss) j
  statement : ∀ {c : Cursor} {n j : Nat}, 1 ≤ c.left → j + c.left ≤ n →
    (statement depth).Pays c n (fun s => j + s.statements) (j + 1)

namespace PaysAll

variable {depth : Nat} (ih : PaysAll depth) {c : Cursor} {n j : Nat}

include ih

/-- An expression can pay for one error more unless no token is left, since its operand reads one.
-/
theorem expression_succ (level : Precedence) (h : j + c.left ≤ n) :
    (Parser.expression (depth + 1) level).Pays c n (fun e => j + (e.statements + 1))
      (j + min 1 c.left) := by
  rw [Parser.expression]
  refine .bind (ih.operand h) (Nat.le_refl _) fun left m n' hm => ?_
  have hclimb := ih.climb level left (show j + 1 + left.statements + m.left ≤ n' by omega)
  exact hclimb.mono (fun e => by omega) (by omega)

/-- An operand reads a token if there is one, and that pays for one error more. -/
theorem operand_succ (h : j + c.left ≤ n) :
    (Parser.operand (depth + 1)).Pays c n (fun e => j + (e.statements + 1))
      (j + min 1 c.left) := by
  have hleft := c.left_advance
  rw [Parser.operand]
  refine .next ?_
  by_cases hpeek : c.peek.kind = .eof
  · simp only [hpeek, TokenKind.unaryOp?]
    exact .fail (by omega)
  · -- The token that is read pays for one thing more than what is owed.
    have hpos := Cursor.left_pos_of_peek hpeek
    have hrest : j + 1 + c.advance.left ≤ n := by omega
    split
    · exact .pure (by rw [Expr.statements, Callable.statements]; omega)
    · split
      · exact .pure (by rw [Expr.statements]; omega)
      · exact .fail (by omega)
    · exact .pure (by rw [Expr.statements]; omega)
    · exact .pure (by rw [Expr.statements]; omega)
    · refine .bind (ih.expression .lowest hrest) (by omega) fun e m n' hm => ?_
      exact .expect (by decide) (by omega) fun hleft' => .pure (by omega)
    · exact (ih.conditional hrest).mono (fun e => by omega) (by omega)
    · exact (ih.functionLiteral hrest).mono (fun e => by omega) (by omega)
    · split
      · refine .bind (ih.expression .unary hrest) (by omega) fun e m n' hm => ?_
        exact .pure (by rw [Expr.statements]; omega)
      · exact .fail (by omega)

theorem conditional_succ (h : j + c.left ≤ n) :
    (Parser.conditional (depth + 1)).Pays c n (fun e => j + e.statements) j := by
  rw [Parser.conditional]
  refine .expect (by decide) h fun hleft => ?_
  refine .bind (ih.expression .lowest (by omega)) (Nat.le_add_right _ _) fun e m n' hm => ?_
  refine .expect (by decide) (by omega) fun hm' => .expect (by decide) (by omega) fun hm'' => ?_
  refine .bind (ih.block (show j + e.statements + _ ≤ n' by omega)) (Nat.le_add_right _ _)
    fun ss d k hd => .peek ?_
  split
  · have hd' := d.left_advance
    refine .next (.expect (by decide) (by omega) fun hd'' => ?_)
    refine .bind (ih.block (show j + e.statements + stmtsStatements ss + _ ≤ k by omega)) (by omega)
      fun ss' d' k' hk => ?_
    exact .pure (by rw [Expr.statements]; omega)
  · exact .pure (by rw [Expr.statements]; omega)

theorem functionLiteral_succ (h : j + c.left ≤ n) :
    (Parser.functionLiteral (depth + 1)).Pays c n (fun e => j + e.statements) j := by
  rw [Parser.functionLiteral]
  refine .expect (by decide) h fun hleft => ?_
  refine .bind (parameters_pays (show j + _ ≤ n by omega)) (Nat.le_refl _) fun xs m n' hm => ?_
  refine .expect (by decide) hm fun hm' => ?_
  refine .bind (ih.block (show j + _ ≤ n' by omega)) (Nat.le_refl _) fun ss d k hd => ?_
  exact .pure (by rw [Expr.statements, Callable.statements]; omega)

/-- Operators and parentheses are read and pay for nothing. -/
theorem climb_succ (level : Precedence) (left : Expr Unit) (h : j + left.statements + c.left ≤ n) :
    (Parser.climb (depth + 1) level left).Pays c n (fun e => j + e.statements) j := by
  have hleft := c.left_advance
  rw [Parser.climb]
  refine .peek ?_
  split
  · refine .next ?_
    have hrest : j + left.statements + c.advance.left ≤ n := by omega
    split
    · refine .bind (ih.expression _ hrest) (by omega) fun right m n' hm => ?_
      exact ih.climb level _ (by rw [Expr.statements]; omega)
    · refine .bind (ih.arguments hrest) (by omega) fun args m n' hm => ?_
      split
      · rw [Expr.statements] at hm
        exact ih.climb level _ (by rw [Expr.statements]; omega)
      · exact .fail (by omega)
  · exact .pure h

theorem arguments_succ (h : j + c.left ≤ n) :
    (Parser.arguments (depth + 1)).Pays c n (fun es => j + exprsStatements es) j := by
  have hleft := c.left_advance
  rw [Parser.arguments]
  refine .peek ?_
  split
  · exact .next (.pure (by rw [exprsStatements]; omega))
  · refine .bind (ih.expression .lowest h) (by omega) fun e m n' hm => ?_
    refine .bind (ih.moreArguments (show j + e.statements + m.left ≤ n' by omega)) (by omega)
      fun es d k hd => ?_
    exact .pure (by rw [exprsStatements]; omega)

/-- The comma pays for the error of a broken argument. -/
theorem moreArguments_succ (h : j + c.left ≤ n) :
    (Parser.moreArguments (depth + 1)).Pays c n (fun es => j + exprsStatements es) j := by
  have hleft := c.left_advance
  rw [Parser.moreArguments]
  refine .peek ?_
  split
  · next hcomma =>
    have hpos : 1 ≤ c.left := Cursor.left_pos_of_peek (by simp [hcomma])
    -- The comma pays for the error of an argument that has no token.
    have hrest : j + 1 + c.advance.left ≤ n := by omega
    refine .next (.attempt (ih.expression .lowest hrest) (fun e m n' hm => ?_)
      fun err m n' hm => ?_)
    · refine .bind (ih.moreArguments (show j + e.statements + m.left ≤ n' by omega)) (by omega)
        fun es d k hd => ?_
      exact .pure (by rw [exprsStatements]; omega)
    · exact .record (by omega) (ih.moreArguments (by omega))
  · exact .expect (by decide) h fun hleft' => .pure (by rw [exprsStatements]; omega)

/-- A statement that breaks off has paid for the error that is recorded. -/
theorem block_succ (h : j + c.left ≤ n) :
    (Parser.block (depth + 1)).Pays c n (fun ss => j + stmtsStatements ss) j := by
  have hleft := c.left_advance
  rw [Parser.block]
  refine .peek ?_
  split
  · exact .next (.pure (by rw [stmtsStatements]; omega))
  · exact .next (.fail (by omega))
  · next hpeek =>
    refine .attempt (ih.statement (Cursor.left_pos_of_peek hpeek) h) (fun s m n' hm => ?_)
      fun err m n' hm => ?_
    · refine .bind (ih.block (show j + s.statements + m.left ≤ n' by omega)) (by omega)
        fun ss d k hd => ?_
      exact .pure (by rw [stmtsStatements]; omega)
    · have hrecover := m.left_recover_le
      refine .record (by omega) (.move (.lastKind ?_))
      split
      · exact .pure (by rw [stmtsStatements]; omega)
      · exact ih.block (by omega)

/-- The first token of a statement pays for the statement, or for its error. -/
theorem statement_succ (hpos : 1 ≤ c.left) (h : j + c.left ≤ n) :
    (Parser.statement (depth + 1)).Pays c n (fun s => j + s.statements) (j + 1) := by
  have hleft := c.left_advance
  rw [Parser.statement]
  refine .peek ?_
  split
  · refine .next (.expect (by decide) (by omega) fun hleft' => ?_)
    refine .expect (by decide) (by omega) fun hleft'' => ?_
    refine .bind (ih.expression .lowest (show j + 1 + _ ≤ n by omega)) (by omega)
      fun e m n' hm => .move ?_
    have hskip := m.left_skipPast_le (· == .semicolon)
    exact .pure (by rw [Stmt.statements]; omega)
  · refine .next (.bind (ih.expression .lowest (show j + 1 + _ ≤ n by omega)) (by omega)
      fun e m n' hm => .move ?_)
    have hskip := m.left_skipPast_le (· == .semicolon)
    exact .pure (by rw [Stmt.statements]; omega)
  · refine .bind (ih.expression .lowest h) (by omega) fun e m n' hm => .move ?_
    have hskip := m.left_skipRun_le .semicolon
    exact .pure (by rw [Stmt.statements]; omega)

end PaysAll

/-- Without depth there is no outcome, and each further level adds what its parts cost. -/
theorem pays_all : ∀ depth, PaysAll depth
  | 0 =>
    { expression := fun _ _ _ _ _ => by rw [expression]; exact .exhausted
      operand := fun _ => by rw [operand]; exact .exhausted
      conditional := fun _ => by rw [conditional]; exact .exhausted
      functionLiteral := fun _ => by rw [functionLiteral]; exact .exhausted
      climb := fun _ _ _ _ _ _ => by rw [climb]; exact .exhausted
      arguments := fun _ => by rw [arguments]; exact .exhausted
      moreArguments := fun _ => by rw [moreArguments]; exact .exhausted
      block := fun _ => by rw [block]; exact .exhausted
      statement := fun _ _ => by rw [statement]; exact .exhausted }
  | depth + 1 =>
    have ih := pays_all depth
    { expression := fun level _ _ _ => ih.expression_succ level
      operand := ih.operand_succ
      conditional := ih.conditional_succ
      functionLiteral := ih.functionLiteral_succ
      climb := fun level left _ _ _ => ih.climb_succ level left
      arguments := ih.arguments_succ
      moreArguments := ih.moreArguments_succ
      block := ih.block_succ
      statement := ih.statement_succ }

end Parser

/-! ## The budget of a source -/

/-- The tokens that are read pay for the statements of a program and for its errors. -/
theorem ProgramRun.pays {c c' : Cursor} {p : Program Unit} {es : List ParseError}
    (hrun : ProgramRun c p es c') : es.length + stmtsStatements p + c'.left ≤ c.left := by
  induction hrun with
  | stop heof =>
    show 0 + 0 + _ ≤ _
    omega
  | @statement depth c m c' s ss es es' hpeek hstatement _ ih =>
    have hpays : es.length + (0 + s.statements) + m.left ≤ c.left :=
      (Parser.pays_all depth).statement (Cursor.left_pos_of_peek hpeek) (by omega) _ hstatement
    rw [List.length_append, stmtsStatements]
    omega
  | @recover depth c m c' e ss es es' hpeek hstatement _ ih =>
    have hpays : es.length + (0 + 1) + m.left ≤ c.left :=
      (Parser.pays_all depth).statement (Cursor.left_pos_of_peek hpeek) (by omega) _ hstatement
    have hrecover := m.left_recover_le
    rw [List.length_append, List.length_cons]
    omega

/-- Reading stops where no token of the source is left. -/
theorem ProgramRun.unread_eq_nil {c c' : Cursor} {p : Program Unit} {es : List ParseError}
    (hrun : ProgramRun c p es c') (htokens : ∀ t ∈ c.unread, t.kind ≠ .eof) : c'.unread = [] := by
  induction hrun with
  | @stop c heof =>
    cases hunread : c.unread with
    | nil => rfl
    | cons t ts =>
      rw [Cursor.peek, hunread] at heof
      exact absurd heof (htokens t (by rw [hunread]; exact List.mem_cons_self))
  | statement _ hstatement _ ih =>
    have hprecedes := Parser.statement_precedes hstatement
    exact ih fun t ht => htokens t (hprecedes.suffix.subset ht)
  | @recover depth c m c' e ss es es' _ hstatement _ ih =>
    have hprecedes := Parser.statement_precedes hstatement
    have hrecover := m.precedes_recover
    exact ih fun t ht => htokens t (hprecedes.suffix.subset (hrecover.suffix.subset ht))

/-- Every source is parsed to its end, in a depth that is linear in the number of its tokens. The
tokens are at least as many as the errors and the statements at all depths together. -/
theorem tokens_pay_for_statements_and_errors (source : String) :
    ∃ p es c,
      Parser.program (4 * ((scan source).length + 1)) (Cursor.ofSource source) =
        some ⟨.ok p, es, c⟩ ∧
      parse source = ⟨p, es, c⟩ ∧ c.unread = [] ∧
      es.length + stmtsStatements p ≤ (scan source).length := by
  have hrun := (Cursor.ofSource source).parse_run
  refine ⟨_, _, _, (Cursor.ofSource source).parse_eq, rfl, ?_, ?_⟩
  · exact hrun.unread_eq_nil kind_ne_eof_of_mem_scan
  · exact Nat.le_trans (Nat.le_add_right _ _) hrun.pays

/-- Each of the three tokens pays. -/
example : (parse "a \x7d b").errors.length + stmtsStatements (parse "a \x7d b").program = 3 := by
  cbv

end LetLang
