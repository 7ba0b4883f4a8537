import LetLang.Proofs.Parse.Levels
import LetLang.Proofs.Parse.Steps

/-!
# The first word decides

What each parser does when it is known which word comes first. A lemma here reduces what holds of
the outcome of a parser to what holds of the parsers it goes on with, at whatever depth; later
proofs about successful runs cite these lemmas and unfold no parser.
-/

set_option autoImplicit false

namespace LetLang.Parser

open Grammar

variable {depth : Nat} {c : Cursor} {w : Word} {ws : List Word}

/-! ## Operands -/

section Operand

variable {Q : Outcome (Expr Unit) → Prop}

/-- An identifier is a name. -/
theorem operand_name (hc : c.words = w :: ws) (hw : w.kind = .identifier) :
    (operand depth).Yields c (.callable (.name w.text)) ws := by
  cases depth with
  | zero => exact .exhausted
  | succ depth =>
    rw [operand]
    refine .next hc fun t m ht hm => ?_
    subst ht
    have hkind : t.kind = .identifier := hw
    simp only [hkind]
    exact .pure ⟨rfl, rfl, hm⟩

/-- Digits in range are an integer. -/
theorem operand_int (hc : c.words = w :: ws) (hw : w.kind = .integer)
    (hle : (decimal w.text : Int) ≤ Int64.maxValue.toInt) :
    (operand depth).Yields c (.int (Int64.ofNat (decimal w.text))) ws := by
  cases depth with
  | zero => exact .exhausted
  | succ depth =>
    rw [operand]
    refine .next hc fun t m ht hm => ?_
    subst ht
    have hkind : t.kind = .integer := hw
    have hvalue : Numeral.ofDigits? t.text = some (Int64.ofNat (decimal t.text)) :=
      ofDigits?_eq_some_iff.2 ⟨hle, rfl⟩
    simp only [hkind, hvalue]
    exact .pure ⟨rfl, rfl, hm⟩

/-- Digits that write no integer. -/
theorem operand_int_beyond (hkind : c.peek.kind = .integer)
    (hbeyond : Numeral.ofDigits? c.peek.text = none) :
    (operand depth).Ensures c (· = ⟨.error (.invalidInteger c.peek), [], c.advance⟩) := by
  intro out hout
  cases depth with
  | zero => cases hout
  | succ depth =>
    rw [operand, next_bind] at hout
    simp only [hkind, hbeyond] at hout
    cases hout
    rfl

/-- No operand starts with a closing brace, which is read all the same. -/
theorem operand_rightBrace (hkind : c.peek.kind = .rightBrace) :
    (operand depth).Ensures c (· = ⟨.error (.noOperand c.peek), [], c.advance⟩) := by
  intro out hout
  cases depth with
  | zero => cases hout
  | succ depth =>
    rw [operand, next_bind] at hout
    simp only [hkind, TokenKind.unaryOp?] at hout
    cases hout
    rfl

theorem operand_true (hc : c.words = w :: ws) (hw : w.kind = .trueWord) :
    (operand depth).Yields c (.bool true) ws := by
  cases depth with
  | zero => exact .exhausted
  | succ depth =>
    rw [operand]
    refine .next hc fun t m ht hm => ?_
    subst ht
    have hkind : t.kind = .trueWord := hw
    simp only [hkind]
    exact .pure ⟨rfl, rfl, hm⟩

theorem operand_false (hc : c.words = w :: ws) (hw : w.kind = .falseWord) :
    (operand depth).Yields c (.bool false) ws := by
  cases depth with
  | zero => exact .exhausted
  | succ depth =>
    rw [operand]
    refine .next hc fun t m ht hm => ?_
    subst ht
    have hkind : t.kind = .falseWord := hw
    simp only [hkind]
    exact .pure ⟨rfl, rfl, hm⟩

/-- Behind an opening parenthesis an expression of the lowest level is read. -/
theorem operand_group (hc : c.words = w :: ws) (hw : w.kind = .leftParen)
    (h : ∀ (d : Nat) (m : Cursor), m.words = ws →
      (expression d .lowest >>= fun e => expect .rightParen >>= fun _ => pure e).Ensures m Q) :
    (operand depth).Ensures c Q := by
  cases depth with
  | zero => exact .exhausted
  | succ depth =>
    rw [operand]
    refine .next hc fun t m ht hm => ?_
    subst ht
    have hkind : t.kind = .leftParen := hw
    simp only [hkind]
    exact h depth m hm

theorem operand_if (hc : c.words = w :: ws) (hw : w.kind = .ifWord)
    (h : ∀ (d : Nat) (m : Cursor), m.words = ws → (conditional d).Ensures m Q) :
    (operand depth).Ensures c Q := by
  cases depth with
  | zero => exact .exhausted
  | succ depth =>
    rw [operand]
    refine .next hc fun t m ht hm => ?_
    subst ht
    have hkind : t.kind = .ifWord := hw
    simp only [hkind]
    exact h depth m hm

theorem operand_function (hc : c.words = w :: ws) (hw : w.kind = .functionWord)
    (h : ∀ (d : Nat) (m : Cursor), m.words = ws → (functionLiteral d).Ensures m Q) :
    (operand depth).Ensures c Q := by
  cases depth with
  | zero => exact .exhausted
  | succ depth =>
    rw [operand]
    refine .next hc fun t m ht hm => ?_
    subst ht
    have hkind : t.kind = .functionWord := hw
    simp only [hkind]
    exact h depth m hm

/-- Behind a prefix operator an expression of the prefix level is read. -/
theorem operand_prefix {op : UnaryOp} (hc : c.words = w :: ws) (hw : (w.kind, op) ∈ prefixOps)
    (h : ∀ (d : Nat) (m : Cursor), m.words = ws →
      (expression d .unary >>= fun e => pure (.unary op e)).Ensures m Q) :
    (operand depth).Ensures c Q := by
  cases depth with
  | zero => exact .exhausted
  | succ depth =>
    rw [operand]
    refine .next hc fun t m ht hm => ?_
    subst ht
    simp only [prefixOps, List.mem_cons, Prod.mk.injEq, List.not_mem_nil, or_false] at hw
    rcases hw with ⟨hw, rfl⟩ | ⟨hw, rfl⟩
    · have hkind : t.kind = .minus := hw
      simp only [hkind, TokenKind.unaryOp?]
      exact h depth m hm
    · have hkind : t.kind = .bang := hw
      simp only [hkind, TokenKind.unaryOp?]
      exact h depth m hm

/-- Behind an `if` a condition in parentheses and a block are read, then perhaps an alternative. -/
theorem conditional_open (hc : c.words = w :: ws) (hw : w.kind = .leftParen)
    (h : ∀ (d : Nat) (m : Cursor), m.words = ws →
      (expression d .lowest >>= fun condition => expect .rightParen >>= fun _ =>
        expect .leftBrace >>= fun _ => block d >>= fun consequence => peek >>= fun t =>
          if t.kind = .elseWord then
            next >>= fun _ => expect .leftBrace >>= fun _ => block d >>= fun alternative =>
              pure (.ifElse condition consequence alternative)
          else pure (.ifThen condition consequence)).Ensures m Q) :
    (conditional depth).Ensures c Q := by
  cases depth with
  | zero => exact .exhausted
  | succ depth =>
    rw [conditional]
    exact .expect hc hw fun _ m _ hm => h depth m hm

theorem functionLiteral_open (hc : c.words = w :: ws) (hw : w.kind = .leftParen)
    (h : ∀ (d : Nat) (m : Cursor), m.words = ws →
      (parameters d >>= fun xs => expect .leftBrace >>= fun _ => block d >>= fun body =>
        pure (.callable (.func () xs body))).Ensures m Q) :
    (functionLiteral depth).Ensures c Q := by
  cases depth with
  | zero => exact .exhausted
  | succ depth =>
    rw [functionLiteral]
    exact .expect hc hw fun _ m _ hm => h depth m hm

end Operand

/-! ## Expressions -/

section Expression

variable {Q : Outcome (Expr Unit) → Prop} {level : Precedence} {left : Expr Unit}

/-- Once the operand is read, the expression is what climbing makes of it. -/
theorem expression_operand {rest : List Word}
    (hoperand : ∀ d : Nat, (operand d).Yields c left rest)
    (hclimb : ∀ (d : Nat) (m : Cursor), m.words = rest → (climb d level left).Ensures m Q) :
    (expression depth level).Ensures c Q := by
  cases depth with
  | zero => exact .exhausted
  | succ depth =>
    rw [expression]
    exact .bind (hoperand depth) (hclimb depth)

/-- Climbing ends before a word that does not hold more tightly than the level. -/
theorem climb_stop (h : ¬ level < (nextKind c.words).precedence) :
    (climb depth level left).Yields c left c.words := by
  cases depth with
  | zero => exact .exhausted
  | succ depth =>
    rw [climb]
    refine .peek ?_
    rw [Cursor.peek_kind, if_neg h]
    exact .pure ⟨rfl, rfl, rfl⟩

theorem climb_stop_of_words (hc : c.words = ws) (h : ¬ level < (nextKind ws).precedence) :
    (climb depth level left).Yields c left ws := by
  subst hc
  exact climb_stop h

/-- An operator above the level takes an operand of its own level, and the loop goes on. -/
theorem climb_binary {op : BinaryOp} {k : Precedence} (hc : c.words = w :: ws)
    (hw : (w.kind, op) ∈ binaryOps k) (hlevel : level < k)
    (h : ∀ (d : Nat) (m : Cursor), m.words = ws →
      (expression d k >>= fun right => climb d level (.binary op left right)).Ensures m Q) :
    (climb depth level left).Ensures c Q := by
  obtain ⟨hop, rfl⟩ := mem_binaryOps_iff.1 hw
  cases depth with
  | zero => exact .exhausted
  | succ depth =>
    rw [climb]
    refine .peek ?_
    rw [Cursor.peek_kind, hc, nextKind_cons, precedence_of_binaryOp? hop, if_pos hlevel]
    refine .next hc fun t m ht hm => ?_
    simp only [hop]
    exact h depth m hm

/-- A parenthesis behind a callable expression makes a call of it, and the loop goes on. -/
theorem climb_call {f : Callable Unit} (hc : c.words = w :: ws) (hw : w.kind = .leftParen)
    (hlevel : level ≠ .call)
    (h : ∀ (d : Nat) (m : Cursor), m.words = ws →
      (arguments d >>= fun args => climb d level (.call f args)).Ensures m Q) :
    (climb depth level (.callable f)).Ensures c Q := by
  have hlt : level < w.kind.precedence := by
    rw [hw]
    cases level <;> first | exact absurd rfl hlevel | decide
  cases depth with
  | zero => exact .exhausted
  | succ depth =>
    rw [climb]
    refine .peek ?_
    rw [Cursor.peek_kind, hc, nextKind_cons, if_pos hlt]
    refine .next hc fun t m ht hm => ?_
    simp only [hw, TokenKind.binaryOp?]
    exact h depth m hm

end Expression

/-! ## Lists of names and of arguments -/

/-- The parser reads the parameters that the grammar derives. -/
theorem moreParameters_yields {rest : List Word} {xs : List String}
    (h : MoreParameters ws xs rest) :
    ∀ {depth : Nat} {c : Cursor}, c.words = ws → (moreParameters depth).Yields c xs rest := by
  induction h with
  | close hclose =>
    intro depth c hc
    cases depth with
    | zero => exact .exhausted
    | succ depth =>
      rw [moreParameters]
      refine .peek ?_
      rw [Cursor.peek_kind, hc, nextKind_cons, if_neg (by rw [hclose]; decide)]
      exact .expect hc hclose fun _ m _ hm => .pure ⟨rfl, rfl, hm⟩
  | comma hcomma hx _ ih =>
    intro depth c hc
    cases depth with
    | zero => exact .exhausted
    | succ depth =>
      rw [moreParameters]
      refine .peek ?_
      rw [Cursor.peek_kind, hc, nextKind_cons, if_pos hcomma]
      refine .next hc fun _ m _ hm => ?_
      refine .expect hm hx fun t n ht hn => ?_
      subst ht
      exact .bind (ih hn) fun _ hm' => .pure ⟨rfl, rfl, hm'⟩

theorem parameters_yields {rest : List Word} {xs : List String} (h : Parameters ws xs rest)
    (hc : c.words = ws) : (parameters depth).Yields c xs rest := by
  rw [parameters]
  refine .peek ?_
  rw [Cursor.peek_kind, hc]
  cases h with
  | none hclose =>
    rw [nextKind_cons, if_pos hclose]
    exact .next hc fun _ m _ hm => .pure ⟨rfl, rfl, hm⟩
  | some hx hxs =>
    rw [nextKind_cons, if_neg (by rw [hx]; decide)]
    refine .expect hc hx fun t m ht hm => ?_
    subst ht
    exact .bind (moreParameters_yields hxs hm) fun _ hm' => .pure ⟨rfl, rfl, hm'⟩

section Arguments

variable {Q : Outcome (List (Expr Unit)) → Prop}

theorem arguments_close (hc : c.words = w :: ws) (hw : w.kind = .rightParen) :
    (arguments depth).Yields c [] ws := by
  cases depth with
  | zero => exact .exhausted
  | succ depth =>
    rw [arguments]
    refine .peek ?_
    rw [Cursor.peek_kind, hc, nextKind_cons, if_pos hw]
    exact .next hc fun _ m _ hm => .pure ⟨rfl, rfl, hm⟩

/-- Arguments that are not closed at once start with an expression. -/
theorem arguments_open (hne : nextKind c.words ≠ .rightParen)
    (h : ∀ d : Nat, (expression d .lowest >>= fun e => moreArguments d >>= fun es =>
      pure (e :: es)).Ensures c Q) : (arguments depth).Ensures c Q := by
  cases depth with
  | zero => exact .exhausted
  | succ depth =>
    rw [arguments]
    refine .peek ?_
    rw [Cursor.peek_kind, if_neg hne]
    exact h depth

theorem moreArguments_close (hc : c.words = w :: ws) (hw : w.kind = .rightParen) :
    (moreArguments depth).Yields c [] ws := by
  cases depth with
  | zero => exact .exhausted
  | succ depth =>
    rw [moreArguments]
    refine .peek ?_
    rw [Cursor.peek_kind, hc, nextKind_cons, if_neg (by rw [hw]; decide)]
    exact .expect hc hw fun _ m _ hm => .pure ⟨rfl, rfl, hm⟩

/-- An argument that is read without an error goes before the others. -/
theorem moreArguments_comma {e : Expr Unit} {rest : List Word} (hc : c.words = w :: ws)
    (hw : w.kind = .comma)
    (he : ∀ (d : Nat) (m : Cursor), m.words = ws → (expression d .lowest).Yields m e rest)
    (h : ∀ (d : Nat) (m : Cursor), m.words = rest →
      (moreArguments d >>= fun es => pure (e :: es)).Ensures m Q) :
    (moreArguments depth).Ensures c Q := by
  cases depth with
  | zero => exact .exhausted
  | succ depth =>
    rw [moreArguments]
    refine .peek ?_
    rw [Cursor.peek_kind, hc, nextKind_cons, if_pos hw]
    refine .next hc fun _ m _ hm => ?_
    exact .bind (he depth m hm).attempt fun n hn => h depth n hn

end Arguments

/-! ## Statements -/

section Statement

variable {Q : Outcome (Stmt Unit) → Prop}

/-- A `let` reads a name, a sign and an expression, and skips to the next semicolon. -/
theorem statement_let {x a : Word} (hc : c.words = w :: x :: a :: ws) (hw : w.kind = .letWord)
    (hx : x.kind = .identifier) (ha : a.kind = .assign)
    (h : ∀ (d : Nat) (m : Cursor), m.words = ws →
      (expression d .lowest >>= fun e => move (Cursor.skipPast (· == .semicolon)) >>= fun _ =>
        pure (.letDecl x.text e)).Ensures m Q) : (statement depth).Ensures c Q := by
  cases depth with
  | zero => exact .exhausted
  | succ depth =>
    rw [statement]
    refine .peek ?_
    rw [Cursor.peek_kind, hc, nextKind_cons]
    simp only [hw]
    refine .next hc fun _ m _ hm => ?_
    refine .expect hm hx fun t n ht hn => ?_
    subst ht
    exact .expect hn ha fun _ n' _ hn' => h depth n' hn'

/-- A `return` reads an expression, and skips to the next semicolon. -/
theorem statement_return (hc : c.words = w :: ws) (hw : w.kind = .returnWord)
    (h : ∀ (d : Nat) (m : Cursor), m.words = ws →
      (expression d .lowest >>= fun e => move (Cursor.skipPast (· == .semicolon)) >>= fun _ =>
        pure (.ret e)).Ensures m Q) : (statement depth).Ensures c Q := by
  cases depth with
  | zero => exact .exhausted
  | succ depth =>
    rw [statement]
    refine .peek ?_
    rw [Cursor.peek_kind, hc, nextKind_cons]
    simp only [hw]
    exact .next hc fun _ m _ hm => h depth m hm

/-- An expression statement skips the semicolons behind it. -/
theorem statement_expr (hstart : nextKind c.words ∈ starting)
    (h : ∀ d : Nat, (expression d .lowest >>= fun e => move (Cursor.skipRun .semicolon) >>= fun _ =>
      pure (.expr e)).Ensures c Q) : (statement depth).Ensures c Q := by
  cases depth with
  | zero => exact .exhausted
  | succ depth =>
    rw [statement]
    refine .peek ?_
    rw [Cursor.peek_kind]
    split
    · next hlet =>
      rw [hlet] at hstart
      exact absurd hstart (by decide)
    · next hret =>
      rw [hret] at hstart
      exact absurd hstart (by decide)
    · exact h depth

/-- A statement breaks off where its first operand does. -/
theorem statement_broken {e : ParseError} {m : Cursor}
    (hkind : c.peek.kind ∉ [TokenKind.letWord, .returnWord])
    (h : ∀ d : Nat, (operand d).Ensures c (· = ⟨.error e, [], m⟩)) :
    (statement depth).Ensures c (· = ⟨.error e, [], m⟩) := by
  have hexpression : ∀ d, (expression d .lowest).Ensures c (· = ⟨.error e, [], m⟩) := by
    intro d
    cases d with
    | zero => exact .exhausted
    | succ d =>
      rw [expression]
      exact .bind_error (h d)
  cases depth with
  | zero => exact .exhausted
  | succ depth =>
    rw [statement]
    refine .peek ?_
    split
    · next hlet => exact absurd (hlet ▸ List.mem_cons_self) hkind
    · next hret => exact absurd (hret ▸ List.mem_cons_of_mem _ List.mem_cons_self) hkind
    · exact .bind_error (hexpression depth)

end Statement

theorem block_close (hc : c.words = w :: ws) (hw : w.kind = .rightBrace) :
    (block depth).Yields c [] ws := by
  cases depth with
  | zero => exact .exhausted
  | succ depth =>
    rw [block]
    refine .peek ?_
    rw [Cursor.peek_kind, hc, nextKind_cons]
    simp only [hw]
    exact .next hc fun _ m _ hm => .pure ⟨rfl, rfl, hm⟩

/-- A statement that is read without an error goes before the others of its block. -/
theorem block_cons {Q : Outcome (Block Unit) → Prop} {s : Stmt Unit} {rest : List Word}
    (hbrace : nextKind c.words ≠ .rightBrace) (heof : nextKind c.words ≠ .eof)
    (hs : ∀ d : Nat, (statement d).Yields c s rest)
    (h : ∀ (d : Nat) (m : Cursor), m.words = rest →
      (block d >>= fun ss => pure (s :: ss)).Ensures m Q) : (block depth).Ensures c Q := by
  cases depth with
  | zero => exact .exhausted
  | succ depth =>
    rw [block]
    refine .peek ?_
    split
    · next hkind => exact absurd (c.peek_kind.symm.trans hkind) hbrace
    · next hkind => exact absurd (c.peek_kind.symm.trans hkind) heof
    · exact .bind (hs depth).attempt fun m hm => h depth m hm

theorem program_nil (hc : c.words = []) : (program depth).Yields c [] [] := by
  cases depth with
  | zero => exact .exhausted
  | succ depth =>
    rw [program]
    refine .peek ?_
    rw [Cursor.peek_kind, if_pos (by rw [hc, nextKind_nil])]
    exact .pure ⟨rfl, rfl, hc⟩

/-- A statement that is read without an error goes before the others of the program. -/
theorem program_cons {Q : Outcome (LetLang.Program Unit) → Prop} {s : Stmt Unit}
    {rest : List Word} (heof : nextKind c.words ≠ .eof)
    (hs : ∀ d : Nat, (statement d).Yields c s rest)
    (h : ∀ (d : Nat) (m : Cursor), m.words = rest →
      (program d >>= fun ss => pure (s :: ss)).Ensures m Q) : (program depth).Ensures c Q := by
  cases depth with
  | zero => exact .exhausted
  | succ depth =>
    rw [program]
    refine .peek ?_
    rw [Cursor.peek_kind, if_neg heof]
    exact .bind (hs depth).attempt fun m hm => h depth m hm

end LetLang.Parser
