import LetLang.Proofs.Parse.Words

/-!
# The token grammar

Programs as a grammar derives them from words, without a parser. Expressions are stratified into
levels of binding strength, each with its binary operators, which associate to the left; prefix
operators, calls and primaries hold tighter than all of them. A relation `R ws tree rest` says that
the words `ws` start with a phrase for `tree` and that `rest` stands behind it, so the grammar can
ask which word follows. It does so in three places: an expression is complete only if the next word
continues no expression, a call is not called again, and a conditional without an alternative is
not followed by `else`.

`Statements ws program []` is the derivation of a program from all words of a source.
-/

set_option autoImplicit false

namespace LetLang.Grammar

/-! ## Tables -/

/-- The binary operators of a level, with the kinds of their tokens. -/
def binaryOps : Precedence → List (TokenKind × BinaryOp)
  | .equality => [(.equal, .equal), (.notEqual, .notEqual)]
  | .relational => [(.lessThan, .lessThan), (.greaterThan, .greaterThan)]
  | .additive => [(.plus, .add), (.minus, .subtract)]
  | .multiplicative => [(.asterisk, .multiply), (.slash, .divide)]
  | _ => []

/-- The prefix operators, with the kinds of their tokens. -/
def prefixOps : List (TokenKind × UnaryOp) := [(.minus, .negate), (.bang, .not)]

/-- The kinds of tokens that continue an expression. -/
def continuing : List TokenKind :=
  [.plus, .minus, .asterisk, .slash, .lessThan, .greaterThan, .equal, .notEqual, .leftParen]

/-- The number that a run of digits writes. -/
def decimal (digits : String) : Nat := Nat.ofDigitChars 10 digits.toList 0

/-! ## Rules -/

/-- What stands between the value of a `let` or a `return` and the rest: words without a semicolon,
and then a semicolon or the end of the source. -/
def Skipped (ws rest : List Word) : Prop :=
  ∃ junk, (∀ w ∈ junk, w.kind ≠ .semicolon) ∧
    ((∃ w, w.kind = .semicolon ∧ ws = junk ++ w :: rest) ∨ (ws = junk ∧ rest = []))

/-- What stands between an expression statement and the rest: any number of semicolons. -/
def Semicolons (ws rest : List Word) : Prop :=
  ∃ run, (∀ w ∈ run, w.kind = .semicolon) ∧ ws = run ++ rest

/-- Names behind a comma each, up to the closing parenthesis, which belongs to the phrase. -/
inductive MoreParameters : List Word → List String → List Word → Prop
  | close {c : Word} {rest : List Word} : c.kind = .rightParen → MoreParameters (c :: rest) [] rest
  | comma {c x : Word} {ws rest : List Word} {xs : List String} :
      c.kind = .comma → x.kind = .identifier → MoreParameters ws xs rest →
      MoreParameters (c :: x :: ws) (x.text :: xs) rest

/-- The parameters of a function literal, with the closing parenthesis. -/
inductive Parameters : List Word → List String → List Word → Prop
  | none {c : Word} {rest : List Word} : c.kind = .rightParen → Parameters (c :: rest) [] rest
  | some {x : Word} {ws rest : List Word} {xs : List String} :
      x.kind = .identifier → MoreParameters ws xs rest →
      Parameters (x :: ws) (x.text :: xs) rest

mutual

/-- Expressions of a level or tighter. The left operand of an operator is of its level, the right
one is tighter. -/
inductive Tier : Precedence → List Word → Expr Unit → List Word → Prop
  | tighter {k k' : Precedence} {ws rest : List Word} {e : Expr Unit} :
      k < k' → Tier k' ws e rest → Tier k ws e rest
  | binary {k k' : Precedence} {op : BinaryOp} {w : Word} {ws mid rest : List Word}
      {l r : Expr Unit} :
      (w.kind, op) ∈ binaryOps k → k < k' → Tier k ws l (w :: mid) → Tier k' mid r rest →
      Tier k ws (.binary op l r) rest
  -- A prefix operator takes a prefix operator, but no binary one.
  | unary {op : UnaryOp} {w : Word} {ws rest : List Word} {e : Expr Unit} :
      (w.kind, op) ∈ prefixOps → Tier .unary ws e rest →
      Tier .unary (w :: ws) (.unary op e) rest
  | call {o : Word} {ws mid rest : List Word} {f : Callable Unit} {args : List (Expr Unit)} :
      Primary ws (.callable f) (o :: mid) → o.kind = .leftParen → Arguments mid args rest →
      nextKind rest ≠ .leftParen → Tier .call ws (.call f args) rest
  | primary {ws rest : List Word} {e : Expr Unit} : Primary ws e rest → Tier .call ws e rest

/-- Expressions that no operator splits. -/
inductive Primary : List Word → Expr Unit → List Word → Prop
  | name {x : Word} {rest : List Word} :
      x.kind = .identifier → Primary (x :: rest) (.callable (.name x.text)) rest
  | int {n : Word} {rest : List Word} :
      n.kind = .integer → (decimal n.text : Int) ≤ Int64.maxValue.toInt →
      Primary (n :: rest) (.int (Int64.ofNat (decimal n.text))) rest
  | true {b : Word} {rest : List Word} : b.kind = .trueWord → Primary (b :: rest) (.bool true) rest
  | false {b : Word} {rest : List Word} :
      b.kind = .falseWord → Primary (b :: rest) (.bool false) rest
  -- The parentheses are not part of the tree.
  | group {o c : Word} {ws rest : List Word} {e : Expr Unit} :
      o.kind = .leftParen → Expression ws e (c :: rest) → c.kind = .rightParen →
      Primary (o :: ws) e rest
  -- An `else` that could belong to the conditional does belong to it.
  | ifThen {i o c : Word} {ws mid rest : List Word} {e : Expr Unit} {t : List (Stmt Unit)} :
      i.kind = .ifWord → o.kind = .leftParen → Expression ws e (c :: mid) →
      c.kind = .rightParen → Braces mid t rest → nextKind rest ≠ .elseWord →
      Primary (i :: o :: ws) (.ifThen e t) rest
  | ifElse {i o c l : Word} {ws mid mid' rest : List Word} {e : Expr Unit}
      {t u : List (Stmt Unit)} :
      i.kind = .ifWord → o.kind = .leftParen → Expression ws e (c :: mid) →
      c.kind = .rightParen → Braces mid t (l :: mid') → l.kind = .elseWord →
      Braces mid' u rest → Primary (i :: o :: ws) (.ifElse e t u) rest
  | func {f o : Word} {ws mid rest : List Word} {xs : List String} {body : List (Stmt Unit)} :
      f.kind = .functionWord → o.kind = .leftParen → Parameters ws xs mid →
      Braces mid body rest → Primary (f :: o :: ws) (.callable (.func () xs body)) rest

/-- Complete expressions: no word that could continue them follows. -/
inductive Expression : List Word → Expr Unit → List Word → Prop
  | complete {ws rest : List Word} {e : Expr Unit} :
      Tier .equality ws e rest → nextKind rest ∉ continuing → Expression ws e rest

/-- The arguments of a call, with the closing parenthesis. -/
inductive Arguments : List Word → List (Expr Unit) → List Word → Prop
  | none {c : Word} {rest : List Word} : c.kind = .rightParen → Arguments (c :: rest) [] rest
  | some {ws mid rest : List Word} {e : Expr Unit} {es : List (Expr Unit)} :
      Expression ws e mid → MoreArguments mid es rest → Arguments ws (e :: es) rest

/-- Arguments behind a comma each, up to the closing parenthesis, which belongs to the phrase. -/
inductive MoreArguments : List Word → List (Expr Unit) → List Word → Prop
  | close {c : Word} {rest : List Word} : c.kind = .rightParen → MoreArguments (c :: rest) [] rest
  | comma {c : Word} {ws mid rest : List Word} {e : Expr Unit} {es : List (Expr Unit)} :
      c.kind = .comma → Expression ws e mid → MoreArguments mid es rest →
      MoreArguments (c :: ws) (e :: es) rest

/-- Blocks: statements between braces. -/
inductive Braces : List Word → List (Stmt Unit) → List Word → Prop
  | block {o c : Word} {ws rest : List Word} {ss : List (Stmt Unit)} :
      o.kind = .leftBrace → Statements ws ss (c :: rest) → c.kind = .rightBrace →
      Braces (o :: ws) ss rest

/-- Statements, with the words that end them. -/
inductive Statement : List Word → Stmt Unit → List Word → Prop
  | letDecl {l x a : Word} {ws mid rest : List Word} {e : Expr Unit} :
      l.kind = .letWord → x.kind = .identifier → a.kind = .assign → Expression ws e mid →
      Skipped mid rest → Statement (l :: x :: a :: ws) (.letDecl x.text e) rest
  | ret {r : Word} {ws mid rest : List Word} {e : Expr Unit} :
      r.kind = .returnWord → Expression ws e mid → Skipped mid rest →
      Statement (r :: ws) (.ret e) rest
  | expr {ws mid rest : List Word} {e : Expr Unit} :
      Expression ws e mid → Semicolons mid rest → Statement ws (.expr e) rest

/-- Sequences of statements. -/
inductive Statements : List Word → List (Stmt Unit) → List Word → Prop
  | nil {ws : List Word} : Statements ws [] ws
  | cons {ws mid rest : List Word} {s : Stmt Unit} {ss : List (Stmt Unit)} :
      Statement ws s mid → Statements mid ss rest → Statements ws (s :: ss) rest

end

/-! ## The first word of a phrase -/

/-- The kinds of tokens that start an expression. -/
def starting : List TokenKind :=
  [.identifier, .integer, .trueWord, .falseWord, .leftParen, .ifWord, .functionWord, .minus,
   .bang]

/-- A primary starts with its first token, or as its callee does. -/
theorem Primary.starts {ws rest : List Word} {e : Expr Unit} (h : Primary ws e rest) :
    nextKind ws ∈ starting := by
  cases h <;> simp_all [starting]

theorem kind_mem_starting {w : Word} {op : UnaryOp} (h : (w.kind, op) ∈ prefixOps) :
    w.kind ∈ starting := by
  simp only [prefixOps, List.mem_cons, Prod.mk.injEq, List.not_mem_nil, or_false] at h
  rcases h with ⟨h, -⟩ | ⟨h, -⟩ <;> rw [h] <;> decide

/-- A phrase of a level starts as its leftmost part does. -/
theorem Tier.starts : ∀ {k : Precedence} {ws rest : List Word} {e : Expr Unit},
    Tier k ws e rest → nextKind ws ∈ starting
  | _, _, _, _, .tighter _ h => h.starts
  | _, _, _, _, .binary _ _ h _ => h.starts
  | _, _, _, _, .unary h _ => kind_mem_starting h
  | _, _, _, _, .call h _ _ _ => h.starts
  | _, _, _, _, .primary h => h.starts

/-- Every expression starts with one of a few kinds of tokens. -/
theorem Expression.starts {ws rest : List Word} {e : Expr Unit} (h : Expression ws e rest) :
    nextKind ws ∈ starting := by
  cases h with
  | complete h _ => exact h.starts

/-- A statement starts with a keyword of its own or with an expression. -/
theorem Statement.starts {ws rest : List Word} {s : Stmt Unit} (h : Statement ws s rest) :
    nextKind ws ∈ .letWord :: .returnWord :: starting := by
  cases h with
  | letDecl hl _ _ _ _ => simp [hl]
  | ret hr _ _ => simp [hr]
  | expr he _ => exact List.mem_cons_of_mem _ (List.mem_cons_of_mem _ he.starts)

/-- No statement starts with a kind that ends statements, blocks or the source. -/
theorem Statement.nextKind_ne {ws rest : List Word} {s : Stmt Unit} (h : Statement ws s rest)
    {kind : TokenKind} (hkind : kind ∈ [TokenKind.semicolon, .rightBrace, .eof]) :
    nextKind ws ≠ kind := by
  intro heq
  have hstart := h.starts
  rw [heq] at hstart
  simp only [List.mem_cons, List.not_mem_nil, or_false] at hkind
  rcases hkind with rfl | rfl | rfl <;> exact absurd hstart (by decide)

/-- Behind the last statement of a sequence, or before its first, no semicolon is left. -/
theorem Statements.nextKind_ne_semicolon {ws rest : List Word} {ss : List (Stmt Unit)}
    (h : Statements ws ss rest) (hrest : nextKind rest ≠ .semicolon) :
    nextKind ws ≠ .semicolon := by
  cases h with
  | nil => exact hrest
  | cons hs _ => exact hs.nextKind_ne (by decide)

/-! ## What stands behind a phrase is a suffix -/

theorem Skipped.suffix {ws rest : List Word} (h : Skipped ws rest) : rest <:+ ws := by
  obtain ⟨junk, -, ⟨w, -, rfl⟩ | ⟨-, rfl⟩⟩ := h
  · exact ⟨junk ++ [w], by simp⟩
  · exact List.nil_suffix

theorem Semicolons.suffix {ws rest : List Word} (h : Semicolons ws rest) : rest <:+ ws := by
  obtain ⟨run, -, rfl⟩ := h
  exact List.suffix_append run rest

/-- What stands behind a word stands behind it in longer runs of words too. -/
theorem suffix_of_cons {w : Word} {ws rest : List Word} (h : w :: ws <:+ rest) : ws <:+ rest :=
  (List.suffix_cons w ws).trans h

theorem suffix_cons_of {w : Word} {ws rest : List Word} (h : rest <:+ ws) : rest <:+ w :: ws :=
  h.trans (List.suffix_cons w ws)

/-- By induction on the parameters, each of which takes two words. -/
theorem MoreParameters.suffix {ws rest : List Word} {xs : List String}
    (h : MoreParameters ws xs rest) : rest <:+ ws := by
  induction h with
  | close _ => exact List.suffix_cons _ _
  | comma _ _ _ ih => exact suffix_cons_of (suffix_cons_of ih)

theorem Parameters.suffix {ws rest : List Word} {xs : List String} (h : Parameters ws xs rest) :
    rest <:+ ws := by
  cases h with
  | none _ => exact List.suffix_cons _ _
  | some _ hxs => exact suffix_cons_of hxs.suffix

mutual

/-- Behind a phrase stands what is behind its last part, by induction on the derivation. -/
theorem Tier.suffix : ∀ {k : Precedence} {ws rest : List Word} {e : Expr Unit},
    Tier k ws e rest → rest <:+ ws
  | _, _, _, _, .tighter _ h => h.suffix
  | _, _, _, _, .binary _ _ hl hr => hr.suffix.trans (suffix_of_cons hl.suffix)
  | _, _, _, _, .unary _ h => suffix_cons_of h.suffix
  | _, _, _, _, .call hf _ hargs _ => hargs.suffix.trans (suffix_of_cons hf.suffix)
  | _, _, _, _, .primary h => h.suffix

theorem Primary.suffix : ∀ {ws rest : List Word} {e : Expr Unit},
    Primary ws e rest → rest <:+ ws
  | _, _, _, .name _ => List.suffix_cons _ _
  | _, _, _, .int _ _ => List.suffix_cons _ _
  | _, _, _, .true _ => List.suffix_cons _ _
  | _, _, _, .false _ => List.suffix_cons _ _
  | _, _, _, .group _ he _ => suffix_cons_of (suffix_of_cons he.suffix)
  | _, _, _, .ifThen _ _ he _ ht _ =>
    suffix_cons_of (suffix_cons_of (ht.suffix.trans (suffix_of_cons he.suffix)))
  | _, _, _, .ifElse _ _ he _ ht _ hu =>
    suffix_cons_of (suffix_cons_of
      (hu.suffix.trans ((suffix_of_cons ht.suffix).trans (suffix_of_cons he.suffix))))
  | _, _, _, .func _ _ hxs hbody =>
    suffix_cons_of (suffix_cons_of (hbody.suffix.trans hxs.suffix))

/-- An expression takes words from the front only. -/
theorem Expression.suffix : ∀ {ws rest : List Word} {e : Expr Unit},
    Expression ws e rest → rest <:+ ws
  | _, _, _, .complete h _ => h.suffix

theorem Arguments.suffix : ∀ {ws rest : List Word} {es : List (Expr Unit)},
    Arguments ws es rest → rest <:+ ws
  | _, _, _, .none _ => List.suffix_cons _ _
  | _, _, _, .some he hes => hes.suffix.trans he.suffix

theorem MoreArguments.suffix : ∀ {ws rest : List Word} {es : List (Expr Unit)},
    MoreArguments ws es rest → rest <:+ ws
  | _, _, _, .close _ => List.suffix_cons _ _
  | _, _, _, .comma _ he hes => suffix_cons_of (hes.suffix.trans he.suffix)

theorem Braces.suffix : ∀ {ws rest : List Word} {ss : List (Stmt Unit)},
    Braces ws ss rest → rest <:+ ws
  | _, _, _, .block _ hss _ => suffix_cons_of (suffix_of_cons hss.suffix)

theorem Statement.suffix : ∀ {ws rest : List Word} {s : Stmt Unit},
    Statement ws s rest → rest <:+ ws
  | _, _, _, .letDecl _ _ _ he hskip =>
    suffix_cons_of (suffix_cons_of (suffix_cons_of (hskip.suffix.trans he.suffix)))
  | _, _, _, .ret _ he hskip => suffix_cons_of (hskip.suffix.trans he.suffix)
  | _, _, _, .expr he hskip => hskip.suffix.trans he.suffix

/-- Statements take words from the front only. -/
theorem Statements.suffix : ∀ {ws rest : List Word} {ss : List (Stmt Unit)},
    Statements ws ss rest → rest <:+ ws
  | _, _, _, .nil => List.suffix_refl _
  | _, _, _, .cons hs hss => hss.suffix.trans hs.suffix

end

end LetLang.Grammar
