import LetLang.Proofs.Parse.Completeness
import LetLang.Proofs.Print.Words
import LetLang.Proofs.Syntax.Translation

/-!
# Phrases that a printer writes

How the grammar derives a tree from words that are put together as a printer puts them: every
operation stands in parentheses of its own, and every condition behind an `if` in parentheses. A
`Phrase` can stand wherever no call of it and no alternative follows, and the lemmas below build
phrases of phrases, one for each kind of tree. They say nothing of the way in which the parts were
written.
-/

set_option autoImplicit false

namespace LetLang

open Grammar

theorem UnaryOp.mem_prefixOps (op : UnaryOp) : (op.word.kind, op) ∈ prefixOps := by
  cases op <;> decide

/-- The word of an operator is in the table of its level. -/
theorem BinaryOp.mem_binaryOps (op : BinaryOp) :
    (op.word.kind, op) ∈ binaryOps op.precedence := by
  cases op <;> decide

/-- The numeral of an integer without a sign writes that integer. -/
theorem Numeral.decimal_text {v : Int64} (h : 0 ≤ v.toInt) :
    decimal (Numeral.text v) = v.toInt.toNat := by
  rw [decimal, Numeral.toList_text h, Nat.ofDigitChars_toDigits (by decide) (by decide)]

namespace Grammar

variable {ws rest : List Word} {o : Word}

/-- A semicolon behind the value ends a `let` or a `return`. -/
theorem skipped_semicolon (h : o.kind = .semicolon) : Skipped (o :: rest) rest :=
  ⟨[], by simp, .inl ⟨o, h, rfl⟩⟩

theorem semicolons_semicolon (h : o.kind = .semicolon) : Semicolons (o :: rest) rest :=
  ⟨[o], by simp [h], rfl⟩

/-- A block holds the statements that are derived between its braces. -/
theorem Braces.of_statements {ws rest : List Word} {ss : List (Stmt Unit)}
    (h : Statements (ws ++ ⟨.rightBrace, "\x7d"⟩ :: rest) ss (⟨.rightBrace, "\x7d"⟩ :: rest)) :
    Braces (bracedWords ws ++ rest) ss rest := by
  have hwords : bracedWords ws ++ rest =
      ⟨.leftBrace, "\x7b"⟩ :: (ws ++ ⟨.rightBrace, "\x7d"⟩ :: rest) := by simp [bracedWords]
  rw [hwords]
  exact .block rfl h rfl

/-- Listed names are parameters. -/
theorem Parameters.of_names (xs : List String) (rest : List Word) :
    Parameters (listedWords (xs.map fun x => [⟨.identifier, x⟩]) ++ rest) xs rest := by
  have hmore : ∀ xs : List String,
      MoreParameters (moreListedWords (xs.map fun x => [⟨.identifier, x⟩]) ++ rest) xs rest := by
    intro xs
    induction xs with
    | nil => exact .close rfl
    | cons x xs ih => exact @MoreParameters.comma _ ⟨.identifier, x⟩ _ _ _ rfl rfl ih
  cases xs with
  | nil => exact .none rfl
  | cons x xs => exact @Parameters.some ⟨.identifier, x⟩ _ _ _ rfl (hmore xs)

end Grammar

/-! ## What stands behind an expression -/

/-- The kinds of words that end an expression of a list, of parentheses or of a statement. -/
def closing : List TokenKind := [.rightParen, .comma, .semicolon]

/-- What may stand behind the words of an expression: no call of it, and no alternative. -/
structure Follows (rest : List Word) : Prop where
  leftParen : nextKind rest ≠ .leftParen
  elseWord : nextKind rest ≠ .elseWord

section Follows

variable {w : Word} {ws rest : List Word} {e : Expr Unit}

theorem closing_cons (h : w.kind ∈ closing) : nextKind (w :: rest) ∈ closing := h

/-- Behind an argument stands a comma or the closing parenthesis. -/
theorem closing_moreListedWords {wss : List (List Word)} :
    nextKind (moreListedWords wss ++ rest) ∈ closing := by
  cases wss with
  | nil => exact closing_cons (by decide)
  | cons ws wss => exact closing_cons (by decide)

/-- A word that ends an expression neither calls it nor starts an alternative. -/
theorem follows_of_closing (h : nextKind rest ∈ closing) : Follows rest := by
  have hkinds : ∀ kind ∈ closing, kind ≠ .leftParen ∧ kind ≠ .elseWord := by decide
  obtain ⟨hparen, helse⟩ := hkinds _ h
  exact ⟨hparen, helse⟩

theorem follows_bracedWords : Follows (bracedWords ws ++ rest) :=
  ⟨TokenKind.noConfusion, TokenKind.noConfusion⟩

theorem follows_word (op : BinaryOp) : Follows (op.word :: rest) := by
  cases op <;> exact ⟨TokenKind.noConfusion, TokenKind.noConfusion⟩

/-- A phrase of the weakest operators or of a tighter level is complete before a closing word. -/
theorem Grammar.Expression.of_tier {k : Precedence} (h : Tier k ws e rest)
    (hk : Precedence.equality.rank ≤ k.rank) (hrest : nextKind rest ∈ closing) :
    Expression ws e rest := by
  have hkinds : ∀ kind ∈ closing, kind ∉ continuing := by decide
  exact .complete (h.loosen hk) (hkinds _ hrest)

end Follows

/-! ## Phrases -/

/-- Words that are derived as the expression where no call of it and no alternative follows. It
binds its parts as tightly as a prefix operator does, or more. -/
def Phrase (ws : List Word) (e : Expr Unit) : Prop :=
  ∀ rest, Follows rest → Tier .unary (ws ++ rest) e rest

/-- Words that are derived as the callable expression, whatever follows. -/
def Callee (ws : List Word) (f : Callable Unit) : Prop :=
  ∀ rest, Primary (ws ++ rest) (.callable f) rest

/-- Words that are the expression in parentheses, before a block. -/
def Tested (ws : List Word) (e : Expr Unit) : Prop :=
  ∀ rest, Follows rest → ∃ inner c, ws ++ rest = ⟨.leftParen, "("⟩ :: inner ∧
    Expression inner e (c :: rest) ∧ c.kind = .rightParen

/-- Words that are derived as the statement, whatever follows. -/
def Line (ws : List Word) (s : Stmt Unit) : Prop := ∀ rest, Statement (ws ++ rest) s rest

/-- Words that are derived as the statements, whatever follows. -/
def Lines (ws : List Word) (ss : List (Stmt Unit)) : Prop :=
  ∀ rest, Statements (ws ++ rest) ss rest

/-- Words in parentheses. -/
def parenthesizedWords (ws : List Word) : List Word :=
  ⟨.leftParen, "("⟩ :: (ws ++ [⟨.rightParen, ")"⟩])

section Phrases

variable {ws ws' tw uw : List Word} {wss : List (List Word)} {e l r : Expr Unit}
  {f : Callable Unit} {args : List (Expr Unit)} {s : Stmt Unit} {t u : List (Stmt Unit)}

/-- Before a word that ends it, an expression is derived as a whole. -/
theorem Phrase.before (h : Phrase ws e) {rest : List Word} (hrest : nextKind rest ∈ closing) :
    Expression (ws ++ rest) e rest :=
  .of_tier (h rest (follows_of_closing hrest)) (by decide) hrest

/-- A primary can stand wherever it is not called. -/
theorem phrase_of_primary (h : ∀ rest, Follows rest → Primary (ws ++ rest) e rest) : Phrase ws e :=
  fun rest hrest => .tighter (by decide) (.primary (h rest hrest))

theorem Callee.phrase (h : Callee ws f) : Phrase ws (.callable f) :=
  phrase_of_primary fun rest _ => h rest

theorem callee_name (x : String) : Callee [⟨.identifier, x⟩] (.name x) :=
  fun rest => @Primary.name ⟨.identifier, x⟩ rest rfl

/-- A function literal can be called, whatever follows. -/
theorem callee_func {xs : List String} (h : Lines ws t) :
    Callee (⟨.functionWord, "fn"⟩ :: ⟨.leftParen, "("⟩ ::
      (listedWords (xs.map fun x => [⟨.identifier, x⟩]) ++ bracedWords ws)) (.func () xs t) := by
  intro rest
  rw [List.cons_append, List.cons_append, List.append_assoc]
  exact .func rfl rfl (.of_names xs _) (.of_statements (h _))

theorem phrase_bool (b : Bool) :
    Phrase [if b then ⟨.trueWord, "true"⟩ else ⟨.falseWord, "false"⟩] (.bool b) := by
  refine phrase_of_primary fun rest _ => ?_
  cases b with
  | true => exact .true rfl
  | false => exact .false rfl

/-- The numeral is read back as the integer, and no integer is beyond the bound of numerals. -/
theorem phrase_int {v : Int64} (h : 0 ≤ v.toInt) :
    Phrase [⟨.integer, Numeral.text v⟩] (.int v) := by
  refine phrase_of_primary fun rest _ => ?_
  have hvalue : ((decimal (Numeral.text v) : Nat) : Int) = v.toInt := by
    rw [Numeral.decimal_text h, Int.toNat_of_nonneg h]
  have hint : Int64.ofNat (decimal (Numeral.text v)) = v := by
    rw [← Int64.ofInt_eq_ofNat, hvalue, Int64.ofInt_toInt]
  have hle : ((decimal (Numeral.text v) : Nat) : Int) ≤ Int64.maxValue.toInt := by
    rw [hvalue]
    exact v.toInt_le
  have hnumeral := @Primary.int ⟨.integer, Numeral.text v⟩ rest rfl hle
  rw [hint] at hnumeral
  exact hnumeral

/-- An operator before an operand. -/
theorem Phrase.prefixed (op : UnaryOp) (h : Phrase ws e) : Phrase (op.word :: ws) (.unary op e) :=
  fun rest hrest => .unary op.mem_prefixOps (h rest hrest)

/-- An integer with a sign is read as an operation on the one without. -/
theorem phrase_numeral {v : Int64} (h : v ≠ Int64.minValue) :
    Phrase (Numeral.words v) (signless.literal v) := by
  by_cases hneg : v.toInt < 0
  · rw [Numeral.words, if_pos hneg, signless_of_neg hneg]
    exact (phrase_int (Numeral.neg_nonneg hneg h)).prefixed .negate
  · rw [Numeral.words, if_neg hneg, signless_of_nonneg (Int.not_lt.1 hneg)]
    exact phrase_int (Int.not_lt.1 hneg)

/-- Inside its parentheses an operation is a whole expression. -/
theorem phrase_of_operation {k : Precedence} (hk : Precedence.equality.rank ≤ k.rank)
    (h : ∀ rest, nextKind rest ∈ closing → Tier k (ws ++ rest) e rest) :
    Phrase (parenthesizedWords ws) e := by
  refine phrase_of_primary fun rest _ => ?_
  have hclose : nextKind (⟨.rightParen, ")"⟩ :: rest) ∈ closing := closing_cons (by decide)
  have hwords : parenthesizedWords ws ++ rest =
      ⟨.leftParen, "("⟩ :: (ws ++ ⟨.rightParen, ")"⟩ :: rest) := by simp [parenthesizedWords]
  rw [hwords]
  exact .group rfl (.of_tier (h _ hclose) hk hclose) rfl

/-- An operation on a phrase, in parentheses. -/
theorem Phrase.unary (op : UnaryOp) (h : Phrase ws e) :
    Phrase (parenthesizedWords (op.word :: ws)) (.unary op e) := by
  exact @phrase_of_operation _ _ .unary (by decide) fun rest hrest =>
    h.prefixed op rest (follows_of_closing hrest)

/-- An operation between two phrases, in parentheses. -/
theorem Phrase.binary (op : BinaryOp) (hl : Phrase ws l) (hr : Phrase ws' r) :
    Phrase (⟨.leftParen, "("⟩ :: (ws ++ op.word :: (ws' ++ [⟨.rightParen, ")"⟩])))
      (.binary op l r) := by
  have hwords : ⟨.leftParen, "("⟩ :: (ws ++ op.word :: (ws' ++ [⟨.rightParen, ")"⟩])) =
      parenthesizedWords (ws ++ op.word :: ws') := by simp [parenthesizedWords]
  rw [hwords]
  refine @phrase_of_operation _ _ op.precedence (by cases op <;> decide) fun rest hrest => ?_
  have hle : op.precedence.rank ≤ Precedence.unary.rank := by cases op <;> decide
  rw [List.append_assoc, List.cons_append]
  -- Both operands bind more tightly than every operator between two operands.
  exact .binary op.mem_binaryOps (by cases op <;> decide)
    ((hl _ (follows_word op)).loosen hle) (hr rest (follows_of_closing hrest))

/-- An expression in parentheses can be tested. -/
theorem Phrase.tested (h : Phrase ws e) : Tested (parenthesizedWords ws) e := by
  intro rest _
  refine ⟨ws ++ ⟨.rightParen, ")"⟩ :: rest, ⟨.rightParen, ")"⟩, ?_, ?_, rfl⟩
  · simp [parenthesizedWords]
  · exact h.before (closing_cons (by decide))

/-- A conditional is complete unless an `else` follows. -/
theorem Tested.ifThen (hc : Tested ws e) (ht : Lines tw t) :
    Phrase (⟨.ifWord, "if"⟩ :: (ws ++ bracedWords tw)) (.ifThen e t) := by
  refine phrase_of_primary fun rest hrest => ?_
  obtain ⟨inner, c, hwords, he, hclose⟩ := hc (bracedWords tw ++ rest) follows_bracedWords
  rw [List.cons_append, List.append_assoc, hwords]
  exact .ifThen rfl rfl he hclose (.of_statements (ht _)) hrest.elseWord

theorem Tested.ifElse (hc : Tested ws e) (ht : Lines tw t) (hu : Lines uw u) :
    Phrase (⟨.ifWord, "if"⟩ :: (ws ++ (bracedWords tw ++ ⟨.elseWord, "else"⟩ :: bracedWords uw)))
      (.ifElse e t u) := by
  refine phrase_of_primary fun rest _ => ?_
  obtain ⟨inner, c, hwords, he, hclose⟩ :=
    hc (bracedWords tw ++ ⟨.elseWord, "else"⟩ :: (bracedWords uw ++ rest)) follows_bracedWords
  have hall : ⟨.ifWord, "if"⟩ :: (ws ++ (bracedWords tw ++ ⟨.elseWord, "else"⟩ ::
      bracedWords uw)) ++ rest = ⟨.ifWord, "if"⟩ :: (ws ++ (bracedWords tw ++
        ⟨.elseWord, "else"⟩ :: (bracedWords uw ++ rest))) := by simp
  rw [hall, hwords]
  exact .ifElse rfl rfl he hclose (.of_statements (ht _)) rfl (.of_statements (hu _))

/-- Listed phrases are arguments. -/
theorem arguments_of_phrases (h : List.Forall₂ Phrase wss args) (rest : List Word) :
    Arguments (listedWords wss ++ rest) args rest := by
  have hmore : ∀ {wss : List (List Word)} {args : List (Expr Unit)}, List.Forall₂ Phrase wss args →
      MoreArguments (moreListedWords wss ++ rest) args rest := by
    intro wss args hargs
    induction hargs with
    | nil => exact .close rfl
    | cons he _ ih =>
      rw [moreListedWords, List.cons_append, List.append_assoc]
      exact .comma rfl (he.before closing_moreListedWords) ih
  cases h with
  | nil => exact .none rfl
  | cons he hes =>
    rw [listedWords, List.append_assoc]
    exact .some (he.before closing_moreListedWords) (hmore hes)

theorem Callee.call (hf : Callee ws f) (hargs : List.Forall₂ Phrase wss args) :
    Phrase (ws ++ ⟨.leftParen, "("⟩ :: listedWords wss) (.call f args) := by
  intro rest hrest
  rw [List.append_assoc, List.cons_append]
  exact .tighter (by decide)
    (.call (hf _) rfl (arguments_of_phrases hargs rest) hrest.leftParen)

/-- A semicolon ends the expression that a `let` binds. -/
theorem Phrase.letDecl (x : String) (h : Phrase ws e) :
    Line (⟨.letWord, "let"⟩ :: ⟨.identifier, x⟩ :: ⟨.assign, "="⟩ :: (ws ++ [⟨.semicolon, ";"⟩]))
      (.letDecl x e) := by
  intro rest
  simp only [List.cons_append, List.append_assoc, List.nil_append]
  exact @Statement.letDecl _ ⟨.identifier, x⟩ _ _ _ _ _ rfl rfl rfl
    (h.before (closing_cons (by decide))) (skipped_semicolon rfl)

theorem Phrase.ret (h : Phrase ws e) :
    Line (⟨.returnWord, "return"⟩ :: (ws ++ [⟨.semicolon, ";"⟩])) (.ret e) := by
  intro rest
  simp only [List.cons_append, List.append_assoc, List.nil_append]
  exact .ret rfl (h.before (closing_cons (by decide))) (skipped_semicolon rfl)

theorem Phrase.expr (h : Phrase ws e) : Line (ws ++ [⟨.semicolon, ";"⟩]) (.expr e) := by
  intro rest
  simp only [List.cons_append, List.append_assoc, List.nil_append]
  exact .expr (h.before (closing_cons (by decide))) (semicolons_semicolon rfl)

theorem lines_nil : Lines [] [] := fun _ => .nil

/-- A line before lines is a line more. -/
theorem Line.cons (hs : Line ws s) (ht : Lines tw t) : Lines (ws ++ tw) (s :: t) := by
  intro rest
  rw [List.append_assoc]
  exact .cons (hs _) (ht rest)

end Phrases

end LetLang
