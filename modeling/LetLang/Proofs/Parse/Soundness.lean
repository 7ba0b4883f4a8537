import LetLang.Proofs.Parse.Levels
import LetLang.Proofs.Parse.Steps

/-!
# What the parser reads, the grammar derives

Every run of a parser that records no error is a derivation of the grammar from the words that were
left before it to those left behind it. The parser of expressions climbs: it holds the tree of a
phrase it has already read and extends it. `Begun` is the invariant of that loop, and `Sound`
bundles what a run of each parser gives; the main statement is `program_derives`.
-/

set_option autoImplicit false

namespace LetLang

open Grammar

theorem Cursor.words_of_kind {c : Cursor} {kind : TokenKind} (h : c.peek.kind = kind)
    (hkind : kind ≠ .eof) : c.words = c.peek.word :: c.advance.words :=
  words_eq_cons (by rw [h]; exact hkind)

namespace Parser

/-! ## Parameters -/

theorem moreParameters_derives :
    ∀ (depth : Nat) {c c' : Cursor} {xs : List String}, (moreParameters depth).Clean c xs c' →
      MoreParameters c.words xs c'.words
  | 0, _, _, _, h => absurd h not_clean_exhausted
  | depth + 1, c, c', xs, h => by
    rw [moreParameters] at h
    rw [clean_peek_bind] at h
    split at h
    · next hcomma =>
      simp only [clean_next_bind, clean_expect_bind, clean_bind (p := moreParameters depth),
        clean_pure] at h
      obtain ⟨hx, ys, m, hys, rfl, rfl⟩ := h
      rw [Cursor.words_of_kind hcomma (by decide), Cursor.words_of_kind hx (by decide)]
      exact .comma hcomma hx (moreParameters_derives depth hys)
    · simp only [clean_expect_bind, clean_pure] at h
      obtain ⟨hclose, rfl, rfl⟩ := h
      rw [Cursor.words_of_kind hclose (by decide)]
      exact .close hclose

theorem parameters_derives {depth : Nat} {c c' : Cursor} {xs : List String}
    (h : (parameters depth).Clean c xs c') : Parameters c.words xs c'.words := by
  rw [parameters] at h
  rw [clean_peek_bind] at h
  split at h
  · next hclose =>
    simp only [clean_next_bind, clean_pure] at h
    obtain ⟨rfl, rfl⟩ := h
    rw [Cursor.words_of_kind hclose (by decide)]
    exact .none hclose
  · simp only [clean_expect_bind, clean_bind (p := moreParameters depth), clean_pure] at h
    obtain ⟨hx, ys, m, hys, rfl, rfl⟩ := h
    rw [Cursor.words_of_kind hx (by decide)]
    exact .some hx (moreParameters_derives depth hys)

/-! ## The invariant of climbing -/

/-- The parser has read the words from `ws` to `rest` as `left` and may extend it at `level`: it is
a primary, which a call can extend, or it is of a level that the next operator does not exceed. -/
def Begun (level : Precedence) (ws : List Word) (left : Expr Unit) (rest : List Word) : Prop :=
  Primary ws left rest ∨
    ∃ k : Precedence, level.floor.rank ≤ k.rank ∧ Tier k ws left rest ∧
      (nextKind rest).precedence.rank ≤ k.rank ∧ nextKind rest ≠ .leftParen

namespace Begun

variable {level : Precedence} {ws rest : List Word} {left : Expr Unit}

/-- What has been read is a phrase of the level. -/
theorem tier (hlevel : level ≠ .call) (h : Begun level ws left rest) :
    Tier level.floor ws left rest := by
  rcases h with h | ⟨k, hfloor, h, -, -⟩
  · have hle := Precedence.rank_floor_le_unary hlevel
    exact Tier.loosen (Nat.le_trans hle (by decide)) (.primary h)
  · exact h.loosen hfloor

/-- What has been read can be the left operand of the operator behind it. -/
theorem operand {op : BinaryOp} (h : Begun level ws left rest)
    (hop : (nextKind rest).binaryOp? = some op) : Tier op.precedence ws left rest := by
  have hlt := rank_precedence_lt_unary op
  rw [Precedence.lt_iff] at hlt
  rcases h with h | ⟨k, -, h, hle, -⟩
  · exact Tier.loosen (Nat.le_of_lt (Nat.lt_trans hlt (by decide))) (.primary h)
  · rw [precedence_of_binaryOp? hop] at hle
    exact h.loosen hle

/-- Only a primary has a parenthesis behind it. -/
theorem primary (h : Begun level ws left rest) (hopen : nextKind rest = .leftParen) :
    Primary ws left rest := by
  rcases h with h | ⟨_, -, -, -, hne⟩
  · exact h
  · exact absurd hopen hne

end Begun

/-- A parenthesis behind an expression that cannot be called is an error. -/
theorem not_clean_climb_of_not_callable {depth : Nat} {level : Precedence} {left e : Expr Unit}
    {c c' : Cursor} (hlevel : level ≠ .call) (hleft : ∀ f, left ≠ .callable f)
    (hopen : c.peek.kind = .leftParen) : ¬ (climb depth level left).Clean c e c' := by
  intro h
  cases depth with
  | zero => exact not_clean_exhausted h
  | succ depth =>
    have hlt : level < c.peek.kind.precedence := by
      rw [hopen]
      cases level <;> first | exact absurd rfl hlevel | decide
    rw [climb] at h
    rw [clean_peek_bind, if_pos hlt, clean_next_bind] at h
    simp only [hopen, TokenKind.binaryOp?] at h
    obtain ⟨args, m, -, h⟩ := clean_bind.1 h
    exact not_clean_fail h

/-! ## One lemma for each parser -/

/-- What the runs of the parsers at a depth give that record no error. -/
structure Sound (depth : Nat) : Prop where
  expression : ∀ {level : Precedence} {c c' : Cursor} {e : Expr Unit}, level ≠ .call →
    (expression depth level).Clean c e c' →
      Tier level.floor c.words e c'.words ∧ ¬ level < (nextKind c'.words).precedence
  operand : ∀ {c c' : Cursor} {e : Expr Unit}, (operand depth).Clean c e c' →
    Primary c.words e c'.words ∨
      Tier .unary c.words e c'.words ∧ ¬ .unary < (nextKind c'.words).precedence
  conditional : ∀ {c c' : Cursor} {e : Expr Unit} {i : Word}, i.kind = .ifWord →
    (conditional depth).Clean c e c' → Primary (i :: c.words) e c'.words
  functionLiteral : ∀ {c c' : Cursor} {e : Expr Unit} {f : Word}, f.kind = .functionWord →
    (functionLiteral depth).Clean c e c' → Primary (f :: c.words) e c'.words
  climb : ∀ {level : Precedence} {left e : Expr Unit} {c c' : Cursor} {ws : List Word},
    level ≠ .call → Begun level ws left c.words → (climb depth level left).Clean c e c' →
      Tier level.floor ws e c'.words ∧ ¬ level < (nextKind c'.words).precedence
  arguments : ∀ {c c' : Cursor} {es : List (Expr Unit)}, (arguments depth).Clean c es c' →
    Arguments c.words es c'.words
  moreArguments : ∀ {c c' : Cursor} {es : List (Expr Unit)},
    (moreArguments depth).Clean c es c' → MoreArguments c.words es c'.words
  block : ∀ {c c' : Cursor} {ss : List (Stmt Unit)}, (block depth).Clean c ss c' →
    ∃ b : Word, b.kind = .rightBrace ∧ Statements c.words ss (b :: c'.words)
  statement : ∀ {c c' : Cursor} {s : Stmt Unit}, (statement depth).Clean c s c' →
    Statement c.words s c'.words

namespace Sound

variable {depth : Nat} (ih : Sound depth) {c c' : Cursor}

include ih

/-- An expression parsed at the lowest level is complete. -/
theorem complete {e : Expr Unit} (h : (Parser.expression depth .lowest).Clean c e c') :
    Expression c.words e c'.words := by
  obtain ⟨he, hnext⟩ := ih.expression (by decide) h
  exact .complete he (mt mem_continuing_iff.1 hnext)

/-- A block behind its opening brace. -/
theorem braces {ss : List (Stmt Unit)} (hopen : c.peek.kind = .leftBrace)
    (h : (Parser.block depth).Clean c.advance ss c') : Braces c.words ss c'.words := by
  obtain ⟨b, hb, hss⟩ := ih.block h
  rw [Cursor.words_of_kind hopen (by decide)]
  exact .block hopen hss hb

theorem expression_succ {level : Precedence} {e : Expr Unit} (hlevel : level ≠ .call)
    (h : (Parser.expression (depth + 1) level).Clean c e c') :
    Tier level.floor c.words e c'.words ∧ ¬ level < (nextKind c'.words).precedence := by
  rw [Parser.expression] at h
  obtain ⟨left, m, hleft, hclimb⟩ := clean_bind.1 h
  refine ih.climb hlevel ?_ hclimb
  rcases ih.operand hleft with hprimary | ⟨hunary, hnext⟩
  · exact .inl hprimary
  · exact .inr ⟨.unary, Precedence.rank_floor_le_unary hlevel, hunary,
      Precedence.not_lt_iff.1 hnext, ne_leftParen_of_not_lt (by decide) hnext⟩

theorem operand_succ {e : Expr Unit} (h : (Parser.operand (depth + 1)).Clean c e c') :
    Primary c.words e c'.words ∨
      Tier .unary c.words e c'.words ∧ ¬ .unary < (nextKind c'.words).precedence := by
  rw [Parser.operand] at h
  rw [clean_next_bind] at h
  -- The kind of the first word decides which operand it is.
  split at h
  · next hkind =>
    obtain ⟨rfl, rfl⟩ := clean_pure.1 h
    rw [Cursor.words_of_kind hkind (by decide)]
    exact .inl (.name hkind)
  · next hkind =>
    -- A run of digits that is out of range stops the parser.
    split at h
    · next v hv =>
      obtain ⟨rfl, rfl⟩ := clean_pure.1 h
      obtain ⟨hle, rfl⟩ := ofDigits?_eq_some_iff.1 hv
      rw [Cursor.words_of_kind hkind (by decide)]
      exact .inl (.int hkind hle)
    · exact absurd h not_clean_fail
  · next hkind =>
    obtain ⟨rfl, rfl⟩ := clean_pure.1 h
    rw [Cursor.words_of_kind hkind (by decide)]
    exact .inl (.true hkind)
  · next hkind =>
    obtain ⟨rfl, rfl⟩ := clean_pure.1 h
    rw [Cursor.words_of_kind hkind (by decide)]
    exact .inl (.false hkind)
  · next hkind =>
    -- An expression in parentheses is complete before the closing one.
    obtain ⟨e', m, he, h⟩ := clean_bind.1 h
    simp only [clean_expect_bind, clean_pure] at h
    obtain ⟨hclose, rfl, rfl⟩ := h
    have he := ih.complete he
    rw [Cursor.words_of_kind hclose (by decide)] at he
    rw [Cursor.words_of_kind hkind (by decide)]
    exact .inl (.group hkind he hclose)
  · next hkind =>
    rw [Cursor.words_of_kind hkind (by decide)]
    exact .inl (ih.conditional hkind h)
  · next hkind =>
    rw [Cursor.words_of_kind hkind (by decide)]
    exact .inl (ih.functionLiteral hkind h)
  · split at h
    · next op hop =>
      -- A prefix operator is not of the end of the source, so its word is there.
      obtain ⟨e', m, he, h⟩ := clean_bind.1 h
      obtain ⟨rfl, rfl⟩ := clean_pure.1 h
      obtain ⟨he, hnext⟩ := ih.expression (by decide) he
      have hkind : c.peek.kind ≠ .eof := by
        intro heof
        rw [heof] at hop
        cases hop
      rw [Cursor.words_eq_cons hkind]
      exact .inr ⟨.unary (mem_prefixOps_iff.2 hop) he, hnext⟩
    · exact absurd h not_clean_fail

theorem conditional_succ {e : Expr Unit} {i : Word} (hi : i.kind = .ifWord)
    (h : (Parser.conditional (depth + 1)).Clean c e c') : Primary (i :: c.words) e c'.words := by
  rw [Parser.conditional] at h
  rw [clean_expect_bind] at h
  obtain ⟨hopen, h⟩ := h
  obtain ⟨condition, m, hcondition, h⟩ := clean_bind.1 h
  rw [clean_expect_bind, clean_expect_bind] at h
  obtain ⟨hclose, hbrace, h⟩ := h
  obtain ⟨consequence, n, hconsequence, h⟩ := clean_bind.1 h
  have hcondition := ih.complete hcondition
  have hconsequence := ih.braces hbrace hconsequence
  -- The phrases overlap in their rests: each one starts where the one before it ends.
  rw [Cursor.words_of_kind hclose (by decide)] at hcondition
  rw [Cursor.words_of_kind hopen (by decide)]
  rw [clean_peek_bind] at h
  split at h
  · next helse =>
    rw [clean_next_bind, clean_expect_bind] at h
    obtain ⟨hbrace', h⟩ := h
    obtain ⟨alternative, n', halternative, h⟩ := clean_bind.1 h
    obtain ⟨rfl, rfl⟩ := clean_pure.1 h
    rw [Cursor.words_of_kind helse (by decide)] at hconsequence
    exact .ifElse hi hopen hcondition hclose hconsequence helse
      (ih.braces hbrace' halternative)
  · next helse =>
    obtain ⟨rfl, rfl⟩ := clean_pure.1 h
    rw [Cursor.peek_kind] at helse
    exact .ifThen hi hopen hcondition hclose hconsequence helse

theorem functionLiteral_succ {e : Expr Unit} {f : Word} (hf : f.kind = .functionWord)
    (h : (Parser.functionLiteral (depth + 1)).Clean c e c') :
    Primary (f :: c.words) e c'.words := by
  rw [Parser.functionLiteral] at h
  rw [clean_expect_bind] at h
  obtain ⟨hopen, h⟩ := h
  obtain ⟨xs, m, hxs, h⟩ := clean_bind.1 h
  rw [clean_expect_bind] at h
  obtain ⟨hbrace, h⟩ := h
  obtain ⟨body, n, hbody, h⟩ := clean_bind.1 h
  obtain ⟨rfl, rfl⟩ := clean_pure.1 h
  rw [Cursor.words_of_kind hopen (by decide)]
  exact .func hf hopen (parameters_derives hxs) (ih.braces hbrace hbody)

theorem climb_succ {level : Precedence} {left e : Expr Unit} {ws : List Word}
    (hlevel : level ≠ .call) (hleft : Begun level ws left c.words)
    (h : (Parser.climb (depth + 1) level left).Clean c e c') :
    Tier level.floor ws e c'.words ∧ ¬ level < (nextKind c'.words).precedence := by
  rw [Parser.climb] at h
  rw [clean_peek_bind] at h
  split at h
  · next hlt =>
    have hkind : c.peek.kind ≠ .eof := by
      intro heof
      rw [heof] at hlt
      exact absurd hlt (Nat.not_lt_zero _)
    have hwords := Cursor.words_eq_cons hkind
    rw [clean_next_bind] at h
    split at h
    · next op hop =>
      -- An operator: what was read becomes its left operand, and the result is of its level.
      obtain ⟨right, m, hright, h⟩ := clean_bind.1 h
      have hopUnary := rank_precedence_lt_unary op
      have hopLevel : op.precedence ≠ .call := by
        intro hcall
        rw [hcall] at hopUnary
        exact absurd hopUnary (by decide)
      obtain ⟨hright, hnext⟩ := ih.expression hopLevel hright
      have hoperand : Tier op.precedence ws left (c.peek.word :: c.advance.words) := by
        rw [← hwords]
        exact hleft.operand (by rw [← Cursor.peek_kind]; exact hop)
      have hmem : (c.peek.word.kind, op) ∈ binaryOps op.precedence :=
        mem_binaryOps_iff.2 ⟨hop, rfl⟩
      rw [precedence_of_binaryOp? hop] at hlt
      have hfloor : op.precedence < op.precedence.floor := by
        cases op <;> decide
      refine ih.climb hlevel (.inr ⟨op.precedence, Precedence.rank_floor_le hlt, ?_,
        Precedence.not_lt_iff.1 hnext, ne_leftParen_of_not_lt hopLevel hnext⟩) h
      exact .binary hmem hfloor hoperand hright
    · next hop =>
      -- A parenthesis: what was read is called, and no second call can follow.
      obtain ⟨args, m, hargs, h⟩ := clean_bind.1 h
      have hlowest : Precedence.lowest < c.peek.kind.precedence :=
        Nat.lt_of_le_of_lt (Nat.zero_le _) hlt
      have hopen : c.peek.kind = .leftParen := by
        rcases binaryOp?_or_leftParen hlowest with ⟨op, hsome⟩ | hopen
        · rw [hop] at hsome
          cases hsome
        · exact hopen
      have hprimary := hleft.primary (by rw [← Cursor.peek_kind]; exact hopen)
      rw [hwords] at hprimary
      split at h
      · next f _ =>
        have hsecond : nextKind m.words ≠ .leftParen := by
          intro hagain
          exact not_clean_climb_of_not_callable hlevel (by intro g hg; cases hg)
            (by rw [Cursor.peek_kind]; exact hagain) h
        have hcall : Tier .call ws (.call f args) m.words :=
          .call hprimary hopen (ih.arguments hargs) hsecond
        have hle := Precedence.rank_floor_le_unary hlevel
        refine ih.climb hlevel (.inr ⟨.call, Nat.le_trans hle (by decide), hcall, ?_, hsecond⟩) h
        cases (nextKind m.words).precedence <;> decide
      · exact absurd h not_clean_fail
  · next hlt =>
    -- The next word is held back, so climbing is at its end.
    obtain ⟨rfl, rfl⟩ := clean_pure.1 h
    rw [Cursor.peek_kind] at hlt
    exact ⟨hleft.tier hlevel, hlt⟩

theorem arguments_succ {es : List (Expr Unit)}
    (h : (Parser.arguments (depth + 1)).Clean c es c') : Arguments c.words es c'.words := by
  rw [Parser.arguments] at h
  rw [clean_peek_bind] at h
  split at h
  · next hclose =>
    simp only [clean_next_bind, clean_pure] at h
    obtain ⟨rfl, rfl⟩ := h
    rw [Cursor.words_of_kind hclose (by decide)]
    exact .none hclose
  · obtain ⟨e, m, he, h⟩ := clean_bind.1 h
    obtain ⟨es', n, hes, h⟩ := clean_bind.1 h
    obtain ⟨rfl, rfl⟩ := clean_pure.1 h
    exact .some (ih.complete he) (ih.moreArguments hes)

theorem moreArguments_succ {es : List (Expr Unit)}
    (h : (Parser.moreArguments (depth + 1)).Clean c es c') :
    MoreArguments c.words es c'.words := by
  rw [Parser.moreArguments] at h
  rw [clean_peek_bind] at h
  split at h
  · next hcomma =>
    rw [clean_next_bind] at h
    rcases clean_attempt_bind h with ⟨e, m, he, h⟩ | ⟨err, m, h⟩
    · obtain ⟨es', n, hes, h⟩ := clean_bind.1 h
      obtain ⟨rfl, rfl⟩ := clean_pure.1 h
      rw [Cursor.words_of_kind hcomma (by decide)]
      exact .comma hcomma (ih.complete he) (ih.moreArguments hes)
    · exact absurd h not_clean_record_bind
  · simp only [clean_expect_bind, clean_pure] at h
    obtain ⟨hclose, rfl, rfl⟩ := h
    rw [Cursor.words_of_kind hclose (by decide)]
    exact .close hclose

theorem block_succ {ss : List (Stmt Unit)} (h : (Parser.block (depth + 1)).Clean c ss c') :
    ∃ b : Word, b.kind = .rightBrace ∧ Statements c.words ss (b :: c'.words) := by
  rw [Parser.block] at h
  rw [clean_peek_bind] at h
  split at h
  · next hclose =>
    simp only [clean_next_bind, clean_pure] at h
    obtain ⟨rfl, rfl⟩ := h
    rw [Cursor.words_of_kind hclose (by decide)]
    exact ⟨c.peek.word, hclose, .nil⟩
  · -- The source ends within the block.
    rw [clean_next_bind] at h
    exact absurd h not_clean_fail
  · -- A statement that breaks off is recorded, so the run is not clean.
    rcases clean_attempt_bind h with ⟨s, m, hs, h⟩ | ⟨err, m, h⟩
    · obtain ⟨ss', n, hss, h⟩ := clean_bind.1 h
      obtain ⟨rfl, rfl⟩ := clean_pure.1 h
      obtain ⟨b, hb, hss⟩ := ih.block hss
      exact ⟨b, hb, .cons (ih.statement hs) hss⟩
    · exact absurd h not_clean_record_bind

omit ih in
/-- Skipping past a semicolon is what the grammar skips. -/
theorem skipped (c : Cursor) : Skipped c.words (c.skipPast (· == .semicolon)).words := by
  obtain ⟨junk, hjunk, hends⟩ := c.words_skipPast (· == .semicolon)
  refine ⟨junk, fun w hw => by simpa using hjunk w hw, ?_⟩
  rcases hends with ⟨w, hw, heq⟩ | hends
  · exact .inl ⟨w, by simpa using hw, heq⟩
  · exact .inr hends

omit ih in
/-- The semicolons that are skipped are those of the grammar. -/
theorem semicolons (c : Cursor) : Semicolons c.words (c.skipRun .semicolon).words := by
  refine ⟨c.words.takeWhile (·.kind == .semicolon), ?_, ?_⟩
  · intro w hw
    simpa using List.all_eq_true.1 List.all_takeWhile w hw
  · rw [Cursor.words_skipRun, List.takeWhile_append_dropWhile]

theorem statement_succ {s : Stmt Unit} (h : (Parser.statement (depth + 1)).Clean c s c') :
    Statement c.words s c'.words := by
  rw [Parser.statement] at h
  rw [clean_peek_bind] at h
  split at h
  · next hlet =>
    rw [clean_next_bind, clean_expect_bind, clean_expect_bind] at h
    obtain ⟨hx, hassign, h⟩ := h
    obtain ⟨e, m, he, h⟩ := clean_bind.1 h
    rw [clean_move_bind] at h
    obtain ⟨rfl, rfl⟩ := clean_pure.1 h
    rw [Cursor.words_of_kind hlet (by decide), Cursor.words_of_kind hx (by decide),
      Cursor.words_of_kind hassign (by decide)]
    exact .letDecl hlet hx hassign (ih.complete he) (skipped m)
  · next hret =>
    rw [clean_next_bind] at h
    obtain ⟨e, m, he, h⟩ := clean_bind.1 h
    rw [clean_move_bind] at h
    obtain ⟨rfl, rfl⟩ := clean_pure.1 h
    rw [Cursor.words_of_kind hret (by decide)]
    exact .ret hret (ih.complete he) (skipped m)
  · obtain ⟨e, m, he, h⟩ := clean_bind.1 h
    rw [clean_move_bind] at h
    obtain ⟨rfl, rfl⟩ := clean_pure.1 h
    exact .expr (ih.complete he) (semicolons m)

end Sound

theorem sound_all : ∀ depth : Nat, Sound depth
  | 0 =>
    { expression := fun _ h => absurd h not_clean_exhausted
      operand := fun h => absurd h not_clean_exhausted
      conditional := fun _ h => absurd h not_clean_exhausted
      functionLiteral := fun _ h => absurd h not_clean_exhausted
      climb := fun _ _ h => absurd h not_clean_exhausted
      arguments := fun h => absurd h not_clean_exhausted
      moreArguments := fun h => absurd h not_clean_exhausted
      block := fun h => absurd h not_clean_exhausted
      statement := fun h => absurd h not_clean_exhausted }
  | depth + 1 =>
    have ih := sound_all depth
    { expression := ih.expression_succ
      operand := ih.operand_succ
      conditional := ih.conditional_succ
      functionLiteral := ih.functionLiteral_succ
      climb := ih.climb_succ
      arguments := ih.arguments_succ
      moreArguments := ih.moreArguments_succ
      block := ih.block_succ
      statement := ih.statement_succ }

/-- A program that is read without errors is derived, up to the end of the source. -/
theorem program_derives_to_eof :
    ∀ (depth : Nat) {c c' : Cursor} {p : LetLang.Program Unit},
      (program depth).Clean c p c' → ∃ rest, Statements c.words p rest ∧ nextKind rest = .eof
  | 0, _, _, _, h => absurd h not_clean_exhausted
  | depth + 1, c, c', p, h => by
    rw [program] at h
    rw [clean_peek_bind] at h
    split at h
    · next heof =>
      obtain ⟨rfl, rfl⟩ := clean_pure.1 h
      exact ⟨c.words, .nil, by rw [← Cursor.peek_kind]; exact heof⟩
    · rcases clean_attempt_bind h with ⟨s, m, hs, h⟩ | ⟨err, m, h⟩
      · obtain ⟨ss, n, hss, h⟩ := clean_bind.1 h
        obtain ⟨rfl, rfl⟩ := clean_pure.1 h
        obtain ⟨rest, hrest, heof⟩ := program_derives_to_eof depth hss
        exact ⟨rest, .cons ((sound_all depth).statement hs) hrest, heof⟩
      · exact absurd h not_clean_record_bind

/-- A program that is read without errors is derived from all words. -/
theorem program_derives {depth : Nat} {c c' : Cursor} {p : LetLang.Program Unit}
    (hkinds : ∀ w ∈ c.words, w.kind ≠ .eof) (h : (program depth).Clean c p c') :
    Statements c.words p [] := by
  obtain ⟨rest, hrest, heof⟩ := program_derives_to_eof depth h
  -- What is left is a suffix of the words, and none of them is the end of the source.
  cases rest with
  | nil => exact hrest
  | cons w ws =>
    have hmem : w ∈ c.words := hrest.suffix.subset List.mem_cons_self
    exact absurd heof (hkinds w hmem)

end Parser

end LetLang
