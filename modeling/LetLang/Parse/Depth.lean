import LetLang.Parse.Grammar

/-!
# The depth of parsing

How deep the parsers go is bounded by the number of unread tokens: every loop and every
nesting reads one. `Parser.Ends` states that a parser has an outcome and how much it has read
by then; `Cursor.parse_eq` is the main statement, that the depth granted by `Cursor.parse`
suffices for every source.
-/

namespace LetLang

namespace Cursor

/-- The number of unread tokens. -/
abbrev left (c : Cursor) : Nat := c.unread.length

theorem left_advance (c : Cursor) : c.advance.left = c.left - 1 := by
  simp [left, advance]

/-- A token other than the end of the source is there to be read. -/
theorem left_pos_of_peek {c : Cursor} (h : c.peek.kind ≠ .eof) : 1 ≤ c.left := by
  cases hu : c.unread with
  | nil => simp [peek, hu, Token.eof] at h
  | cons t ts => simp [left, hu]

/-- Skipping never goes back. -/
theorem left_skipPast_le (chosen : TokenKind → Bool) (c : Cursor) :
    (c.skipPast chosen).left ≤ c.left := by
  have hgo : ∀ ts, (skipPast.go chosen c ts).left ≤ ts.length := by
    intro ts
    induction ts with
    | nil => simp [skipPast.go, left]
    | cons t ts ih =>
      unfold skipPast.go
      split
      · simp [left]
      · exact Nat.le_trans ih (by simp)
  exact hgo c.unread

theorem left_skipRun_le (kind : TokenKind) (c : Cursor) : (c.skipRun kind).left ≤ c.left := by
  have hgo : ∀ ts last, (skipRun.go kind c last ts).left ≤ ts.length := by
    intro ts
    induction ts with
    | nil => simp [skipRun.go, left]
    | cons t ts ih =>
      intro last
      unfold skipRun.go
      split
      · exact Nat.le_trans (ih t.kind) (by simp)
      · simp [left]
  exact hgo c.unread c.last

/-- Recovery never goes back, though it need not go on. -/
theorem left_recover_le (c : Cursor) : c.recover.left ≤ c.left := by
  unfold recover
  split
  · exact Nat.le_refl _
  · exact left_skipPast_le _ c

end Cursor

namespace Parser

variable {β γ : Type}

/-- The parser has an outcome at `c`, and has read `k` tokens by then, or all. -/
def Ends (p : Parser β) (c : Cursor) (k : Nat) : Prop :=
  ∃ out, p c = some out ∧ out.cursor.left ≤ c.left - k

namespace Ends

variable {p : Parser β} {f : β → Parser γ} {c : Cursor} {k : Nat}

/-- A bound on what has been read may be loosened. -/
theorem of_le {j : Nat} (h : p.Ends c k) (hjk : j ≤ k) : p.Ends c j := by
  obtain ⟨out, hout, hle⟩ := h
  exact ⟨out, hout, by omega⟩

theorem pure (b : β) : (Pure.pure b : Parser β).Ends c 0 := ⟨_, rfl, Nat.le_refl _⟩

theorem fail (e : ParseError) : (Parser.fail e : Parser β).Ends c 0 := ⟨_, rfl, Nat.le_refl _⟩

/-- A parser that starts at a later cursor. -/
theorem congr {q : Parser γ} {p : Parser γ} {c' : Cursor} (heq : p c = q c')
    (hc : c'.left ≤ c.left - k) (h : q.Ends c' 0) : p.Ends c k := by
  obtain ⟨out, hout, hle⟩ := h
  exact ⟨out, heq.trans hout, by omega⟩

/-- The second of two parsers must have an outcome wherever the first one can stop. -/
theorem bind (hp : p.Ends c k)
    (hf : ∀ b c', c'.left ≤ c.left - k → (f b).Ends c' 0) : (p >>= f).Ends c k := by
  obtain ⟨⟨value, errors, c'⟩, hout, hle⟩ := hp
  cases value with
  | error e =>
    exact ⟨⟨.error e, errors, c'⟩, bind_error hout f, hle⟩
  | ok b =>
    obtain ⟨out, hout', hle'⟩ := hf b c' hle
    refine ⟨out.after errors, ?_, ?_⟩
    · rw [bind_ok hout, hout', Option.map_some]
    · have hle : c'.left ≤ c.left - k := hle
      show out.cursor.left ≤ c.left - k
      omega

theorem attempt (hp : p.Ends c k) : (Parser.attempt p).Ends c k := by
  obtain ⟨out, hout, hle⟩ := hp
  exact ⟨⟨.ok out.value, out.errors, out.cursor⟩, by simp [Parser.attempt, hout], hle⟩

theorem record (e : ParseError) : (Parser.record e).Ends c 0 := ⟨_, rfl, Nat.le_refl _⟩

theorem peek {f : Token → Parser γ} (h : (f c.peek).Ends c k) : (Parser.peek >>= f).Ends c k := by
  obtain ⟨out, hout, hle⟩ := h
  exact ⟨out, (peek_bind c f).trans hout, hle⟩

/-- Reading a token reads one, unless all are read. -/
theorem next {f : Token → Parser γ} (h : (f c.peek).Ends c.advance 0) :
    (Parser.next >>= f).Ends c 1 :=
  congr (next_bind c f) (Nat.le_of_eq c.left_advance) h

theorem lastKind {f : TokenKind → Parser γ} (h : (f c.last).Ends c k) :
    (Parser.lastKind >>= f).Ends c k := by
  obtain ⟨out, hout, hle⟩ := h
  exact ⟨out, (lastKind_bind c f).trans hout, hle⟩

/-- A move of the cursor must not go back. -/
theorem move {g : Cursor → Cursor} {f : Unit → Parser γ} (hg : (g c).left ≤ c.left)
    (h : (f ()).Ends (g c) 0) : (Parser.move g >>= f).Ends c 0 :=
  congr (move_bind c g f) (by omega) h

/-- Behind an expected token, at least that token has been read. -/
theorem expect {kind : TokenKind} {f : Token → Parser γ} (hkind : kind ≠ .eof)
    (h : 1 ≤ c.left → (f c.peek).Ends c.advance 0) : (Parser.expect kind >>= f).Ends c 0 := by
  by_cases hpeek : c.peek.kind = kind
  · have hpos : 1 ≤ c.left := Cursor.left_pos_of_peek (hpeek ▸ hkind)
    refine congr ?_ (Nat.le_trans (Nat.le_of_eq c.left_advance) (Nat.sub_le _ _)) (h hpos)
    rw [expect_bind, if_pos hpeek]
  · exact ⟨_, (expect_bind c kind f).trans (if_neg hpeek), Nat.le_refl _⟩

end Ends

/-- Every further parameter takes a comma and a name. -/
theorem moreParameters_ends :
    ∀ depth (c : Cursor), c.left + 1 ≤ depth → (moreParameters depth).Ends c 0
  | 0, _, h => by omega
  | depth + 1, c, h => by
    unfold moreParameters
    refine .peek ?_
    split
    · next hcomma =>
      have hpos : 1 ≤ c.left := Cursor.left_pos_of_peek (by simp [hcomma])
      have hleft := c.left_advance
      refine (Ends.next ?_).of_le (Nat.zero_le _)
      refine .expect (by decide) fun _ => ?_
      have hleft' := c.advance.left_advance
      exact (moreParameters_ends depth _ (by omega)).bind fun _ _ _ => .pure _
    · exact .expect (by decide) fun _ => .pure _

theorem parameters_ends {depth : Nat} {c : Cursor} (h : c.left ≤ depth) :
    (parameters depth).Ends c 0 := by
  unfold parameters
  refine .peek ?_
  split
  · exact Ends.of_le (.next (.pure _)) (Nat.zero_le 1)
  · refine .expect (by decide) fun hpos => ?_
    have hleft := c.left_advance
    exact (moreParameters_ends depth _ (by omega)).bind fun _ _ _ => .pure _

/-- All parsers have an outcome at the given depth, wherever they start with few enough
unread tokens. -/
structure Suffices (depth : Nat) : Prop where
  expression : ∀ level (c : Cursor), 3 * c.left + 2 ≤ depth → (expression depth level).Ends c 1
  operand : ∀ c : Cursor, 3 * c.left + 1 ≤ depth → (operand depth).Ends c 1
  conditional : ∀ c : Cursor, 3 * c.left + 1 ≤ depth → (conditional depth).Ends c 0
  functionLiteral : ∀ c : Cursor, 3 * c.left + 1 ≤ depth → (functionLiteral depth).Ends c 0
  climb : ∀ level left (c : Cursor), 3 * c.left + 1 ≤ depth → (climb depth level left).Ends c 0
  arguments : ∀ c : Cursor, 3 * c.left + 3 ≤ depth → (arguments depth).Ends c 0
  moreArguments : ∀ c : Cursor, 3 * c.left + 1 ≤ depth → (moreArguments depth).Ends c 0
  block : ∀ c : Cursor, 3 * c.left + 4 ≤ depth → (block depth).Ends c 0
  statement : ∀ c : Cursor, 3 * c.left + 3 ≤ depth → (statement depth).Ends c 1

namespace Suffices

variable {depth : Nat} (ih : Suffices depth)

include ih

/-- An expression starts with an operand at the same place, one level deeper. -/
theorem expression_succ (level : Precedence) (c : Cursor) (h : 3 * c.left + 2 ≤ depth + 1) :
    (Parser.expression (depth + 1) level).Ends c 1 := by
  unfold Parser.expression
  exact (ih.operand c (by omega)).bind fun left c' hc' => ih.climb level left c' (by omega)

/-- An operand reads a token before it goes deeper, and each token is worth three levels. -/
theorem operand_succ (c : Cursor) (h : 3 * c.left + 1 ≤ depth + 1) :
    (Parser.operand (depth + 1)).Ends c 1 := by
  unfold Parser.operand
  refine .next ?_
  have hleft := c.left_advance
  by_cases hpeek : c.peek.kind = .eof
  · simp only [hpeek, TokenKind.unaryOp?]
    exact .fail _
  · have hpos := Cursor.left_pos_of_peek hpeek
    split
    · exact .pure _
    · split
      · exact .pure _
      · exact .fail _
    · exact .pure _
    · exact .pure _
    · refine ((ih.expression _ _ (by omega)).of_le (Nat.zero_le _)).bind fun _ c' _ => ?_
      exact .expect (by decide) fun _ => .pure _
    · exact ih.conditional _ (by omega)
    · exact ih.functionLiteral _ (by omega)
    · split
      · refine ((ih.expression _ _ (by omega)).of_le (Nat.zero_le _)).bind fun _ c' _ => ?_
        exact .pure _
      · exact .fail _

/-- The parts of a conditional stand behind parentheses and braces, each with fewer tokens left. -/
theorem conditional_succ (c : Cursor) (h : 3 * c.left + 1 ≤ depth + 1) :
    (Parser.conditional (depth + 1)).Ends c 0 := by
  unfold Parser.conditional
  refine .expect (by decide) fun hpos => ?_
  have hleft := c.left_advance
  refine ((ih.expression _ _ (by omega)).of_le (Nat.zero_le _)).bind fun condition c' hc' => ?_
  refine .expect (by decide) fun hpos' => ?_
  have hleft' := c'.left_advance
  refine .expect (by decide) fun hpos'' => ?_
  have hleft'' := c'.advance.left_advance
  refine (ih.block _ (by omega)).bind fun consequence d hd => ?_
  refine .peek ?_
  split
  · next helse =>
    refine (Ends.next ?_).of_le (Nat.zero_le _)
    have hleftd := d.left_advance
    refine .expect (by decide) fun hposd => ?_
    have hleftd' := d.advance.left_advance
    exact (ih.block _ (by omega)).bind fun _ _ _ => .pure _
  · exact .pure _

theorem functionLiteral_succ (c : Cursor) (h : 3 * c.left + 1 ≤ depth + 1) :
    (Parser.functionLiteral (depth + 1)).Ends c 0 := by
  unfold Parser.functionLiteral
  refine .expect (by decide) fun hpos => ?_
  have hleft := c.left_advance
  refine (parameters_ends (by omega)).bind fun xs d hd => ?_
  refine .expect (by decide) fun hposd => ?_
  have hleftd := d.left_advance
  exact (ih.block _ (by omega)).bind fun _ _ _ => .pure _

/-- Every round reads an operator or an opening parenthesis. -/
theorem climb_succ (level : Precedence) (left : Expr Unit) (c : Cursor)
    (h : 3 * c.left + 1 ≤ depth + 1) : (Parser.climb (depth + 1) level left).Ends c 0 := by
  unfold Parser.climb
  refine .peek ?_
  split
  · next hlevel =>
    have hpeek : c.peek.kind ≠ .eof := by
      intro heof
      rw [heof] at hlevel
      exact absurd hlevel (Nat.not_lt_zero _)
    have hpos := Cursor.left_pos_of_peek hpeek
    have hleft := c.left_advance
    refine (Ends.next ?_).of_le (Nat.zero_le _)
    split
    · refine ((ih.expression _ _ (by omega)).of_le (Nat.zero_le _)).bind fun right d hd => ?_
      exact ih.climb _ _ _ (by omega)
    · refine (ih.arguments _ (by omega)).bind fun args d hd => ?_
      split
      · exact ih.climb _ _ _ (by omega)
      · exact .fail _
  · exact .pure _

/-- The first argument stands at the same place as the list, so the list needs one level more. -/
theorem arguments_succ (c : Cursor) (h : 3 * c.left + 3 ≤ depth + 1) :
    (Parser.arguments (depth + 1)).Ends c 0 := by
  unfold Parser.arguments
  refine .peek ?_
  split
  · exact Ends.of_le (.next (.pure _)) (Nat.zero_le 1)
  · refine Ends.of_le (k := 1) ((ih.expression _ _ (by omega)).bind fun e d hd => ?_)
      (Nat.zero_le _)
    exact (ih.moreArguments _ (by omega)).bind fun _ _ _ => .pure _

theorem moreArguments_succ (c : Cursor) (h : 3 * c.left + 1 ≤ depth + 1) :
    (Parser.moreArguments (depth + 1)).Ends c 0 := by
  unfold Parser.moreArguments
  refine .peek ?_
  split
  · next hcomma =>
    have hpos : 1 ≤ c.left := Cursor.left_pos_of_peek (by simp [hcomma])
    have hleft := c.left_advance
    refine (Ends.next ?_).of_le (Nat.zero_le _)
    refine Ends.of_le (k := 1) ((ih.expression _ _ (by omega)).attempt.bind fun r d hd => ?_)
      (Nat.zero_le _)
    split
    · exact (ih.moreArguments _ (by omega)).bind fun _ _ _ => .pure _
    · exact (Ends.record _).bind fun _ d' hd' => ih.moreArguments _ (by omega)
  · exact .expect (by decide) fun _ => .pure _

/-- A statement of a block has read a token before the rest is read, also if it broke off. -/
theorem block_succ (c : Cursor) (h : 3 * c.left + 4 ≤ depth + 1) :
    (Parser.block (depth + 1)).Ends c 0 := by
  unfold Parser.block
  refine .peek ?_
  split
  · exact Ends.of_le (.next (.pure _)) (Nat.zero_le 1)
  · exact Ends.of_le (.next (.fail _)) (Nat.zero_le 1)
  · next hpeek =>
    have hpos : 1 ≤ c.left := Cursor.left_pos_of_peek hpeek
    refine Ends.of_le (k := 1) ((ih.statement c (by omega)).attempt.bind fun r d hd => ?_)
      (Nat.zero_le _)
    split
    · exact (ih.block _ (by omega)).bind fun _ _ _ => .pure _
    · refine (Ends.record _).bind fun _ d' hd' => ?_
      have hrecover := d'.left_recover_le
      refine .move hrecover (.lastKind ?_)
      split
      · exact .pure _
      · exact ih.block _ (by omega)

/-- A statement reads a token: a keyword, or the first one of an expression. -/
theorem statement_succ (c : Cursor) (h : 3 * c.left + 3 ≤ depth + 1) :
    (Parser.statement (depth + 1)).Ends c 1 := by
  unfold Parser.statement
  refine .peek ?_
  have hleft := c.left_advance
  split
  · refine .next ?_
    refine .expect (by decide) fun hpos => ?_
    have hleft' := c.advance.left_advance
    refine .expect (by decide) fun hpos' => ?_
    have hleft'' := c.advance.advance.left_advance
    refine ((ih.expression _ _ (by omega)).of_le (Nat.zero_le _)).bind fun e d hd => ?_
    exact .move (d.left_skipPast_le _) (.pure _)
  · refine .next ?_
    refine ((ih.expression _ _ (by omega)).of_le (Nat.zero_le _)).bind fun e d hd => ?_
    exact .move (d.left_skipPast_le _) (.pure _)
  · refine (ih.expression _ _ (by omega)).bind fun e d hd => ?_
    exact .move (d.left_skipRun_le _) (.pure _)

end Suffices

/-- The bounds suffice at every depth, because what goes one level deeper needs one level less. -/
theorem suffices_all : ∀ depth, Suffices depth
  | 0 =>
    { expression := fun _ _ h => by omega
      operand := fun _ h => by omega
      conditional := fun _ h => by omega
      functionLiteral := fun _ h => by omega
      climb := fun _ _ _ h => by omega
      arguments := fun _ h => by omega
      moreArguments := fun _ h => by omega
      block := fun _ h => by omega
      statement := fun _ h => by omega }
  | depth + 1 =>
    have ih := suffices_all depth
    { expression := ih.expression_succ
      operand := ih.operand_succ
      conditional := ih.conditional_succ
      functionLiteral := ih.functionLiteral_succ
      climb := ih.climb_succ
      arguments := ih.arguments_succ
      moreArguments := ih.moreArguments_succ
      block := ih.block_succ
      statement := ih.statement_succ }

/-- A program has an outcome, and the outcome is no error. -/
theorem program_eq :
    ∀ depth (c : Cursor), 3 * c.left + 4 ≤ depth →
      ∃ program errors c', Parser.program depth c = some ⟨.ok program, errors, c'⟩
  | 0, _, h => by omega
  | depth + 1, c, h => by
    unfold Parser.program
    rw [peek_bind]
    split
    · exact ⟨[], [], c, rfl⟩
    · next hpeek =>
      have hpos := Cursor.left_pos_of_peek hpeek
      obtain ⟨⟨value, errors, d⟩, hout, hle⟩ := (suffices_all depth).statement c (by omega)
      have hd : d.left ≤ c.left - 1 := hle
      have hattempt : attempt (statement depth) c = some ⟨.ok value, errors, d⟩ := by
        rw [attempt, hout, Option.map_some]
      rw [bind_ok hattempt]
      cases value with
      | ok s =>
        obtain ⟨ss, errors', c', heq⟩ := program_eq depth d (by omega)
        refine ⟨s :: ss, errors ++ (errors' ++ []), c', ?_⟩
        simp only [bind_ok heq, pure_apply, Option.map_some, Outcome.after]
      | error e =>
        have hrecover := d.left_recover_le
        obtain ⟨ss, errors', c', heq⟩ := program_eq depth d.recover (by omega)
        refine ⟨ss, errors ++ ([e] ++ errors'), c', ?_⟩
        have hrecord : record e d = some ⟨.ok (), [e], d⟩ := rfl
        simp only [bind_ok hrecord, move_bind, heq, Option.map_some, Outcome.after]

end Parser

/-- The granted depth suffices: parsing is what the parser of programs gives. -/
theorem Cursor.parse_eq (c : Cursor) :
    Parser.program c.depth c = some ⟨.ok c.parse.program, c.parse.errors, c.parse.cursor⟩ := by
  obtain ⟨program, errors, c', h⟩ := Parser.program_eq c.depth c (by unfold depth left; omega)
  have hparse : c.parse = ⟨program, errors, c'⟩ := by
    unfold Cursor.parse
    rw [h]
  rw [hparse, h]

end LetLang
