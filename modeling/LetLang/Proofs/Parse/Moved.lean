import LetLang.Proofs.Parse.Program

/-!
# Parsing does not look at places

If the places of all tokens are changed by some function, a parser reads the same: the same trees,
and the same errors at the changed places (`Cursor.parse_moved`). The function may send all places
to one, which forgets the layout of a source, or may add a number to them, which puts a text in
front of it. The two runs are compared at any two depths in which both have an outcome, so that an
outcome depends on the depth as little as on the places.
-/

set_option autoImplicit false

namespace LetLang

variable {β γ δ ε : Type} {f : Nat → Nat}

/-! ## Changed places -/

/-- The token at the changed place. -/
def Token.moved (f : Nat → Nat) (t : Token) : Token := { t with start := f t.start }

/-- The error at the changed place, about a token at its changed place. -/
def ParseError.moved (f : Nat → Nat) : ParseError → ParseError
  | .unexpectedToken expected got => .unexpectedToken expected (got.moved f)
  | .noOperand t => .noOperand (t.moved f)
  | .invalidInteger t => .invalidInteger (t.moved f)
  | .invalidCallee callee start => .invalidCallee callee (f start)

/-- The cursor between tokens at changed places. -/
def Cursor.moved (f : Nat → Nat) (c : Cursor) : Cursor :=
  ⟨c.last, c.unread.map (Token.moved f), f c.stop⟩

/-- The outcome with its errors at changed places, and with another value. -/
def Outcome.moved (f : Nat → Nat) (V : β → γ) (out : Outcome β) : Outcome γ :=
  ⟨(out.value.map V).mapError (ParseError.moved f), out.errors.map (ParseError.moved f),
    out.cursor.moved f⟩

@[simp] theorem Token.kind_moved (t : Token) : (t.moved f).kind = t.kind := rfl

@[simp] theorem Token.text_moved (t : Token) : (t.moved f).text = t.text := rfl

namespace Cursor

theorem peek_moved (c : Cursor) : (c.moved f).peek = c.peek.moved f := by
  rw [peek, peek, moved]
  cases c.unread with
  | nil => rfl
  | cons t ts => rfl

theorem advance_moved (c : Cursor) : (c.moved f).advance = c.advance.moved f := by
  rw [advance, advance, peek_moved, Token.kind_moved]
  simp only [moved, List.map_tail]

/-- Where skipping ends depends on kinds alone. -/
theorem skipPast_moved (chosen : TokenKind → Bool) (c : Cursor) :
    (c.moved f).skipPast chosen = (c.skipPast chosen).moved f := by
  have hgo : ∀ ts : List Token, skipPast.go chosen (c.moved f) (ts.map (Token.moved f)) =
      (skipPast.go chosen c ts).moved f := by
    intro ts
    induction ts with
    | nil => rfl
    | cons t ts ih =>
      rw [List.map_cons, skipPast.go, skipPast.go, Token.kind_moved]
      split
      · rfl
      · exact ih
  exact hgo c.unread

/-- A run of tokens of one kind is as long at changed places. -/
theorem skipRun_moved (kind : TokenKind) (c : Cursor) :
    (c.moved f).skipRun kind = (c.skipRun kind).moved f := by
  have hgo : ∀ (ts : List Token) (last : TokenKind),
      skipRun.go kind (c.moved f) last (ts.map (Token.moved f)) =
        (skipRun.go kind c last ts).moved f := by
    intro ts
    induction ts with
    | nil => exact fun _ => rfl
    | cons t ts ih =>
      intro last
      rw [List.map_cons, skipRun.go, skipRun.go, Token.kind_moved]
      split
      · exact ih t.kind
      · rfl
  exact hgo c.unread c.last

/-- Recovery ends at the same token. -/
theorem recover_moved (c : Cursor) : (c.moved f).recover = c.recover.moved f := by
  rw [recover, recover, skipPast_moved]
  show (if endsStatement c.last then c.moved f else (c.skipPast endsStatement).moved f) = _
  split <;> rfl

end Cursor

/-! ## Parsers at changed places -/

namespace Parser

/-- Where both parsers have outcomes, the second at changed places, the outcome of the second is
that of the first at changed places. -/
def Moves (f : Nat → Nat) (V : β → γ) (p : Parser β) (q : Parser γ) : Prop :=
  ∀ c out out', p c = some out → q (c.moved f) = some out' → out' = out.moved f V

namespace Moves

variable {V : β → γ} {W : δ → ε} {p : Parser β} {q : Parser γ} {g : β → Parser δ}
  {g' : γ → Parser ε}

/-- A parser without depth has no outcome that could differ. -/
theorem exhausted_left : Moves f V exhausted q := by
  intro c out out' hout
  cases hout

theorem exhausted_right : Moves f V p exhausted := by
  intro c out out' _ hout'
  cases hout'

theorem pure {b : β} {d : γ} (hd : V b = d) : Moves f V (Pure.pure b) (Pure.pure d) := by
  intro c out out' hout hout'
  cases hout
  cases hout'
  rw [← hd]
  rfl

/-- An error is the same error at its changed place. -/
theorem fail {e e' : ParseError} (he : e.moved f = e') : Moves f V (fail e) (fail e') := by
  intro c out out' hout hout'
  cases hout
  cases hout'
  rw [← he]
  rfl

/-- If the first parts read the same, and behind every value the second parts do, then so do the
wholes. -/
theorem bind (hp : Moves f V p q) (hg : ∀ b, Moves f W (g b) (g' (V b))) :
    Moves f W (p >>= g) (q >>= g') := by
  intro c out out' hout hout'
  obtain ⟨e, es, m, hrun, rfl⟩ | ⟨b, es, m, last, hrun, hlast, rfl⟩ := bind_eq_some hout <;>
    obtain ⟨e', es', m', hrun', rfl⟩ | ⟨b', es', m', last', hrun', hlast', rfl⟩ :=
      bind_eq_some hout' <;>
    cases hp c _ _ hrun hrun'
  · rfl
  · obtain rfl := hg b m last last' hlast hlast'
    simp only [Outcome.after, Outcome.moved, List.map_append]

/-- An error that is handed over as a value is handed over at its changed place. -/
theorem attempt (hp : Moves f V p q) :
    Moves f (fun r => (r.map V).mapError (ParseError.moved f)) (attempt p) (attempt q) := by
  intro c out out' hout hout'
  simp only [Parser.attempt, Option.map_eq_some_iff] at hout hout'
  obtain ⟨mid, hmid, rfl⟩ := hout
  obtain ⟨mid', hmid', rfl⟩ := hout'
  obtain rfl := hp c mid mid' hmid hmid'
  rfl

theorem record (e : ParseError) : Moves f id (record e) (record (e.moved f)) := by
  intro c out out' hout hout'
  cases hout
  cases hout'
  rfl

theorem peek : Moves f (Token.moved f) peek peek := by
  intro c out out' hout hout'
  cases hout
  cases hout'
  rw [Cursor.peek_moved]
  rfl

theorem next : Moves f (Token.moved f) next next := by
  intro c out out' hout hout'
  cases hout
  cases hout'
  rw [Cursor.peek_moved, Cursor.advance_moved]
  rfl

theorem lastKind : Moves f id lastKind lastKind := by
  intro c out out' hout hout'
  cases hout
  cases hout'
  rfl

theorem move {step : Cursor → Cursor} (hstep : ∀ c, step (c.moved f) = (step c).moved f) :
    Moves f id (move step) (move step) := by
  intro c out out' hout hout'
  cases hout
  cases hout'
  rw [hstep]
  rfl

/-- A token is missing in both runs or in none, and the error names it at its changed place. -/
theorem expect (kind : TokenKind) : Moves f (Token.moved f) (expect kind) (expect kind) := by
  rw [Parser.expect]
  refine bind peek fun t => ?_
  rw [Token.kind_moved]
  split
  · exact next
  · exact fail rfl

end Moves

/-! ## One lemma for each parser -/

/-- Further parameters, by induction on both depths, which need not be the same. -/
theorem moves_moreParameters : ∀ depth depth' : Nat,
    Moves f id (moreParameters depth) (moreParameters depth')
  | 0, _ => by rw [moreParameters]; exact .exhausted_left
  | _ + 1, 0 => by rw [moreParameters.eq_1]; exact .exhausted_right
  | depth + 1, depth' + 1 => by
    rw [moreParameters, moreParameters]
    refine .bind .peek fun t => ?_
    rw [Token.kind_moved]
    split
    · refine .bind .next fun _ => .bind (.expect .identifier) fun x => ?_
      exact .bind (moves_moreParameters depth depth') fun xs => .pure rfl
    · exact .bind (.expect .rightParen) fun _ => .pure rfl

theorem moves_parameters (depth depth' : Nat) :
    Moves f id (parameters depth) (parameters depth') := by
  rw [parameters, parameters]
  refine .bind .peek fun t => ?_
  rw [Token.kind_moved]
  split
  · exact .bind .next fun _ => .pure rfl
  · refine .bind (.expect .identifier) fun x => ?_
    exact .bind (moves_moreParameters depth depth') fun xs => .pure rfl

/-- The parsers of two depths read the same at changed places. -/
structure MovesAll (f : Nat → Nat) (depth depth' : Nat) : Prop where
  expression : ∀ level, Moves f id (expression depth level) (expression depth' level)
  operand : Moves f id (operand depth) (operand depth')
  conditional : Moves f id (conditional depth) (conditional depth')
  functionLiteral : Moves f id (functionLiteral depth) (functionLiteral depth')
  climb : ∀ level left, Moves f id (climb depth level left) (climb depth' level left)
  arguments : Moves f id (arguments depth) (arguments depth')
  moreArguments : Moves f id (moreArguments depth) (moreArguments depth')
  block : Moves f id (block depth) (block depth')
  statement : Moves f id (statement depth) (statement depth')

namespace MovesAll

variable {depth depth' : Nat} (ih : MovesAll f depth depth')

include ih

theorem expression_succ (level : Precedence) :
    Moves f id (Parser.expression (depth + 1) level) (Parser.expression (depth' + 1) level) := by
  rw [Parser.expression, Parser.expression]
  exact .bind ih.operand fun left => ih.climb level left

/-- An operand is chosen by the kind of the token and made of its text. -/
theorem operand_succ : Moves f id (Parser.operand (depth + 1)) (Parser.operand (depth' + 1)) := by
  rw [Parser.operand, Parser.operand]
  refine .bind .next fun t => ?_
  simp only [Token.kind_moved, Token.text_moved]
  split
  · exact .pure rfl
  · split
    · exact .pure rfl
    · exact .fail rfl
  · exact .pure rfl
  · exact .pure rfl
  · refine .bind (ih.expression .lowest) fun e => ?_
    exact .bind (.expect .rightParen) fun _ => .pure rfl
  · exact ih.conditional
  · exact ih.functionLiteral
  · split
    · exact .bind (ih.expression .unary) fun e => .pure rfl
    · exact .fail rfl

theorem conditional_succ :
    Moves f id (Parser.conditional (depth + 1)) (Parser.conditional (depth' + 1)) := by
  rw [Parser.conditional, Parser.conditional]
  refine .bind (.expect .leftParen) fun _ => .bind (ih.expression .lowest) fun e => ?_
  refine .bind (.expect .rightParen) fun _ => .bind (.expect .leftBrace) fun _ => ?_
  refine .bind ih.block fun ss => .bind .peek fun t => ?_
  rw [Token.kind_moved]
  split
  · refine .bind .next fun _ => .bind (.expect .leftBrace) fun _ => ?_
    exact .bind ih.block fun ss' => .pure rfl
  · exact .pure rfl

theorem functionLiteral_succ :
    Moves f id (Parser.functionLiteral (depth + 1)) (Parser.functionLiteral (depth' + 1)) := by
  rw [Parser.functionLiteral, Parser.functionLiteral]
  refine .bind (.expect .leftParen) fun _ => .bind (moves_parameters depth depth') fun xs => ?_
  exact .bind (.expect .leftBrace) fun _ => .bind ih.block fun ss => .pure rfl

/-- Whether an operator is taken depends on its kind. The error of a wrong callee has a place. -/
theorem climb_succ (level : Precedence) (left : Expr Unit) :
    Moves f id (Parser.climb (depth + 1) level left) (Parser.climb (depth' + 1) level left) := by
  rw [Parser.climb, Parser.climb]
  refine .bind .peek fun t => ?_
  have hkind : level < (t.moved f).kind.precedence ↔ level < t.kind.precedence := Iff.rfl
  by_cases hlevel : level < t.kind.precedence
  · rw [if_pos hlevel, if_pos (hkind.2 hlevel)]
    refine .bind .next fun _ => ?_
    simp only [Token.kind_moved]
    split
    · next op _ => exact .bind (ih.expression op.precedence) fun right => ih.climb level _
    · refine .bind ih.arguments fun args => ?_
      split
      · exact ih.climb level _
      · exact .fail rfl
  · rw [if_neg hlevel, if_neg (mt hkind.1 hlevel)]
    exact .pure rfl

theorem arguments_succ :
    Moves f id (Parser.arguments (depth + 1)) (Parser.arguments (depth' + 1)) := by
  rw [Parser.arguments, Parser.arguments]
  refine .bind .peek fun t => ?_
  rw [Token.kind_moved]
  split
  · exact .bind .next fun _ => .pure rfl
  · refine .bind (ih.expression .lowest) fun e => ?_
    exact .bind ih.moreArguments fun es => .pure rfl

theorem moreArguments_succ :
    Moves f id (Parser.moreArguments (depth + 1)) (Parser.moreArguments (depth' + 1)) := by
  rw [Parser.moreArguments, Parser.moreArguments]
  refine .bind .peek fun t => ?_
  rw [Token.kind_moved]
  split
  · refine .bind .next fun _ => .bind (.attempt (ih.expression .lowest)) fun r => ?_
    cases r with
    | ok e => exact .bind ih.moreArguments fun es => .pure rfl
    | error err => exact .bind (.record err) fun _ => ih.moreArguments
  · exact .bind (.expect .rightParen) fun _ => .pure rfl

/-- A broken statement of a block is left out in both runs, and both recover to the same token. -/
theorem block_succ : Moves f id (Parser.block (depth + 1)) (Parser.block (depth' + 1)) := by
  rw [Parser.block, Parser.block]
  refine .bind .peek fun t => ?_
  simp only [Token.kind_moved]
  split
  · exact .bind .next fun _ => .pure rfl
  · exact .bind .next fun _ => .fail rfl
  · refine .bind (.attempt ih.statement) fun r => ?_
    cases r with
    | ok s => exact .bind ih.block fun ss => .pure rfl
    | error err =>
      refine .bind (.record err) fun _ => .bind (.move Cursor.recover_moved) fun _ => ?_
      refine .bind .lastKind fun kind => ?_
      rw [id_eq]
      split
      · exact .pure rfl
      · exact ih.block

/-- A statement is chosen by the kind of the token that comes first. -/
theorem statement_succ :
    Moves f id (Parser.statement (depth + 1)) (Parser.statement (depth' + 1)) := by
  rw [Parser.statement, Parser.statement]
  refine .bind .peek fun t => ?_
  simp only [Token.kind_moved]
  split
  · refine .bind .next fun _ => .bind (.expect .identifier) fun x => ?_
    refine .bind (.expect .assign) fun _ => .bind (ih.expression .lowest) fun e => ?_
    exact .bind (.move (Cursor.skipPast_moved _)) fun _ => .pure rfl
  · refine .bind .next fun _ => .bind (ih.expression .lowest) fun e => ?_
    exact .bind (.move (Cursor.skipPast_moved _)) fun _ => .pure rfl
  · refine .bind (ih.expression .lowest) fun e => ?_
    exact .bind (.move (Cursor.skipRun_moved _)) fun _ => .pure rfl

end MovesAll

/-- Where one depth is used up there is no outcome, and else both runs take the same step. -/
theorem moves_all : ∀ depth depth' : Nat, MovesAll f depth depth'
  | 0, _ =>
    { expression := fun _ => by rw [expression]; exact .exhausted_left
      operand := by rw [operand]; exact .exhausted_left
      conditional := by rw [conditional]; exact .exhausted_left
      functionLiteral := by rw [functionLiteral]; exact .exhausted_left
      climb := fun _ _ => by rw [climb]; exact .exhausted_left
      arguments := by rw [arguments]; exact .exhausted_left
      moreArguments := by rw [moreArguments]; exact .exhausted_left
      block := by rw [block]; exact .exhausted_left
      statement := by rw [statement]; exact .exhausted_left }
  | _ + 1, 0 =>
    { expression := fun _ => by rw [expression.eq_1]; exact .exhausted_right
      operand := by rw [operand.eq_1]; exact .exhausted_right
      conditional := by rw [conditional.eq_1]; exact .exhausted_right
      functionLiteral := by rw [functionLiteral.eq_1]; exact .exhausted_right
      climb := fun _ _ => by rw [climb.eq_1]; exact .exhausted_right
      arguments := by rw [arguments.eq_1]; exact .exhausted_right
      moreArguments := by rw [moreArguments.eq_1]; exact .exhausted_right
      block := by rw [block.eq_1]; exact .exhausted_right
      statement := by rw [statement.eq_1]; exact .exhausted_right }
  | depth + 1, depth' + 1 =>
    have ih := moves_all depth depth'
    { expression := ih.expression_succ
      operand := ih.operand_succ
      conditional := ih.conditional_succ
      functionLiteral := ih.functionLiteral_succ
      climb := ih.climb_succ
      arguments := ih.arguments_succ
      moreArguments := ih.moreArguments_succ
      block := ih.block_succ
      statement := ih.statement_succ }

/-! ## What stands before the cursor -/

section Last

variable (depth : Nat) (c : Cursor) (last : TokenKind)

/-- The first of two parsers is the only one to see the cursor. -/
theorem bind_at_eq {p : Parser β} {g : β → Parser γ} {c c' : Cursor} (h : p c = p c') :
    (p >>= g) c = (p >>= g) c' := by
  show Parser.bind p g c = Parser.bind p g c'
  rw [Parser.bind, Parser.bind, h]

/-- An expression starts with an operand, and that reads a token before anything asks for the last
one. -/
theorem expression_last (level : Precedence) :
    expression depth level { c with last } = expression depth level c := by
  cases depth with
  | zero => rw [expression, exhausted, exhausted]
  | succ depth =>
    rw [expression]
    refine bind_at_eq ?_
    -- An operand starts with a token, which is the last one from then on.
    cases depth with
    | zero => rw [operand, exhausted, exhausted]
    | succ depth =>
      rw [operand]
      exact bind_at_eq rfl

/-- A statement reads a token, and does not look at the one before. -/
theorem statement_last : statement depth { c with last } = statement depth c := by
  have hpeek : ({ c with last } : Cursor).peek = c.peek := rfl
  cases depth with
  | zero => rw [statement, exhausted, exhausted]
  | succ depth =>
    rw [statement, peek_bind, peek_bind, hpeek]
    generalize c.peek.kind = kind
    split
    · rw [next_bind, next_bind]
      rfl
    · rw [next_bind, next_bind]
      rfl
    · exact bind_at_eq (expression_last depth c last .lowest)

end Last

end Parser

/-! ## Programs at changed places -/

section Programs

variable {c c' : Cursor} (hunread : c'.unread = c.unread.map (Token.moved f))
  (hstop : c'.stop = f c.stop)

include hunread

theorem Cursor.peek_kind_moved : c'.peek.kind = c.peek.kind := by
  rw [c'.peek_kind, c.peek_kind, words, words, hunread, List.map_map]
  rfl

include hstop

/-- A statement at changed places is the same statement, with its errors at changed places. -/
theorem Parser.statement_moved {depth depth' : Nat} {out out' : Outcome (Stmt Unit)}
    (hrun : statement depth c = some out) (hrun' : statement depth' c' = some out') :
    out' = out.moved f id := by
  have hmoved : c.moved f = { c' with last := c.last } := by
    rw [Cursor.moved, hunread, hstop]
  rw [← statement_last depth' c' c.last, ← hmoved] at hrun'
  exact (moves_all depth depth').statement c out out' hrun hrun'

end Programs

/-- Two runs whose tokens are the same but for their places read the same, up to these places. -/
theorem ProgramRun.moved {c d : Cursor} {p : Program Unit} {es : List ParseError}
    (h : ProgramRun c p es d) {c' d' : Cursor} {p' : Program Unit} {es' : List ParseError}
    (h' : ProgramRun c' p' es' d') (hunread : c'.unread = c.unread.map (Token.moved f))
    (hstop : c'.stop = f c.stop) : p' = p ∧ es' = es.map (ParseError.moved f) := by
  induction h generalizing c' p' es' with
  | stop heof =>
    rw [← Cursor.peek_kind_moved hunread] at heof
    cases h' with
    | stop _ => exact ⟨rfl, rfl⟩
    | statement hne _ _ => exact absurd heof hne
    | recover hne _ _ => exact absurd heof hne
  | statement hne hrun _ ih =>
    rw [← Cursor.peek_kind_moved hunread] at hne
    cases h' with
    | stop heof => exact absurd heof hne
    | statement _ hrun' hrest =>
      cases Parser.statement_moved hunread hstop hrun hrun'
      obtain ⟨rfl, rfl⟩ := ih hrest rfl rfl
      exact ⟨rfl, List.map_append.symm⟩
    | recover _ hrun' _ => cases Parser.statement_moved hunread hstop hrun hrun'
  | recover hne hrun _ ih =>
    -- The errors of the other run are found at changed places, and it recovers at the same token.
    rw [← Cursor.peek_kind_moved hunread] at hne
    cases h' with
    | stop heof => exact absurd heof hne
    | statement _ hrun' _ => cases Parser.statement_moved hunread hstop hrun hrun'
    | recover _ hrun' hrest =>
      cases Parser.statement_moved hunread hstop hrun hrun'
      rw [Cursor.recover_moved] at hrest
      obtain ⟨rfl, rfl⟩ := ih hrest rfl rfl
      exact ⟨rfl, by rw [List.map_append, List.map_cons]⟩

/-- The places of the tokens appear in the errors, and nowhere else. -/
theorem Cursor.parse_moved {c c' : Cursor} (hunread : c'.unread = c.unread.map (Token.moved f))
    (hstop : c'.stop = f c.stop) :
    c'.parse.program = c.parse.program ∧
      c'.parse.errors = c.parse.errors.map (ParseError.moved f) :=
  c.parse_run.moved c'.parse_run hunread hstop

end LetLang
