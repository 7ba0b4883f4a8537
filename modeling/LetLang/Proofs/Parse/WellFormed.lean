import LetLang.Proofs.Parse.Invariant
import LetLang.Proofs.Print.Words
import LetLang.Proofs.Scan.Tokenization

/-!
# What the parser makes is well-formed

The identifiers among the tokens of a source are names of the language, and a numeral that is in
range has no sign. So whatever the parser makes of a source is well-formed, on whichever way it
recovers from errors: the program, from which broken statements are left out, and the expressions
that its errors carry (`parse_wellFormed`).
-/

set_option autoImplicit false

namespace LetLang

variable {β γ : Type}

/-! ## Tokens -/

/-- A token whose text is a name of the language if it is an identifier. -/
def Token.Sound (t : Token) : Prop := t.kind = .identifier → IsName t.text

/-- An error whose expression, if it carries one, is well-formed. -/
def ParseError.WellFormed : ParseError → Prop
  | .invalidCallee callee _ => callee.WellFormed
  | _ => True

/-- The names of the language are the texts of identifiers. -/
theorem isName_iff_spells {x : String} : IsName x ↔ TokenKind.Spells .identifier x := by
  constructor
  · intro h
    exact .identifier h.nonempty (List.all_eq_true.1 h.letters) (keyword?_eq_none_iff.1 h.free)
  · intro h
    cases h with
    | fixed hspelling => cases hspelling
    | identifier hne hletters hfree =>
      exact ⟨hne, List.all_eq_true.2 hletters, keyword?_eq_none_iff.2 hfree⟩

/-- The identifiers of a source are names of the language. -/
theorem sound_of_mem_scan {source : String} {t : Token} (ht : t ∈ scan source) : t.Sound := by
  intro hkind
  have hspelled := (Scanner.tokenizes_tokens (Scanner.ofSource source)).spelled t ht
  rw [hkind] at hspelled
  exact isName_iff_spells.2 hspelled

/-- A numeral in range writes an integer without a sign. -/
theorem Numeral.toInt_nonneg_of_ofDigits? {digits : String} {v : Int64}
    (h : Numeral.ofDigits? digits = some v) : 0 ≤ v.toInt := by
  obtain ⟨hle, rfl⟩ := Grammar.ofDigits?_eq_some_iff.1 h
  have hmax : Int64.maxValue.toInt = 2 ^ 63 - 1 := by decide
  rw [Int64.toInt_ofNat_of_lt (by omega)]
  exact Int.natCast_nonneg _

namespace Cursor

/-- A cursor behind which all tokens are sound. -/
def Sound (c : Cursor) : Prop := ∀ t ∈ c.unread, t.Sound

variable {c : Cursor}

/-- A later cursor sees fewer tokens. -/
theorem Sound.of_suffix {c' : Cursor} (h : c.Sound) (hsuffix : c'.unread <:+ c.unread) : c'.Sound :=
  fun t ht => h t (hsuffix.subset ht)

theorem Sound.peek (h : c.Sound) : c.peek.Sound := by
  rw [Cursor.peek]
  cases hc : c.unread with
  | nil => exact fun hkind => by cases hkind
  | cons t ts => exact h t (by rw [hc]; exact List.mem_cons_self)

theorem Sound.advance (h : c.Sound) : c.advance.Sound :=
  h.of_suffix (List.tail_suffix c.unread)

theorem Sound.skipPast (h : c.Sound) (chosen : TokenKind → Bool) : (c.skipPast chosen).Sound :=
  h.of_suffix (c.precedes_skipPast chosen).suffix

theorem Sound.skipRun (h : c.Sound) (kind : TokenKind) : (c.skipRun kind).Sound :=
  h.of_suffix (c.precedes_skipRun kind).suffix

/-- Recovery only skips tokens. -/
theorem Sound.recover (h : c.Sound) : c.recover.Sound := h.of_suffix c.precedes_recover.suffix

end Cursor

/-! ## Parsers -/

/-- An outcome with a value of `P`, or else with a well-formed error, with well-formed errors
recorded before it, and with a sound rest. -/
structure Outcome.Sound (P : β → Prop) (out : Outcome β) : Prop where
  value : ∀ b, out.value = .ok b → P b
  ending : ∀ e, out.value = .error e → e.WellFormed
  errors : ∀ e ∈ out.errors, e.WellFormed
  cursor : out.cursor.Sound

namespace Parser

/-- At every sound cursor, the parser makes values of `P` and well-formed errors. -/
def Makes (P : β → Prop) (p : Parser β) : Prop :=
  ∀ c : Cursor, c.Sound → p.Ensures c (Outcome.Sound P)

namespace Makes

variable {P : β → Prop} {Q : γ → Prop} {p : Parser β} {f : β → Parser γ}

theorem exhausted : Makes P exhausted := by
  intro c _ out hout
  cases hout

theorem pure {b : β} (hb : P b) : Makes P (Pure.pure b : Parser β) := by
  intro c hc out hout
  cases hout
  refine ⟨?_, fun e he => (by cases he), fun e he => (by cases he), hc⟩
  rintro _ ⟨⟩
  exact hb

/-- An error with which a parser breaks off must be well-formed. -/
theorem fail {e : ParseError} (he : e.WellFormed) : Makes P (fail e : Parser β) := by
  intro c hc out hout
  cases hout
  refine ⟨fun b hb => (by cases hb), ?_, fun e he => (by cases he), hc⟩
  rintro _ ⟨⟩
  exact he

/-- The second parser is given values of which the first one says that `P` holds. -/
theorem bind (hp : Makes P p) (hf : ∀ b, P b → Makes Q (f b)) : Makes Q (p >>= f) := by
  intro c hc out hout
  obtain ⟨e, es, m, hrun, rfl⟩ | ⟨b, es, m, out', hrun, hout', rfl⟩ := bind_eq_some hout
  · have hmid := hp c hc _ hrun
    refine ⟨fun b hb => (by cases hb), ?_, hmid.errors, hmid.cursor⟩
    rintro _ ⟨⟩
    exact hmid.ending e rfl
  · have hmid := hp c hc _ hrun
    have hrest := hf b (hmid.value b rfl) m hmid.cursor out' hout'
    refine ⟨hrest.value, hrest.ending, fun e he => ?_, hrest.cursor⟩
    rcases List.mem_append.1 he with he | he
    · exact hmid.errors e he
    · exact hrest.errors e he

/-- An error that is handed over as a value is well-formed. -/
theorem attempt (hp : Makes P p) :
    Makes (fun r => (∀ b, r = .ok b → P b) ∧ ∀ e, r = .error e → e.WellFormed) (attempt p) := by
  intro c hc out hout
  simp only [Parser.attempt, Option.map_eq_some_iff] at hout
  obtain ⟨mid, hmid, rfl⟩ := hout
  have hsound := hp c hc mid hmid
  refine ⟨?_, fun e he => (by cases he), hsound.errors, hsound.cursor⟩
  rintro _ ⟨⟩
  exact ⟨hsound.value, hsound.ending⟩

theorem record {e : ParseError} (he : e.WellFormed) : Makes (fun _ => True) (record e) := by
  intro c hc out hout
  cases hout
  refine ⟨fun _ _ => trivial, fun e he => (by cases he), fun e' he' => ?_, hc⟩
  rw [List.mem_singleton.1 he']
  exact he

theorem peek : Makes Token.Sound peek := by
  intro c hc out hout
  cases hout
  refine ⟨?_, fun e he => (by cases he), fun e he => (by cases he), hc⟩
  rintro _ ⟨⟩
  exact hc.peek

theorem next : Makes Token.Sound next := by
  intro c hc out hout
  cases hout
  refine ⟨?_, fun e he => (by cases he), fun e he => (by cases he), hc.advance⟩
  rintro _ ⟨⟩
  exact hc.peek

theorem lastKind : Makes (fun _ => True) lastKind := by
  intro c hc out hout
  cases hout
  exact ⟨fun _ _ => trivial, fun e he => (by cases he), fun e he => (by cases he), hc⟩

/-- A move of the cursor must lead to sound tokens. -/
theorem move {g : Cursor → Cursor} (hg : ∀ c : Cursor, c.Sound → (g c).Sound) :
    Makes (fun _ => True) (move g) := by
  intro c hc out hout
  cases hout
  exact ⟨fun _ _ => trivial, fun e he => (by cases he), fun e he => (by cases he), hg c hc⟩

/-- A token that was expected is of the kind, and the error about another one carries no
expression. -/
theorem expect (kind : TokenKind) : Makes (fun t => t.Sound ∧ t.kind = kind) (expect kind) := by
  intro c hc out hout
  rw [Parser.expect, peek_bind] at hout
  split at hout
  · next hkind =>
    cases hout
    refine ⟨?_, fun e he => (by cases he), fun e he => (by cases he), hc.advance⟩
    rintro _ ⟨⟩
    exact ⟨hc.peek, hkind⟩
  · have hfail : Makes (fun t : Token => t.Sound ∧ t.kind = kind)
        (Parser.fail (.unexpectedToken kind c.peek)) := .fail trivial
    exact hfail c hc out hout

/-- An expected identifier is a name. -/
theorem name : Makes (fun t => IsName t.text) (Parser.expect .identifier) := by
  intro c hc out hout
  obtain ⟨hvalue, hending, herrors, hcursor⟩ := expect .identifier c hc out hout
  exact ⟨fun t ht => (hvalue t ht).1 (hvalue t ht).2, hending, herrors, hcursor⟩

end Makes

/-! ## One lemma for each parser -/

/-- Parameters are identifiers of the source, and so they are names. -/
theorem makes_moreParameters : ∀ depth, Makes (fun xs => ∀ x ∈ xs, IsName x) (moreParameters depth)
  | 0 => by rw [moreParameters]; exact .exhausted
  | depth + 1 => by
    rw [moreParameters]
    refine .bind .peek fun t _ => ?_
    split
    · refine .bind .next fun _ _ => .bind .name fun x hx => ?_
      refine .bind (makes_moreParameters depth) fun xs hxs => .pure ?_
      exact List.forall_mem_cons.2 ⟨hx, hxs⟩
    · exact .bind (.expect .rightParen) fun _ _ => .pure fun x hx => by cases hx

theorem makes_parameters (depth : Nat) :
    Makes (fun xs => ∀ x ∈ xs, IsName x) (parameters depth) := by
  rw [parameters]
  refine .bind .peek fun t _ => ?_
  split
  · exact .bind .next fun _ _ => .pure fun x hx => by cases hx
  · refine .bind .name fun x hx => ?_
    refine .bind (makes_moreParameters depth) fun xs hxs => .pure ?_
    exact List.forall_mem_cons.2 ⟨hx, hxs⟩

/-- What the parsers of a depth make is well-formed. -/
structure MakesAll (depth : Nat) : Prop where
  expression : ∀ level, Makes Expr.WellFormed (expression depth level)
  operand : Makes Expr.WellFormed (operand depth)
  conditional : Makes Expr.WellFormed (conditional depth)
  functionLiteral : Makes Expr.WellFormed (functionLiteral depth)
  climb : ∀ level {left : Expr Unit}, left.WellFormed →
    Makes Expr.WellFormed (climb depth level left)
  arguments : Makes ExprsWellFormed (arguments depth)
  moreArguments : Makes ExprsWellFormed (moreArguments depth)
  block : Makes StmtsWellFormed (block depth)
  statement : Makes Stmt.WellFormed (statement depth)

namespace MakesAll

variable {depth : Nat} (ih : MakesAll depth)

include ih

theorem expression_succ (level : Precedence) :
    Makes Expr.WellFormed (Parser.expression (depth + 1) level) := by
  rw [Parser.expression]
  exact .bind ih.operand fun left hleft => ih.climb level hleft

/-- A numeral in range has no sign, and a name is an identifier of the source. -/
theorem operand_succ : Makes Expr.WellFormed (Parser.operand (depth + 1)) := by
  rw [Parser.operand]
  refine .bind .next fun t ht => ?_
  -- The kind of the token decides which operand it starts.
  split
  · next hkind => exact .pure (ht hkind)
  · split
    · next v hv => exact .pure (Numeral.toInt_nonneg_of_ofDigits? hv)
    · exact .fail trivial
  · exact .pure trivial
  · exact .pure trivial
  · refine .bind (ih.expression .lowest) fun e he => ?_
    exact .bind (.expect .rightParen) fun _ _ => .pure he
  · exact ih.conditional
  · exact ih.functionLiteral
  · split
    · exact .bind (ih.expression .unary) fun e he => .pure he
    · exact .fail trivial

theorem conditional_succ : Makes Expr.WellFormed (Parser.conditional (depth + 1)) := by
  rw [Parser.conditional]
  refine .bind (.expect .leftParen) fun _ _ => .bind (ih.expression .lowest) fun e he => ?_
  refine .bind (.expect .rightParen) fun _ _ => .bind (.expect .leftBrace) fun _ _ => ?_
  refine .bind ih.block fun ss hss => .bind .peek fun t _ => ?_
  split
  · refine .bind .next fun _ _ => .bind (.expect .leftBrace) fun _ _ => ?_
    exact .bind ih.block fun ss' hss' => .pure ⟨he, hss, hss'⟩
  · exact .pure ⟨he, hss⟩

theorem functionLiteral_succ : Makes Expr.WellFormed (Parser.functionLiteral (depth + 1)) := by
  rw [Parser.functionLiteral]
  refine .bind (.expect .leftParen) fun _ _ => .bind (makes_parameters depth) fun xs hxs => ?_
  refine .bind (.expect .leftBrace) fun _ _ => .bind ih.block fun ss hss => .pure ?_
  exact ⟨hxs, hss⟩

/-- The callee that is shown by an error is the operand read so far, which is well-formed. -/
theorem climb_succ (level : Precedence) {left : Expr Unit} (hleft : left.WellFormed) :
    Makes Expr.WellFormed (Parser.climb (depth + 1) level left) := by
  rw [Parser.climb]
  refine .bind .peek fun t _ => ?_
  split
  · refine .bind .next fun _ _ => ?_
    split
    · next op _ =>
      exact .bind (ih.expression op.precedence) fun right hright =>
        ih.climb level ⟨hleft, hright⟩
    · refine .bind ih.arguments fun args hargs => ?_
      -- What cannot be called becomes the expression of an error.
      split
      · exact ih.climb level ⟨hleft, hargs⟩
      · exact .fail hleft
  · exact .pure hleft

theorem arguments_succ : Makes ExprsWellFormed (Parser.arguments (depth + 1)) := by
  rw [Parser.arguments]
  refine .bind .peek fun t _ => ?_
  split
  · exact .bind .next fun _ _ => .pure trivial
  · refine .bind (ih.expression .lowest) fun e he => ?_
    exact .bind ih.moreArguments fun es hes => .pure ⟨he, hes⟩

theorem moreArguments_succ : Makes ExprsWellFormed (Parser.moreArguments (depth + 1)) := by
  rw [Parser.moreArguments]
  refine .bind .peek fun t _ => ?_
  split
  · refine .bind .next fun _ _ => .bind (.attempt (ih.expression .lowest)) fun r hr => ?_
    -- A broken argument is left out, and its error is recorded.
    cases r with
    | ok e => exact .bind ih.moreArguments fun es hes => .pure ⟨hr.1 e rfl, hes⟩
    | error err => exact .bind (.record (hr.2 err rfl)) fun _ _ => ih.moreArguments
  · exact .bind (.expect .rightParen) fun _ _ => .pure trivial

/-- A statement that breaks off is left out, and its error is well-formed. -/
theorem block_succ : Makes StmtsWellFormed (Parser.block (depth + 1)) := by
  rw [Parser.block]
  refine .bind .peek fun t _ => ?_
  split
  · exact .bind .next fun _ _ => .pure trivial
  · exact .bind .next fun _ _ => .fail trivial
  · refine .bind (.attempt ih.statement) fun r hr => ?_
    cases r with
    | ok s => exact .bind ih.block fun ss hss => .pure ⟨hr.1 s rfl, hss⟩
    | error err =>
      refine .bind (.record (hr.2 err rfl)) fun _ _ => ?_
      refine .bind (.move fun c hc => hc.recover) fun _ _ => .bind .lastKind fun kind _ => ?_
      split
      · exact .pure trivial
      · exact ih.block

/-- The name that a `let` binds is an identifier of the source. -/
theorem statement_succ : Makes Stmt.WellFormed (Parser.statement (depth + 1)) := by
  rw [Parser.statement]
  refine .bind .peek fun t _ => ?_
  split
  · refine .bind .next fun _ _ => .bind .name fun x hx => ?_
    refine .bind (.expect .assign) fun _ _ => .bind (ih.expression .lowest) fun e he => ?_
    exact .bind (.move fun c hc => hc.skipPast _) fun _ _ => .pure ⟨hx, he⟩
  · refine .bind .next fun _ _ => .bind (ih.expression .lowest) fun e he => ?_
    exact .bind (.move fun c hc => hc.skipPast _) fun _ _ => .pure he
  · refine .bind (ih.expression .lowest) fun e he => ?_
    exact .bind (.move fun c hc => hc.skipRun _) fun _ _ => .pure he

end MakesAll

/-- Without depth nothing is made, and each further level puts well-formed parts together. -/
theorem makes_all : ∀ depth, MakesAll depth
  | 0 =>
    { expression := fun _ => by rw [expression]; exact .exhausted
      operand := by rw [operand]; exact .exhausted
      conditional := by rw [conditional]; exact .exhausted
      functionLiteral := by rw [functionLiteral]; exact .exhausted
      climb := fun _ _ _ => by rw [climb]; exact .exhausted
      arguments := by rw [arguments]; exact .exhausted
      moreArguments := by rw [moreArguments]; exact .exhausted
      block := by rw [block]; exact .exhausted
      statement := by rw [statement]; exact .exhausted }
  | depth + 1 =>
    have ih := makes_all depth
    { expression := ih.expression_succ
      operand := ih.operand_succ
      conditional := ih.conditional_succ
      functionLiteral := ih.functionLiteral_succ
      climb := fun level _ hleft => ih.climb_succ level hleft
      arguments := ih.arguments_succ
      moreArguments := ih.moreArguments_succ
      block := ih.block_succ
      statement := ih.statement_succ }

/-- The statements of a program are well-formed, and so are the errors of those left out. -/
theorem makes_program : ∀ depth, Makes StmtsWellFormed (program depth)
  | 0 => by rw [program]; exact .exhausted
  | depth + 1 => by
    rw [program]
    refine .bind .peek fun t _ => ?_
    split
    · exact .pure trivial
    · refine .bind (.attempt (makes_all depth).statement) fun r hr => ?_
      -- A broken statement is left out, and reading goes on behind it.
      cases r with
      | ok s => exact .bind (makes_program depth) fun ss hss => .pure ⟨hr.1 s rfl, hss⟩
      | error err =>
        refine .bind (.record (hr.2 err rfl)) fun _ _ => ?_
        exact .bind (.move fun c hc => hc.recover) fun _ _ => makes_program depth

end Parser

/-- The program that is read from a source is well-formed, and so are the expressions of its errors,
whether or not there are any. -/
theorem parse_wellFormed (source : String) :
    StmtsWellFormed (parse source).program ∧ ∀ e ∈ (parse source).errors, e.WellFormed := by
  have hsound : (Cursor.ofSource source).Sound := fun t ht => sound_of_mem_scan ht
  have hout := Parser.makes_program _ _ hsound _ (Cursor.ofSource source).parse_eq
  exact ⟨hout.value _ rfl, hout.errors⟩

end LetLang
