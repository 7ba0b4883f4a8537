import LetLang.Proofs.Parse.Levels
import LetLang.Proofs.Parse.Steps

/-!
# Invariants of reading

What is said of a run of a parser by the place where it starts, the errors that it finds and the
place where it stops. If such a relation of cursors holds where nothing is read, is kept by runs one
after the other, and holds of the steps by which a parser reads a token or finds an error, it holds
of every run of every parser (`keeps_all`).

That a parser stops at a later place of the same source is such a relation (`statement_precedes`).
-/

set_option autoImplicit false

namespace LetLang

variable {β γ : Type}

namespace Parser

/-- A relation between the place where a parser starts, the errors it finds and the place where it
stops, that holds of each step of a parser and of steps one after the other. -/
structure Invariant (R : Cursor → List ParseError → Cursor → Prop) : Prop where
  stay : ∀ c, R c [] c
  trans : ∀ {c m c' : Cursor} {es es' : List ParseError},
    R c es m → R m es' c' → R c (es ++ es') c'
  advance : ∀ c : Cursor, R c [] c.advance
  unexpectedToken : ∀ (kind : TokenKind) (c : Cursor), R c [.unexpectedToken kind c.peek] c
  noOperand : ∀ c : Cursor, R c [.noOperand c.peek] c
  invalidInteger : ∀ c : Cursor, R c [.invalidInteger c.peek] c
  -- That an expression cannot be called is found behind the arguments.
  invalidCallee : ∀ {c c' : Cursor} {es : List ParseError} (callee : Expr Unit),
    c.peek.kind = .leftParen → R c.advance es c' →
    R c (es ++ [.invalidCallee callee c.peek.start]) c'

/-- The relation holds of what the parser does from `c`. -/
def KeepsAt (R : Cursor → List ParseError → Cursor → Prop) (p : Parser β) (c : Cursor) : Prop :=
  p.Ensures c fun out => R c out.faults out.cursor

/-- The relation holds of what the parser does from any cursor. -/
abbrev Keeps (R : Cursor → List ParseError → Cursor → Prop) (p : Parser β) : Prop :=
  ∀ c, KeepsAt R p c

/-- Errors recorded before a run come before those of the run. -/
theorem faults_after (es : List ParseError) (out : Outcome β) :
    (out.after es).faults = es ++ out.faults := by
  obtain ⟨value, errors, c⟩ := out
  cases value with
  | ok b => rfl
  | error e => exact List.append_assoc _ _ _

section Steps

variable {R : Cursor → List ParseError → Cursor → Prop} {c : Cursor}

theorem exhausted_keeps : KeepsAt R (exhausted : Parser β) c := .exhausted

/-- A step that reads a token needs what the rest does behind it. -/
theorem next_keeps {f : Token → Parser γ}
    (h : (f c.peek).Ensures c.advance fun out => R c out.faults out.cursor) :
    KeepsAt R (next >>= f) c := by
  intro out hout
  rw [next_bind] at hout
  exact h out hout

theorem lastKind_keeps {f : TokenKind → Parser γ} (h : KeepsAt R (f c.last) c) :
    KeepsAt R (lastKind >>= f) c := by
  intro out hout
  rw [lastKind_bind] at hout
  exact h out hout

end Steps

namespace Invariant

variable {R : Cursor → List ParseError → Cursor → Prop} (inv : Invariant R) {p : Parser β}
  {f : β → Parser γ} {c : Cursor}

include inv

theorem pure (b : β) : KeepsAt R (Pure.pure b : Parser β) c := by
  intro out hout
  cases hout
  exact inv.stay c

/-- Runs one after the other are runs, with the errors of both in order. -/
theorem bind (hp : KeepsAt R p c) (hf : ∀ b, Keeps R (f b)) : KeepsAt R (p >>= f) c := by
  intro out hout
  obtain ⟨e, es, m, hrun, rfl⟩ | ⟨b, es, m, out', hrun, hout', rfl⟩ := bind_eq_some hout
  · have hmid := hp _ hrun
    exact hmid
  · rw [faults_after]
    exact inv.trans (hp _ hrun) (hf b m out' hout')

/-- A caller that takes an error as a value and records it. -/
theorem attempt {f : Except ParseError β → Parser γ} (hp : KeepsAt R p c)
    (hok : ∀ b, Keeps R (f (.ok b)))
    (herror : ∀ e, ∃ g : Unit → Parser γ, f (.error e) = record e >>= g ∧ Keeps R (g ())) :
    KeepsAt R (attempt p >>= f) c := by
  intro out hout
  obtain ⟨value, es, m, out', hrun, hout', rfl⟩ := attempt_bind_eq_some hout
  have hmid := hp _ hrun
  cases value with
  | ok b =>
    rw [faults_after]
    exact inv.trans hmid (hok b m out' hout')
  | error e =>
    obtain ⟨g, hg, hkeeps⟩ := herror e
    rw [hg] at hout'
    obtain ⟨out'', hout'', rfl⟩ := record_bind_eq_some hout'
    rw [Outcome.after_after, faults_after]
    exact inv.trans hmid (hkeeps m out'' hout'')

/-- A move of the cursor must be a run without errors. -/
theorem move {g : Cursor → Cursor} {f : Unit → Parser γ} (hg : R c [] (g c))
    (hf : Keeps R (f ())) : KeepsAt R (Parser.move g >>= f) c := by
  intro out hout
  rw [move_bind] at hout
  exact inv.trans hg (hf (g c) out hout)

/-- What is done behind the next token is done from where that token stands. -/
theorem behind (hp : Keeps R p) : p.Ensures c.advance fun out => R c out.faults out.cursor :=
  fun out hout => inv.trans (inv.advance c) (hp c.advance out hout)

/-- An error about the token just read. -/
theorem fail_behind {e : ParseError} (he : R c [e] c) :
    (fail e : Parser β).Ensures c.advance fun out => R c out.faults out.cursor := by
  intro out hout
  cases hout
  have hboth := inv.trans he (inv.advance c)
  exact hboth

/-- An error about the expression before a parenthesis just read, found behind the arguments. -/
theorem callee_behind (hparen : c.peek.kind = .leftParen) (hp : Keeps R p) (callee : Expr Unit) :
    (p >>= fun _ => (fail (.invalidCallee callee c.peek.start) : Parser γ)).Ensures c.advance
      fun out => R c out.faults out.cursor := by
  intro out hout
  obtain ⟨e, es, m, hrun, rfl⟩ | ⟨b, es, m, out', hrun, hout', rfl⟩ := bind_eq_some hout
  · have hboth := inv.trans (inv.advance c) (hp _ _ hrun)
    exact hboth
  · cases hout'
    show R c ((es ++ []) ++ _) m
    rw [List.append_nil]
    exact inv.invalidCallee callee hparen (hp _ _ hrun)

/-- A token that is expected is read, or its absence is the error. -/
theorem expect {kind : TokenKind} {f : Token → Parser γ} (hf : ∀ t, Keeps R (f t)) :
    KeepsAt R (Parser.expect kind >>= f) c := by
  intro out hout
  rw [expect_bind] at hout
  split at hout
  · exact inv.behind (hf c.peek) out hout
  · cases hout
    exact inv.unexpectedToken kind c

/-- Skipping is reading tokens one by one. -/
theorem skipPast (chosen : TokenKind → Bool) : R c [] (c.skipPast chosen) := by
  have hgo : ∀ (ts : List Token) (last : TokenKind),
      R ⟨last, ts, c.stop⟩ [] (Cursor.skipPast.go chosen c ts) := by
    intro ts
    induction ts with
    | nil => exact fun last => inv.advance ⟨last, [], c.stop⟩
    | cons t ts ih =>
      intro last
      have hnext := inv.advance ⟨last, t :: ts, c.stop⟩
      rw [Cursor.skipPast.go]
      split
      · exact hnext
      · exact inv.trans hnext (ih t.kind)
  exact hgo c.unread c.last

theorem skipRun (kind : TokenKind) : R c [] (c.skipRun kind) := by
  have hgo : ∀ (ts : List Token) (last : TokenKind),
      R ⟨last, ts, c.stop⟩ [] (Cursor.skipRun.go kind c last ts) := by
    intro ts
    induction ts with
    | nil => exact fun last => inv.stay ⟨last, [], c.stop⟩
    | cons t ts ih =>
      intro last
      rw [Cursor.skipRun.go]
      split
      · exact inv.trans (inv.advance ⟨last, t :: ts, c.stop⟩) (ih t.kind)
      · exact inv.stay _
  exact hgo c.unread c.last

/-- Recovery skips, or stays where it is. -/
theorem recover : R c [] c.recover := by
  rw [Cursor.recover]
  split
  · exact inv.stay c
  · exact inv.skipPast _

end Invariant

/-! ## One lemma for each parser -/

section Names

variable {R : Cursor → List ParseError → Cursor → Prop}

/-- By induction on the depth, with one expected name for each parameter. -/
theorem keeps_moreParameters (inv : Invariant R) : ∀ depth, Keeps R (moreParameters depth)
  | 0, c => by rw [moreParameters]; exact exhausted_keeps
  | depth + 1, c => by
    rw [moreParameters]
    refine .peek ?_
    split
    · refine next_keeps (inv.behind fun _ => inv.expect fun x _ => ?_)
      exact inv.bind (keeps_moreParameters inv depth _) fun xs _ => inv.pure _
    · exact inv.expect fun _ _ => inv.pure _

theorem keeps_parameters (inv : Invariant R) (depth : Nat) : Keeps R (parameters depth) := by
  intro c
  rw [parameters]
  refine .peek ?_
  split
  · exact next_keeps (inv.behind fun _ => inv.pure _)
  · refine inv.expect fun x _ => ?_
    exact inv.bind (keeps_moreParameters inv depth _) fun xs _ => inv.pure _

end Names

/-- The relation holds of all parsers of a depth. -/
structure KeepsAll (R : Cursor → List ParseError → Cursor → Prop) (depth : Nat) : Prop where
  expression : ∀ level, Keeps R (expression depth level)
  operand : Keeps R (operand depth)
  conditional : Keeps R (conditional depth)
  functionLiteral : Keeps R (functionLiteral depth)
  climb : ∀ level left, Keeps R (climb depth level left)
  arguments : Keeps R (arguments depth)
  moreArguments : Keeps R (moreArguments depth)
  block : Keeps R (block depth)
  statement : Keeps R (statement depth)

namespace KeepsAll

variable {R : Cursor → List ParseError → Cursor → Prop} {depth : Nat} (ih : KeepsAll R depth)
  (inv : Invariant R)

include ih inv

theorem expression_succ (level : Precedence) : Keeps R (Parser.expression (depth + 1) level) := by
  intro c
  rw [Parser.expression]
  exact inv.bind (ih.operand c) fun left => ih.climb level left

/-- An operand reads a token first, so it may find an error about that token. -/
theorem operand_succ : Keeps R (Parser.operand (depth + 1)) := by
  intro c
  rw [Parser.operand]
  refine next_keeps ?_
  split
  · exact inv.behind fun _ => inv.pure _
  · split
    · exact inv.behind fun _ => inv.pure _
    · exact inv.fail_behind (inv.invalidInteger c)
  · exact inv.behind fun _ => inv.pure _
  · exact inv.behind fun _ => inv.pure _
  · refine inv.behind fun _ => inv.bind (ih.expression .lowest _) fun e _ => ?_
    exact inv.expect fun _ _ => inv.pure _
  · exact inv.behind ih.conditional
  · exact inv.behind ih.functionLiteral
  · split
    · exact inv.behind fun _ => inv.bind (ih.expression .unary _) fun e _ => inv.pure _
    · exact inv.fail_behind (inv.noOperand c)

theorem conditional_succ : Keeps R (Parser.conditional (depth + 1)) := by
  intro c
  rw [Parser.conditional]
  refine inv.expect fun _ _ => inv.bind (ih.expression .lowest _) fun e _ => ?_
  refine inv.expect fun _ _ => inv.expect fun _ _ => ?_
  refine inv.bind (ih.block _) fun ss _ => .peek ?_
  split
  · refine next_keeps (inv.behind fun _ => inv.expect fun _ _ => ?_)
    exact inv.bind (ih.block _) fun ss' _ => inv.pure _
  · exact inv.pure _

theorem functionLiteral_succ : Keeps R (Parser.functionLiteral (depth + 1)) := by
  intro c
  rw [Parser.functionLiteral]
  refine inv.expect fun _ _ => inv.bind (keeps_parameters inv depth _) fun xs _ => ?_
  exact inv.expect fun _ _ => inv.bind (ih.block _) fun ss _ => inv.pure _

/-- The loop reads an operator, or the parenthesis that the error of a wrong callee points to. -/
theorem climb_succ (level : Precedence) (left : Expr Unit) :
    Keeps R (Parser.climb (depth + 1) level left) := by
  intro c
  rw [Parser.climb]
  refine .peek ?_
  split
  · next hlevel =>
    refine next_keeps ?_
    split
    · refine inv.behind fun _ => inv.bind (ih.expression _ _) fun right => ?_
      exact ih.climb level _
    · next hop =>
      have hparen : c.peek.kind = .leftParen := by
        have hlowest : .lowest < c.peek.kind.precedence :=
          Nat.lt_of_le_of_lt (Nat.zero_le level.rank) hlevel
        rcases Grammar.binaryOp?_or_leftParen hlowest with ⟨op, hop'⟩ | hparen
        · rw [hop] at hop'
          cases hop'
        · exact hparen
      cases left with
      | callable f =>
        exact inv.behind fun _ => inv.bind (ih.arguments _) fun args => ih.climb level _
      | _ => exact inv.callee_behind hparen ih.arguments _
  · exact inv.pure _

theorem arguments_succ : Keeps R (Parser.arguments (depth + 1)) := by
  intro c
  rw [Parser.arguments]
  refine .peek ?_
  split
  · exact next_keeps (inv.behind fun _ => inv.pure _)
  · refine inv.bind (ih.expression .lowest c) fun e _ => ?_
    exact inv.bind (ih.moreArguments _) fun es _ => inv.pure _

theorem moreArguments_succ : Keeps R (Parser.moreArguments (depth + 1)) := by
  intro c
  rw [Parser.moreArguments]
  refine .peek ?_
  split
  · refine next_keeps (inv.behind fun _ => inv.attempt (ih.expression .lowest _) ?_ ?_)
    · exact fun e _ => inv.bind (ih.moreArguments _) fun es _ => inv.pure _
    · exact fun e => ⟨_, rfl, ih.moreArguments⟩
  · exact inv.expect fun _ _ => inv.pure _

/-- The error of a broken statement is recorded, and the run goes on where recovery ends. -/
theorem block_succ : Keeps R (Parser.block (depth + 1)) := by
  intro c
  rw [Parser.block]
  refine .peek ?_
  split
  · exact next_keeps (inv.behind fun _ => inv.pure _)
  · exact next_keeps (inv.fail_behind (inv.unexpectedToken .rightBrace c))
  · refine inv.attempt (ih.statement c) ?_ ?_
    · exact fun s _ => inv.bind (ih.block _) fun ss _ => inv.pure _
    · refine fun e => ⟨_, rfl, fun m => inv.move inv.recover fun m' => ?_⟩
      refine lastKind_keeps ?_
      split
      · exact inv.pure _
      · exact ih.block _

theorem statement_succ : Keeps R (Parser.statement (depth + 1)) := by
  intro c
  rw [Parser.statement]
  refine .peek ?_
  split
  · refine next_keeps (inv.behind fun _ => inv.expect fun x _ => inv.expect fun _ _ => ?_)
    refine inv.bind (ih.expression .lowest _) fun e _ => ?_
    exact inv.move (inv.skipPast _) fun _ => inv.pure _
  · refine next_keeps (inv.behind fun _ => inv.bind (ih.expression .lowest _) fun e _ => ?_)
    exact inv.move (inv.skipPast _) fun _ => inv.pure _
  · refine inv.bind (ih.expression .lowest c) fun e _ => ?_
    exact inv.move (inv.skipRun _) fun _ => inv.pure _

end KeepsAll

/-- Without depth there is no run, and each further level only puts runs one after the other. -/
theorem Invariant.keeps_all {R : Cursor → List ParseError → Cursor → Prop} (inv : Invariant R) :
    ∀ depth, KeepsAll R depth
  | 0 =>
    { expression := fun _ _ => by rw [expression]; exact exhausted_keeps
      operand := fun _ => by rw [operand]; exact exhausted_keeps
      conditional := fun _ => by rw [conditional]; exact exhausted_keeps
      functionLiteral := fun _ => by rw [functionLiteral]; exact exhausted_keeps
      climb := fun _ _ _ => by rw [climb]; exact exhausted_keeps
      arguments := fun _ => by rw [arguments]; exact exhausted_keeps
      moreArguments := fun _ => by rw [moreArguments]; exact exhausted_keeps
      block := fun _ => by rw [block]; exact exhausted_keeps
      statement := fun _ => by rw [statement]; exact exhausted_keeps }
  | depth + 1 =>
    have ih := inv.keeps_all depth
    { expression := ih.expression_succ inv
      operand := ih.operand_succ inv
      conditional := ih.conditional_succ inv
      functionLiteral := ih.functionLiteral_succ inv
      climb := ih.climb_succ inv
      arguments := ih.arguments_succ inv
      moreArguments := ih.moreArguments_succ inv
      block := ih.block_succ inv
      statement := ih.statement_succ inv }

end Parser

/-! ## A parser stops behind the place where it starts -/

/-- The second cursor is a place of the same source, not before the first. -/
structure Cursor.Precedes (c c' : Cursor) : Prop where
  suffix : c'.unread <:+ c.unread
  stop : c'.stop = c.stop

/-- Every step of a parser stops at the same place or a later one. -/
theorem Parser.precedes_invariant : Invariant fun c _ c' => c.Precedes c' where
  stay := fun _ => ⟨List.suffix_refl _, rfl⟩
  trans := fun h h' => ⟨h'.suffix.trans h.suffix, h'.stop.trans h.stop⟩
  advance := fun c => ⟨List.tail_suffix c.unread, rfl⟩
  unexpectedToken := fun _ _ => ⟨List.suffix_refl _, rfl⟩
  noOperand := fun _ => ⟨List.suffix_refl _, rfl⟩
  invalidInteger := fun _ => ⟨List.suffix_refl _, rfl⟩
  invalidCallee := fun {c _ _} _ _ h => ⟨h.suffix.trans (List.tail_suffix c.unread), h.stop⟩

namespace Cursor

variable (c : Cursor)

theorem precedes_skipPast (chosen : TokenKind → Bool) : c.Precedes (c.skipPast chosen) :=
  Parser.precedes_invariant.skipPast chosen

theorem precedes_skipRun (kind : TokenKind) : c.Precedes (c.skipRun kind) :=
  Parser.precedes_invariant.skipRun kind

theorem precedes_recover : c.Precedes c.recover := Parser.precedes_invariant.recover

end Cursor

/-- A statement, sound or broken, stops at a later place. -/
theorem Parser.statement_precedes {depth : Nat} {c : Cursor} {out : Outcome (Stmt Unit)}
    (hrun : statement depth c = some out) : c.Precedes out.cursor :=
  (precedes_invariant.keeps_all depth).statement c out hrun

end LetLang
