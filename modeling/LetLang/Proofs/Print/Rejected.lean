import LetLang.Proofs.Print.Reparse

/-!
# Canonical texts that are rejected

A condition that is no operation stands behind its `if` without a parenthesis, and there the parser
stops. Whatever it reads afterwards, this error is the first one of the whole text: it is kept by
every parser that goes on, and by every one that records it (`LacksParen`).
-/

set_option autoImplicit false

namespace LetLang

open Grammar

/-! ## The first error -/

/-- The first error is a missing opening parenthesis. -/
def LacksParen {β : Type} (out : Outcome β) : Prop :=
  ∃ got es, out.faults = .unexpectedToken .leftParen got :: es

/-- An error recorded first stays the first one. -/
theorem lacksParen_after {β : Type} (got : Token) (es : List ParseError) (out : Outcome β) :
    LacksParen (out.after (.unexpectedToken .leftParen got :: es)) := by
  obtain ⟨value, errors, m⟩ := out
  cases value with
  | ok b => exact ⟨got, es ++ errors, rfl⟩
  | error e => exact ⟨got, (es ++ errors) ++ [e], rfl⟩

namespace Parser

variable {β γ : Type} {p : Parser β} {c : Cursor}

/-- An error of the first part is the first error of both. -/
theorem lacks_bind {f : β → Parser γ} (h : p.Ensures c LacksParen) :
    (p >>= f).Ensures c LacksParen := by
  intro out hout
  obtain ⟨e, es, m, hp, rfl⟩ | ⟨b, es, m, out', hp, -, rfl⟩ := bind_eq_some hout
  · obtain ⟨got, es', hfaults⟩ := h _ hp
    exact ⟨got, es', hfaults⟩
  · obtain ⟨got, es', hfaults⟩ := h _ hp
    obtain rfl : es = .unexpectedToken .leftParen got :: es' := hfaults
    exact lacksParen_after got es' out'

/-- An error that a caller records is the first error of the caller. -/
theorem lacks_attempt {f : Except ParseError β → Parser γ} (h : p.Ensures c LacksParen)
    (hf : ∀ e, ∃ k : Unit → Parser γ, f (.error e) = record e >>= k) :
    (attempt p >>= f).Ensures c LacksParen := by
  intro out hout
  obtain ⟨value, es, m, out', hp, hout', rfl⟩ := attempt_bind_eq_some hout
  obtain ⟨got, es', hfaults⟩ := h _ hp
  cases value with
  | ok b =>
    obtain rfl : es = .unexpectedToken .leftParen got :: es' := hfaults
    exact lacksParen_after got es' out'
  | error e =>
    -- The recorded error comes behind those that were recorded before it.
    obtain ⟨k, hk⟩ := hf e
    rw [hk] at hout'
    obtain ⟨out'', -, rfl⟩ := record_bind_eq_some hout'
    have herrors : es ++ [e] = .unexpectedToken .leftParen got :: es' := hfaults
    rw [Outcome.after_after, herrors]
    exact lacksParen_after got es' out''

/-- Where another word stands, an expected parenthesis is missing. -/
theorem lacks_expect {f : Token → Parser γ} (h : nextKind c.words ≠ .leftParen) :
    (expect .leftParen >>= f).Ensures c LacksParen := by
  intro out hout
  rw [expect_bind, if_neg (by rwa [Cursor.peek_kind])] at hout
  cases hout
  exact ⟨c.peek, [], rfl⟩

/-! ## Parsers of parts -/

section Parts

variable {depth : Nat}

/-- An expression starts with its operand, so an error there is its first one. -/
theorem expression_lacks {level : Precedence} (h : ∀ d, (operand d).Ensures c LacksParen) :
    (expression depth level).Ensures c LacksParen := by
  cases depth with
  | zero => exact .exhausted
  | succ depth =>
    rw [expression]
    exact lacks_bind (h depth)

/-- A conditional expects a parenthesis before anything else. -/
theorem conditional_lacks (h : nextKind c.words ≠ .leftParen) :
    (conditional depth).Ensures c LacksParen := by
  cases depth with
  | zero => exact .exhausted
  | succ depth =>
    rw [conditional]
    exact lacks_expect h

theorem moreArguments_lacks {w : Word} {ws : List Word} (hc : c.words = w :: ws)
    (hw : w.kind = .comma)
    (h : ∀ (d : Nat) (m : Cursor), m.words = ws → (expression d .lowest).Ensures m LacksParen) :
    (moreArguments depth).Ensures c LacksParen := by
  cases depth with
  | zero => exact .exhausted
  | succ depth =>
    rw [moreArguments]
    refine .peek ?_
    rw [Cursor.peek_kind, hc, nextKind_cons, if_pos hw]
    refine .next hc fun _ m _ hm => ?_
    exact lacks_attempt (h depth m hm) fun e => ⟨_, rfl⟩

/-- The error of the first statement is the first error of the block. -/
theorem block_lacks (hbrace : nextKind c.words ≠ .rightBrace) (heof : nextKind c.words ≠ .eof)
    (h : ∀ d, (statement d).Ensures c LacksParen) : (block depth).Ensures c LacksParen := by
  cases depth with
  | zero => exact .exhausted
  | succ depth =>
    rw [block]
    refine .peek ?_
    split
    · next hkind => exact absurd (c.peek_kind.symm.trans hkind) hbrace
    · next hkind => exact absurd (c.peek_kind.symm.trans hkind) heof
    · exact lacks_attempt (h depth) fun e => ⟨_, rfl⟩

theorem program_lacks (heof : nextKind c.words ≠ .eof)
    (h : ∀ d, (statement d).Ensures c LacksParen) : (program depth).Ensures c LacksParen := by
  cases depth with
  | zero => exact .exhausted
  | succ depth =>
    rw [program]
    refine .peek ?_
    rw [Cursor.peek_kind, if_neg heof]
    exact lacks_attempt (h depth) fun e => ⟨_, rfl⟩

end Parts

end Parser

open LetLang.Parser

/-! ## The first word of a canonical text -/

/-- A callable expression starts with a name or a function literal. -/
theorem Callable.nextKind_words (c : Callable Unit) (rest : List Word) :
    nextKind (c.words ++ rest) ∈ [TokenKind.identifier, .functionWord] := by
  cases c with
  | name x => exact List.mem_cons_self
  | func l xs body => exact List.mem_cons_of_mem _ List.mem_cons_self

/-- A numeral starts with a digit or with a sign. -/
theorem Numeral.nextKind_words (v : Int64) (rest : List Word) :
    nextKind (Numeral.words v ++ rest) ∈ [TokenKind.integer, .minus] := by
  rw [Numeral.words]
  split
  · exact List.mem_cons_of_mem _ List.mem_cons_self
  · exact List.mem_cons_self

/-- The text of an expression starts like an expression. -/
theorem Expr.nextKind_words (e : Expr Unit) (rest : List Word) :
    nextKind (e.words ++ rest) ∈ starting := by
  have hcallable : ∀ kind ∈ [TokenKind.identifier, .functionWord], kind ∈ starting := by decide
  have hnumeral : ∀ kind ∈ [TokenKind.integer, .minus], kind ∈ starting := by decide
  cases e with
  | int v => exact hnumeral _ (Numeral.nextKind_words v rest)
  | callable c => exact hcallable _ (c.nextKind_words rest)
  | call f args =>
    rw [Expr.words, List.append_assoc]
    exact hcallable _ (f.nextKind_words _)
  | bool b => cases b <;> simp [Expr.words, starting]
  | _ => simp [Expr.words, starting]

/-- Only an operation starts with a parenthesis. -/
theorem Expr.nextKind_words_ne {e : Expr Unit} (h : e.isOperation = false) (rest : List Word) :
    nextKind (e.words ++ rest) ≠ .leftParen := by
  have hcallable : ∀ kind ∈ [TokenKind.identifier, .functionWord], kind ≠ .leftParen := by decide
  have hnumeral : ∀ kind ∈ [TokenKind.integer, .minus], kind ≠ .leftParen := by decide
  cases e with
  | int v => exact hnumeral _ (Numeral.nextKind_words v rest)
  | callable c => exact hcallable _ (c.nextKind_words rest)
  | call f args =>
    rw [Expr.words, List.append_assoc]
    exact hcallable _ (f.nextKind_words _)
  | bool b => cases b <;> simp [Expr.words]
  | unary op e => cases h
  | binary op l r => cases h
  | _ => simp [Expr.words]

theorem Stmt.nextKind_words (s : Stmt Unit) (rest : List Word) :
    nextKind (s.words ++ rest) ∈ .letWord :: .returnWord :: starting := by
  cases s with
  | letDecl x e => exact List.mem_cons_self
  | ret e => exact List.mem_cons_of_mem _ List.mem_cons_self
  | expr e =>
    rw [Stmt.words, List.append_assoc]
    exact List.mem_cons_of_mem _ (List.mem_cons_of_mem _ (e.nextKind_words _))

theorem Stmt.nextKind_words_ne (s : Stmt Unit) (rest : List Word) {kind : TokenKind}
    (hkind : kind ∉ .letWord :: .returnWord :: starting) : nextKind (s.words ++ rest) ≠ kind := by
  rintro rfl
  exact hkind (s.nextKind_words rest)

/-- A sequence with a condition that is no operation is not empty, so no semicolon stands first. -/
theorem nextKind_stmtsWords_ne {ss : List (Stmt Unit)} (h : ¬ StmtsTestOperations ss)
    (rest : List Word) : nextKind (stmtsWords ss ++ rest) ≠ .semicolon := by
  cases ss with
  | nil => exact absurd trivial h
  | cons s ss =>
    rw [stmtsWords, List.append_assoc]
    exact s.nextKind_words_ne _ (by decide)

/-! ## The first condition without parentheses -/

/-- The parser breaks off with a missing parenthesis where it reads the words of the expression, and
for an operation also behind the parenthesis that opens it. -/
structure Expr.Breaks (e : Expr Unit) : Prop where
  whole : ∀ {depth : Nat} {level : Precedence} {c : Cursor} {rest : List Word}, level ≠ .call →
    c.words = e.words ++ rest → (expression depth level).Ensures c LacksParen
  inside : ∀ {depth : Nat} {c : Cursor} {ws rest : List Word},
    e.words = ⟨.leftParen, "("⟩ :: ws → c.words = ws ++ rest →
      (expression depth .lowest).Ensures c LacksParen

/-- The parser breaks off with a missing parenthesis in the words, read as statements of a block. -/
def BlockBreaks (ss : List (Stmt Unit)) : Prop :=
  ∀ {depth : Nat} {c : Cursor} {rest : List Word},
    c.words = stmtsWords ss ++ rest → (block depth).Ensures c LacksParen

section Breaks

variable {e l r : Expr Unit} {t : List (Stmt Unit)} {depth : Nat} {c : Cursor} {rest : List Word}

theorem Expr.Breaks.of_whole (he : e.isOperation = false)
    (h : ∀ {depth : Nat} {level : Precedence} {c : Cursor} {rest : List Word}, level ≠ .call →
      c.words = e.words ++ rest → (expression depth level).Ensures c LacksParen) : e.Breaks := by
  refine ⟨h, fun {_ _ ws rest} hwords _ => ?_⟩
  have hne := Expr.nextKind_words_ne he rest
  rw [hwords] at hne
  exact absurd rfl hne

theorem Expr.Breaks.of_operand (he : e.isOperation = false)
    (h : ∀ {depth : Nat} {c : Cursor} {rest : List Word}, c.words = e.words ++ rest →
      (operand depth).Ensures c LacksParen) : e.Breaks :=
  .of_whole he fun _ hc => expression_lacks fun _ => h hc

/-- An expression in parentheses breaks off if it does so behind the first of them. -/
theorem Expr.Breaks.of_inside {inner : List Word} (hwords : e.words = ⟨.leftParen, "("⟩ :: inner)
    (h : ∀ {depth : Nat} {c : Cursor} {rest : List Word}, c.words = inner ++ rest →
      (expression depth .lowest).Ensures c LacksParen) : e.Breaks := by
  refine ⟨fun {_ _ c rest} _ hc => ?_, fun hinner hc => ?_⟩
  · rw [hwords, List.cons_append] at hc
    exact expression_lacks fun _ => operand_group hc rfl fun _ _ hm => lacks_bind (h hm)
  · obtain rfl := (List.cons.inj (hwords.symm.trans hinner)).2
    exact h hc

theorem Expr.Breaks.unary (op : UnaryOp) (h : e.Breaks) : (Expr.unary op e).Breaks := by
  refine .of_inside rfl fun {depth c rest} hc => ?_
  rw [List.cons_append, List.append_assoc] at hc
  refine expression_lacks fun _ => operand_prefix hc op.mem_prefixOps fun _ m hm => ?_
  exact lacks_bind (h.whole (by decide) hm)

theorem Expr.Breaks.left (op : BinaryOp) (r : Expr Unit) (h : l.Breaks) :
    (Expr.binary op l r).Breaks := by
  refine .of_inside rfl fun {depth c rest} hc => ?_
  rw [List.append_assoc] at hc
  exact h.whole (by decide) hc

/-- The left operand is read back, and behind the operator the right one breaks off. -/
theorem Expr.Breaks.right (op : BinaryOp) (hwf : l.WellFormed) (hl : l.TestsOperations)
    (h : r.Breaks) : (Expr.binary op l r).Breaks := by
  refine .of_inside rfl fun {depth c rest} hc => ?_
  rw [List.append_assoc, List.cons_append, List.append_assoc] at hc
  have hleft := l.derives hwf hl (op.word :: (r.words ++ ([⟨.rightParen, ")"⟩] ++ rest)))
    (follows_word op)
  have hcall : op.precedence ≠ .call := by cases op <;> decide
  have hlowest : Precedence.lowest < op.precedence := by cases op <;> decide
  have hnext : op.word.kind.precedence.rank ≤ Precedence.unary.rank := by cases op <;> decide
  -- The left operand is read as far as the operator, and climbing goes on with the right one.
  refine hleft.ensures (by decide) (by decide) hc hnext (follows_word op).leftParen
    fun d m hm => ?_
  refine climb_binary hm op.mem_binaryOps hlowest fun d' m' hm' => ?_
  exact lacks_bind (h.whole hcall hm')

/-- A conditional whose condition is an operation is read up to its first block. -/
theorem conditional_body {e : Expr Unit} {Q : Outcome (Expr Unit) → Prop} {ws tail : List Word}
    (hwf : e.WellFormed) (hop : e.isOperation = true) (htests : e.TestsOperations)
    (hc : c.words = e.words ++ (bracedWords ws ++ tail))
    (h : ∀ (d : Nat) (m : Cursor), m.words = ws ++ ⟨.rightBrace, "\x7d"⟩ :: tail →
      (block d >>= fun consequence => peek >>= fun t =>
        if t.kind = .elseWord then
          next >>= fun _ => expect .leftBrace >>= fun _ => block d >>= fun alternative =>
            Pure.pure (Expr.ifElse e consequence alternative)
        else Pure.pure (Expr.ifThen e consequence)).Ensures m Q) :
    (conditional depth).Ensures c Q := by
  obtain ⟨ws', hws⟩ := Expr.words_of_isOperation hop
  have hcond := e.derives hwf htests _ (@follows_bracedWords ws tail)
  rw [hws, List.cons_append] at hcond hc
  obtain ⟨close, hinside, hclose⟩ := hcond.inside rfl hop
  refine conditional_open hc rfl fun d m hm => ?_
  refine .bind (hinside.yields hm) fun n hn => .expect hn hclose fun _ n' _ hn' => ?_
  have hbrace : n'.words = ⟨.leftBrace, "\x7b"⟩ :: (ws ++ ⟨.rightBrace, "\x7d"⟩ :: tail) := by
    rw [hn']
    simp [bracedWords]
  exact .expect hbrace rfl fun _ m' _ hm' => h d m' hm'

/-- A conditional breaks off at its condition or in its first block. -/
theorem conditional_breaks {e : Expr Unit} (hwf : e.WellFormed)
    (hbad : ¬ (e.isOperation = true ∧ e.TestsOperations ∧ StmtsTestOperations t))
    (he : ¬ e.TestsOperations → e.Breaks) (ht : ¬ StmtsTestOperations t → BlockBreaks t)
    (hc : c.words = e.words ++ (bracedWords (stmtsWords t) ++ rest)) :
    (conditional depth).Ensures c LacksParen := by
  by_cases hop : e.isOperation = true
  · by_cases htests : e.TestsOperations
    · -- The condition is sound, so the block is not.
      have hblock : BlockBreaks t := ht fun h => hbad ⟨hop, htests, h⟩
      exact conditional_body hwf hop htests hc fun d m hm => lacks_bind (hblock hm)
    · -- The condition opens with a parenthesis and breaks off inside of it.
      obtain ⟨ws, hws⟩ := Expr.words_of_isOperation hop
      rw [hws, List.cons_append] at hc
      exact conditional_open hc rfl fun d m hm => lacks_bind ((he htests).inside hws hm)
  · -- The condition is no operation, and its first word is no parenthesis.
    refine conditional_lacks ?_
    rw [hc]
    exact Expr.nextKind_words_ne (Bool.eq_false_iff.2 hop) _

/-- A conditional whose condition and first block are sound breaks off in its second block. -/
theorem alternative_breaks {e : Expr Unit} {u : List (Stmt Unit)} (hwf : e.WellFormed)
    (ht : StmtsWellFormed t)
    (hgood : e.isOperation = true ∧ e.TestsOperations ∧ StmtsTestOperations t) (hu : BlockBreaks u)
    (hc : c.words = e.words ++ (bracedWords (stmtsWords t) ++
      ⟨.elseWord, "else"⟩ :: (bracedWords (stmtsWords u) ++ rest))) :
    (conditional depth).Ensures c LacksParen := by
  obtain ⟨hop, htests, htt⟩ := hgood
  refine conditional_body hwf hop htests hc fun d m hm => ?_
  refine .bind ((stmts_derive t ht htt _).yields_block hm rfl rfl) fun n hn => .peek ?_
  rw [Cursor.peek_kind, hn, nextKind_cons, if_pos rfl]
  refine .next hn fun _ n' _ hn' => ?_
  have hbrace : n'.words = ⟨.leftBrace, "\x7b"⟩ ::
      (stmtsWords u ++ ⟨.rightBrace, "\x7d"⟩ :: rest) := by
    rw [hn']
    simp [bracedWords]
  exact .expect hbrace rfl fun _ m' _ hm' => lacks_bind (hu hm')

end Breaks

mutual

/-- An expression with a condition that is no operation breaks off, by induction on the tree. -/
theorem Expr.breaks : ∀ e : Expr Unit, e.WellFormed → ¬ e.TestsOperations → e.Breaks
  | .callable f, hwf, hbad => .of_operand rfl fun hc => f.breaks hwf hbad hc
  | .int _, _, hbad => absurd trivial hbad
  | .bool _, _, hbad => absurd trivial hbad
  | .unary op e, hwf, hbad => .unary op (e.breaks hwf hbad)
  | .binary op l r, ⟨hl, hr⟩, hbad => by
    -- The left operand is read first, so its condition is the first to be missed.
    by_cases hleft : l.TestsOperations
    · exact .right op hl hleft (r.breaks hr fun hright => hbad ⟨hleft, hright⟩)
    · exact .left op r (l.breaks hl hleft)
  | .ifThen e t, ⟨he, ht⟩, hbad => by
    refine .of_operand rfl fun {depth c rest} hc => ?_
    rw [Expr.words, List.cons_append, List.append_assoc] at hc
    refine operand_if hc rfl fun d m hm => ?_
    exact conditional_breaks he hbad (e.breaks he) (block_breaks t ht) hm
  | .ifElse e t u, ⟨he, ht, hu⟩, hbad => by
    refine .of_operand rfl fun {depth c rest} hc => ?_
    rw [Expr.words, List.cons_append, List.append_assoc, List.append_assoc] at hc
    refine operand_if hc rfl fun d m hm => ?_
    -- The second block is reached only if the condition and the first block are sound.
    by_cases hfirst : e.isOperation = true ∧ e.TestsOperations ∧ StmtsTestOperations t
    · have hu' : ¬ StmtsTestOperations u := by
        intro h
        obtain ⟨hop, htests, htt⟩ := hfirst
        exact hbad ⟨hop, htests, htt, h⟩
      exact alternative_breaks he ht hfirst (block_breaks u hu hu') hm
    · exact conditional_breaks he hfirst (e.breaks he) (block_breaks t ht) hm
  | .call f args, ⟨hf, hargs⟩, hbad => by
    refine .of_whole rfl fun {depth level c rest} hlevel hc => ?_
    rw [Expr.words, List.append_assoc, List.cons_append] at hc
    -- The arguments are reached only if the function is sound.
    by_cases hcallee : f.TestsOperations
    · refine expression_operand (fun d => (f.derives hf hcallee _).yields hc) fun d m hm => ?_
      refine climb_call hm rfl hlevel fun d' m' hm' => lacks_bind ?_
      exact arguments_break args hargs (fun h => hbad ⟨hcallee, h⟩) hm'
    · exact expression_lacks fun d => f.breaks hf hcallee hc

theorem Callable.breaks : ∀ f : Callable Unit, f.WellFormed → ¬ f.TestsOperations →
    ∀ {depth : Nat} {c : Cursor} {rest : List Word}, c.words = f.words ++ rest →
      (operand depth).Ensures c LacksParen
  | .name _, _, hbad, _, _, _, _ => absurd trivial hbad
  | .func l xs body, ⟨_, hbody⟩, hbad, _, _, rest, hc => by
    have hwords : (Callable.func l xs body).words ++ rest = ⟨.functionWord, "fn"⟩ ::
        ⟨.leftParen, "("⟩ :: (listedWords (xs.map fun x => [⟨.identifier, x⟩]) ++
          ⟨.leftBrace, "\x7b"⟩ :: (stmtsWords body ++ ⟨.rightBrace, "\x7d"⟩ :: rest)) := by
      simp [Callable.words, bracedWords]
    rw [hwords] at hc
    refine operand_function hc rfl fun d m hm => functionLiteral_open hm rfl fun d' m' hm' => ?_
    refine .bind (parameters_yields (.of_names xs _) hm') fun n hn => ?_
    refine .expect hn rfl fun _ n' _ hn' => lacks_bind ?_
    exact block_breaks body hbody hbad hn'

theorem arguments_break : ∀ es : List (Expr Unit), ExprsWellFormed es → ¬ ExprsTestOperations es →
    ∀ {depth : Nat} {c : Cursor} {rest : List Word},
      c.words = listedWords (exprsWords es) ++ rest → (arguments depth).Ensures c LacksParen
  | [], _, hbad, _, _, _, _ => absurd trivial hbad
  | e :: es, ⟨he, hes⟩, hbad, _, c, rest, hc => by
    rw [exprsWords, listedWords, List.append_assoc] at hc
    -- An expression does not start with the closing parenthesis.
    have hne : nextKind c.words ≠ .rightParen := by
      intro heq
      have hstart := e.nextKind_words (moreListedWords (exprsWords es) ++ rest)
      rw [← hc, heq] at hstart
      exact absurd hstart (by decide)
    refine arguments_open hne fun d => ?_
    by_cases htests : e.TestsOperations
    · have hcomplete := @Expr.derives_before e (moreListedWords (exprsWords es) ++ rest) he htests
        closing_moreListedWords
      refine .bind (hcomplete.yields hc) fun m hm => lacks_bind ?_
      exact moreArguments_break es hes (fun h => hbad ⟨htests, h⟩) hm
    · exact lacks_bind ((e.breaks he htests).whole (by decide) hc)

theorem moreArguments_break : ∀ es : List (Expr Unit), ExprsWellFormed es →
    ¬ ExprsTestOperations es → ∀ {depth : Nat} {c : Cursor} {rest : List Word},
      c.words = moreListedWords (exprsWords es) ++ rest →
      (moreArguments depth).Ensures c LacksParen
  | [], _, hbad, _, _, _, _ => absurd trivial hbad
  | e :: es, ⟨he, hes⟩, hbad, _, c, rest, hc => by
    rw [exprsWords, moreListedWords, List.cons_append, List.append_assoc] at hc
    by_cases htests : e.TestsOperations
    · have hcomplete := @Expr.derives_before e (moreListedWords (exprsWords es) ++ rest) he htests
        closing_moreListedWords
      refine moreArguments_comma hc rfl (fun d m hm => hcomplete.yields hm)
        fun d m hm => lacks_bind ?_
      exact moreArguments_break es hes (fun h => hbad ⟨htests, h⟩) hm
    · exact moreArguments_lacks hc rfl fun d m hm => (e.breaks he htests).whole (by decide) hm

/-- A statement breaks off where its expression does. -/
theorem Stmt.breaks : ∀ s : Stmt Unit, s.WellFormed → ¬ s.TestsOperations →
    ∀ {depth : Nat} {c : Cursor} {rest : List Word}, c.words = s.words ++ rest →
      (statement depth).Ensures c LacksParen
  | .letDecl x e, ⟨_, he⟩, hbad, _, _, _, hc => by
    rw [Stmt.words, List.cons_append, List.cons_append, List.cons_append, List.append_assoc] at hc
    refine statement_let hc rfl rfl rfl fun d m hm => ?_
    exact lacks_bind ((e.breaks he hbad).whole (by decide) hm)
  | .ret e, hwf, hbad, _, _, _, hc => by
    rw [Stmt.words, List.cons_append, List.append_assoc] at hc
    refine statement_return hc rfl fun d m hm => ?_
    exact lacks_bind ((e.breaks hwf hbad).whole (by decide) hm)
  | .expr e, hwf, hbad, _, _, _, hc => by
    rw [Stmt.words, List.append_assoc] at hc
    have hstart := e.nextKind_words
    refine statement_expr (by rw [hc]; exact hstart _) fun d => ?_
    exact lacks_bind ((e.breaks hwf hbad).whole (by decide) hc)

/-- The statements before the broken one are read back, and the broken one gives the first error. -/
theorem block_breaks : ∀ ss : List (Stmt Unit), StmtsWellFormed ss → ¬ StmtsTestOperations ss →
    BlockBreaks ss
  | [], _, hbad, _, _, _, _ => absurd trivial hbad
  | s :: ss, ⟨hs, hss⟩, hbad, _, c, rest, hc => by
    rw [stmtsWords, List.append_assoc] at hc
    have hbrace : nextKind c.words ≠ .rightBrace := hc ▸ s.nextKind_words_ne _ (by decide)
    have heof : nextKind c.words ≠ .eof := hc ▸ s.nextKind_words_ne _ (by decide)
    by_cases htests : s.TestsOperations
    · have hbad' : ¬ StmtsTestOperations ss := fun h => hbad ⟨htests, h⟩
      have hnext := nextKind_stmtsWords_ne hbad' rest
      refine block_cons hbrace heof (fun d => (s.derives hs htests _).yields hc hnext)
        fun d m hm => lacks_bind ?_
      exact block_breaks ss hss hbad' hm
    · exact block_lacks hbrace heof fun d => s.breaks hs htests hc

end

theorem program_breaks : ∀ p : Program Unit, StmtsWellFormed p → ¬ StmtsTestOperations p →
    ∀ {depth : Nat} {c : Cursor}, c.words = stmtsWords p → (program depth).Ensures c LacksParen
  | [], _, hbad, _, _, _ => absurd trivial hbad
  | s :: ss, ⟨hs, hss⟩, hbad, _, c, hc => by
    rw [stmtsWords] at hc
    have heof : nextKind c.words ≠ .eof := hc ▸ s.nextKind_words_ne _ (by decide)
    by_cases htests : s.TestsOperations
    · have hbad' : ¬ StmtsTestOperations ss := fun h => hbad ⟨htests, h⟩
      have hnext := nextKind_stmtsWords_ne hbad' []
      rw [List.append_nil] at hnext
      refine program_cons heof (fun d => (s.derives hs htests _).yields hc hnext)
        fun d m hm => lacks_bind ?_
      exact program_breaks ss hss hbad' hm
    · exact program_lacks heof fun d => s.breaks hs htests hc

/-- Canonical texts are parsed back exactly if they can be: where every condition is an operation,
parsing gives the program back, and otherwise the first error is a missing opening parenthesis. -/
theorem parse?_programText (p : Program Unit) (hwf : StmtsWellFormed p) :
    (StmtsTestOperations p → parse? (programText p) = .ok p) ∧
    (¬ StmtsTestOperations p → ∃ got es,
      parse? (programText p) = .error (.unexpectedToken .leftParen got :: es)) := by
  refine ⟨parse_programText hwf, fun hbad => ?_⟩
  have hwords : (Cursor.ofSource (programText p)).words = stmtsWords p :=
    wordsOf_programText (stmts_writable p hwf)
  have hrun := (Cursor.ofSource (programText p)).parse_eq
  obtain ⟨got, es, hfaults⟩ := program_breaks p hwf hbad hwords _ hrun
  exact ⟨got, es, parse?_eq_error.2 ⟨hfaults, List.cons_ne_nil _ _⟩⟩

/-- The condition `(!x)` is read back, the condition `x` is not. -/
theorem parse?_programText_negation_or_name :
    parse? (programText [.expr (.ifThen (.unary .not (.callable (.name "x"))) [] : Expr Unit)]) =
        .ok [.expr (.ifThen (.unary .not (.callable (.name "x"))) [])] ∧
      ∃ got es, parse? (programText [.expr (.ifThen (.callable (.name "x")) [] : Expr Unit)]) =
        .error (.unexpectedToken .leftParen got :: es) := by
  have hx : IsName "x" := ⟨by decide, by decide, by decide⟩
  refine ⟨(parse?_programText _ ?_).1 ?_, (parse?_programText _ ?_).2 ?_⟩
  · exact ⟨⟨hx, trivial⟩, trivial⟩
  · exact ⟨⟨rfl, trivial, trivial⟩, trivial⟩
  · exact ⟨⟨hx, trivial⟩, trivial⟩
  · rintro ⟨⟨h, -⟩, -⟩
    cases h

end LetLang
