import LetLang.Proofs.Parse.Dispatch
import LetLang.Proofs.Parse.Soundness

/-!
# The parser reads what the grammar derives

A derivation tells the parser what to do: where the grammar derives a phrase, the parser reads it,
records no error and leaves the words behind it. An expression in the middle of another one is not
read to its end by one call, since climbing goes on behind it, so `Tier.ensures` speaks of what
climbing makes of the phrase. Together with soundness this is the main statement,
`parse?_eq_ok_iff`: the parser accepts exactly the programs of the grammar.
-/

set_option autoImplicit false

namespace LetLang

open LetLang.Parser

namespace Grammar

/-- The words that a `let` or a `return` leaves out are skipped, if the source ends with them. -/
theorem Skipped.words_skipPast {ws rest : List Word} {c : Cursor} (h : Skipped ws rest)
    (hc : c.words = ws) : (c.skipPast (· == .semicolon)).words = rest := by
  obtain ⟨junk, hjunk, ⟨w, hw, heq⟩ | ⟨heq, hnil⟩⟩ := h
  · refine Cursor.words_skipPast_append (fun v hv => ?_) (beq_iff_eq.2 hw) (hc.trans heq)
    exact beq_eq_false_iff_ne.2 (hjunk v hv)
  · rw [hnil]
    refine Cursor.words_skipPast_of_forall fun v hv => ?_
    rw [hc, heq] at hv
    exact beq_eq_false_iff_ne.2 (hjunk v hv)

/-- All semicolons are skipped, if another word follows them. -/
theorem Semicolons.words_skipRun {ws rest : List Word} {c : Cursor} (h : Semicolons ws rest)
    (hc : c.words = ws) (hrest : nextKind rest ≠ .semicolon) :
    (c.skipRun .semicolon).words = rest := by
  obtain ⟨run, hrun, heq⟩ := h
  rw [Cursor.words_skipRun, hc, heq, List.dropWhile_append_of_pos]
  · cases rest with
    | nil => rfl
    | cons w ws => exact List.dropWhile_cons_of_neg (fun hw => hrest (beq_iff_eq.1 hw))
  · intro w hw
    exact beq_iff_eq.2 (hrun w hw)

mutual

/-- Where a phrase of a level is derived, an expression parser that may read it ends as climbing
from the phrase ends. -/
theorem Tier.ensures : ∀ {k : Precedence} {ws rest : List Word} {e : Expr Unit},
    Tier k ws e rest → ∀ {level : Precedence} {depth : Nat} {c : Cursor}
      {Q : Outcome (Expr Unit) → Prop}, level.floor.rank ≤ k.rank → level ≠ .call →
      c.words = ws → (nextKind rest).precedence.rank ≤ k.rank → nextKind rest ≠ .leftParen →
      (∀ (d : Nat) (m : Cursor), m.words = rest → (climb d level e).Ensures m Q) →
      (expression depth level).Ensures c Q
  -- A tighter phrase is bounded by the next word all the more.
  | _, _, _, _, .tighter hlt h, _, _, _, _, hfloor, hlevel, hc, hnext, hopen, hclimb => by
    have hle := Nat.le_of_lt (Precedence.lt_iff.1 hlt)
    exact h.ensures (Nat.le_trans hfloor hle) hlevel hc (Nat.le_trans hnext hle) hopen hclimb
  | _, _, _, _, @Tier.binary k _ op w _ mid rest l r hop hlt hl hr, level, _, _, Q, hfloor, hlevel,
      hc, hnext, hopen, hclimb => by
    -- Climbing from the left operand takes the operator and its right operand, and goes on.
    obtain ⟨hsome, hk⟩ := mem_binaryOps_iff.1 hop
    have hunary : k < .unary := by
      rw [← hk]
      exact rank_precedence_lt_unary op
    have hcall : k ≠ .call := by
      rw [← hk]
      cases op <;> decide
    refine hl.ensures hfloor hlevel hc ?_ ?_ fun d m hm => ?_
    · have hnext' : (nextKind (w :: mid)).precedence = k := by
        rw [nextKind_cons, precedence_of_binaryOp? hsome, hk]
      exact Nat.le_of_eq (congrArg Precedence.rank hnext')
    · rw [nextKind_cons]
      intro hw
      rw [hw] at hsome
      cases hsome
    · refine climb_binary hm hop (Precedence.lt_of_rank_floor_le hfloor hunary) fun d' m' hm' => ?_
      have hle := Nat.le_of_lt (Precedence.lt_iff.1 hlt)
      have hright : (expression d' k).Yields m' r rest := by
        refine hr.ensures (Precedence.rank_floor_le hlt) hcall hm' (Nat.le_trans hnext hle) hopen
          fun d'' n hn => ?_
        exact climb_stop_of_words hn (Precedence.not_lt_iff.2 hnext)
      exact .bind hright fun n hn => hclimb d' n hn
  | _, _, rest, _, @Tier.unary _ _ _ _ e hop he, _, _, _, _, _, _, hc, hnext, hopen, hclimb => by
    -- The operand of a prefix operator ends before every binary operator.
    refine expression_operand (fun d => ?_) hclimb
    refine operand_prefix hc hop fun d' m hm => ?_
    have hoperand : (expression d' .unary).Yields m e rest := by
      refine he.ensures (Nat.le_refl _) (by decide) hm hnext hopen fun d'' n hn => ?_
      exact climb_stop_of_words hn (Precedence.not_lt_iff.2 hnext)
    exact .bind hoperand fun n hn => .pure ⟨rfl, rfl, hn⟩
  | _, _, _, _, .call hf ho hargs _, _, _, _, _, _, hlevel, hc, _, _, hclimb => by
    refine expression_operand (fun d => hf.yields hc) fun d m hm => ?_
    refine climb_call hm ho hlevel fun d' m' hm' => ?_
    exact .bind (hargs.yields hm') fun n hn => hclimb d' n hn
  | _, _, _, _, .primary h, _, _, _, _, _, _, hc, _, _, hclimb => by
    exact expression_operand (fun d => h.yields hc) hclimb

theorem Primary.yields : ∀ {ws rest : List Word} {e : Expr Unit}, Primary ws e rest →
    ∀ {depth : Nat} {c : Cursor}, c.words = ws → (operand depth).Yields c e rest
  | _, _, _, .name hx, _, _, hc => operand_name hc hx
  | _, _, _, .int hn hle, _, _, hc => operand_int hc hn hle
  | _, _, _, .true hb, _, _, hc => operand_true hc hb
  | _, _, _, .false hb, _, _, hc => operand_false hc hb
  | _, _, _, .group ho he hclose, _, _, hc => by
    refine operand_group hc ho fun d m hm => ?_
    refine .bind (he.yields hm) fun n hn => ?_
    exact .expect hn hclose fun _ n' _ hn' => .pure ⟨rfl, rfl, hn'⟩
  | _, _, _, .ifThen hi ho he hclose ht helse, _, _, hc => by
    refine operand_if hc hi fun _ m hm => conditional_open hm ho fun d n hn => ?_
    refine .bind (he.yields hn) fun n' hn' => ?_
    refine .expect hn' hclose fun _ n _ hn => ?_
    refine ht.ensures hn fun n' hn' => ?_
    refine .peek ?_
    rw [Cursor.peek_kind, hn', if_neg helse]
    exact .pure ⟨rfl, rfl, hn'⟩
  | _, _, _, .ifElse hi ho he hclose ht helse hu, _, _, hc => by
    refine operand_if hc hi fun _ m hm => conditional_open hm ho fun d n hn => ?_
    refine .bind (he.yields hn) fun n' hn' => ?_
    refine .expect hn' hclose fun _ n _ hn => ?_
    refine ht.ensures hn fun n' hn' => ?_
    refine .peek ?_
    rw [Cursor.peek_kind, hn', nextKind_cons, if_pos helse]
    refine .next hn' fun _ m' _ hm' => ?_
    exact hu.ensures hm' fun n hn => .pure ⟨rfl, rfl, hn⟩
  | _, _, _, .func hf ho hxs hbody, _, _, hc => by
    refine operand_function hc hf fun _ m hm => functionLiteral_open hm ho fun d n hn => ?_
    refine .bind (parameters_yields hxs hn) fun n' hn' => ?_
    exact hbody.ensures hn' fun n hn => .pure ⟨rfl, rfl, hn⟩

theorem Expression.yields : ∀ {ws rest : List Word} {e : Expr Unit}, Expression ws e rest →
    ∀ {depth : Nat} {c : Cursor}, c.words = ws → (expression depth .lowest).Yields c e rest
  | _, rest, _, .complete h hnext, _, _, hc => by
    have hstop : ¬ .lowest < (nextKind rest).precedence := mt mem_continuing_iff.2 hnext
    have hle : (nextKind rest).precedence.rank ≤ Precedence.equality.rank :=
      Nat.le_trans (Precedence.not_lt_iff.1 hstop) (Nat.zero_le _)
    have hlevel : Precedence.lowest ≠ .call := by decide
    have hopen := ne_leftParen_of_not_lt hlevel hstop
    exact h.ensures (Nat.le_refl _) hlevel hc hle hopen
      fun d m hm => climb_stop_of_words hm hstop

theorem Arguments.yields : ∀ {ws rest : List Word} {es : List (Expr Unit)},
    Arguments ws es rest → ∀ {depth : Nat} {c : Cursor}, c.words = ws →
      (arguments depth).Yields c es rest
  | _, _, _, .none hclose, _, _, hc => arguments_close hc hclose
  | _, _, _, .some he hes, _, c, hc => by
    -- An argument starts as expressions do, so the parser does not see an empty list.
    have hne : nextKind c.words ≠ .rightParen := by
      intro heq
      have hstart := he.starts
      rw [← hc, heq] at hstart
      exact absurd hstart (by decide)
    refine arguments_open hne fun d => ?_
    refine .bind (he.yields hc) fun m hm => ?_
    exact .bind (hes.yields hm) fun n hn => .pure ⟨rfl, rfl, hn⟩

theorem MoreArguments.yields : ∀ {ws rest : List Word} {es : List (Expr Unit)},
    MoreArguments ws es rest → ∀ {depth : Nat} {c : Cursor}, c.words = ws →
      (moreArguments depth).Yields c es rest
  | _, _, _, .close hclose, _, _, hc => moreArguments_close hc hclose
  | _, _, _, .comma hcomma he hes, _, _, hc => by
    refine moreArguments_comma hc hcomma (fun d m hm => he.yields hm) fun d m hm => ?_
    exact .bind (hes.yields hm) fun n hn => .pure ⟨rfl, rfl, hn⟩

/-- A block is read with both its braces. -/
theorem Braces.ensures : ∀ {ws rest : List Word} {ss : List (Stmt Unit)}, Braces ws ss rest →
    ∀ {γ : Type} {depth : Nat} {c : Cursor} {f : List (Stmt Unit) → Parser γ}
      {Q : Outcome γ → Prop}, c.words = ws →
      (∀ m : Cursor, m.words = rest → (f ss).Ensures m Q) →
      (expect .leftBrace >>= fun _ => block depth >>= f).Ensures c Q
  | _, _, _, .block ho hss hclose, _, _, _, _, _, hc, hf => by
    refine .expect hc ho fun _ m _ hm => ?_
    exact .bind (hss.yields_block hm rfl hclose) hf

/-- A statement is read with the semicolons that end it, if no further one follows. -/
theorem Statement.yields : ∀ {ws rest : List Word} {s : Stmt Unit}, Statement ws s rest →
    ∀ {depth : Nat} {c : Cursor}, c.words = ws → nextKind rest ≠ .semicolon →
      (statement depth).Yields c s rest
  | _, _, _, .letDecl hl hx ha he hskip, _, _, hc, _ => by
    refine statement_let hc hl hx ha fun d m hm => ?_
    refine .bind (he.yields hm) fun n hn => ?_
    exact .move (.pure ⟨rfl, rfl, hskip.words_skipPast hn⟩)
  | _, _, _, .ret hr he hskip, _, _, hc, _ => by
    refine statement_return hc hr fun d m hm => ?_
    refine .bind (he.yields hm) fun n hn => ?_
    exact .move (.pure ⟨rfl, rfl, hskip.words_skipPast hn⟩)
  | _, _, _, .expr he hskip, _, _, hc, hrest => by
    refine statement_expr (hc.symm ▸ he.starts) fun d => ?_
    refine .bind (he.yields hc) fun n hn => ?_
    exact .move (.pure ⟨rfl, rfl, hskip.words_skipRun hn hrest⟩)

/-- Statements before a closing brace are read as a block. -/
theorem Statements.yields_block : ∀ {ws rest : List Word} {ss : List (Stmt Unit)},
    Statements ws ss rest → ∀ {depth : Nat} {c : Cursor} {b : Word} {rest' : List Word},
      c.words = ws → rest = b :: rest' → b.kind = .rightBrace → (block depth).Yields c ss rest'
  | _, _, _, .nil, _, _, _, _, hc, hrest, hb => block_close (hc.trans hrest) hb
  | _, _, _, .cons hs hss, _, _, _, _, hc, hrest, hb => by
    have hmid := hss.nextKind_ne_semicolon (by rw [hrest, nextKind_cons, hb]; decide)
    refine block_cons (hc.symm ▸ hs.nextKind_ne (by decide)) (hc.symm ▸ hs.nextKind_ne (by decide))
      (fun d => hs.yields hc hmid) fun d m hm => ?_
    exact .bind (hss.yields_block hm hrest hb) fun n hn => .pure ⟨rfl, rfl, hn⟩

end

/-- Statements up to the end of the source are read as a program. -/
theorem Statements.yields_program :
    ∀ {ws : List Word} {ss : List (Stmt Unit)} {depth : Nat} {c : Cursor},
      Statements ws ss [] → c.words = ws → (program depth).Yields c ss []
  | _, _, _, _, .nil, hc => program_nil hc
  | _, _, _, _, .cons hs hss, hc => by
    have hmid := hss.nextKind_ne_semicolon (by decide)
    refine program_cons (hc.symm ▸ hs.nextKind_ne (by decide)) (fun d => hs.yields hc hmid)
      fun d m hm => ?_
    exact .bind (hss.yields_program hm) fun n hn => .pure ⟨rfl, rfl, hn⟩

end Grammar

/-! ## The language of the parser -/

/-- A source has the program `p` and no errors exactly if the grammar derives `p` from its
words. -/
theorem parse_eq_iff_derives {source : String} {p : Program Unit} :
    (parse source).errors = [] ∧ (parse source).program = p ↔
      Grammar.Statements ((scan source).map Token.word) p [] := by
  have hrun := (Cursor.ofSource source).parse_eq
  constructor
  · rintro ⟨herrors, rfl⟩
    have hclean : (program (Cursor.ofSource source).depth).Clean (Cursor.ofSource source)
        (parse source).program (parse source).cursor := by
      unfold Clean
      rw [← herrors]
      exact hrun
    refine program_derives (fun w hw => ?_) hclean
    obtain ⟨t, ht, rfl⟩ := List.mem_map.1 hw
    exact kind_ne_eof_of_mem_scan t ht
  · intro h
    obtain ⟨hvalue, herrors, -⟩ := h.yields_program rfl _ hrun
    exact ⟨herrors, Except.ok.inj hvalue⟩

theorem parse?_eq_ok {source : String} {p : Program Unit} :
    parse? source = .ok p ↔ (parse source).errors = [] ∧ (parse source).program = p := by
  unfold parse? Parsed.result
  cases herrors : (parse source).errors with
  | nil => simp
  | cons e es => simp

theorem parse?_eq_error {source : String} {errors : List ParseError} :
    parse? source = .error errors ↔ (parse source).errors = errors ∧ errors ≠ [] := by
  unfold parse? Parsed.result
  cases herrors : (parse source).errors with
  | nil => simp +contextual [eq_comm]
  | cons e es =>
    simp only [List.isEmpty_cons, Bool.false_eq_true, if_false, Except.error.injEq]
    constructor
    · rintro rfl
      exact ⟨rfl, List.cons_ne_nil e es⟩
    · rintro ⟨h, -⟩
      exact h

/-- The parser accepts exactly its grammar: a source has the program `p` if and only if the grammar
derives `p` from all its words, and a source from whose words nothing is derived has an error. -/
theorem parse?_eq_ok_iff (source : String) :
    (∀ p : Program Unit,
      parse? source = .ok p ↔ Grammar.Statements ((scan source).map Token.word) p []) ∧
    ((∃ p : Program Unit, Grammar.Statements ((scan source).map Token.word) p []) ∨
      ∃ e es, parse? source = .error (e :: es)) := by
  have hiff : ∀ p : Program Unit,
      parse? source = .ok p ↔ Grammar.Statements ((scan source).map Token.word) p [] :=
    fun p => parse?_eq_ok.trans parse_eq_iff_derives
  refine ⟨hiff, ?_⟩
  cases hresult : parse? source with
  | ok p => exact .inl ⟨p, (hiff p).1 hresult⟩
  | error errors =>
    cases errors with
    | nil => exact absurd rfl (parse?_eq_error.1 hresult).2
    | cons e es => exact .inr ⟨e, es, rfl⟩

end LetLang
