import LetLang.Proofs.Parse.Completeness
import LetLang.Proofs.Parse.Excerpt
import LetLang.Proofs.Parse.Moved
import LetLang.Proofs.Parse.Sequence
import LetLang.Proofs.Print.Words
import LetLang.Proofs.Scan.Spelling

/-!
# Resuming in the same block

Behind a broken statement, parsing goes on behind the next semicolon or closing brace, whichever
comes first, and does not ask whether that brace closes a block of the statement or the block around
it. So what stands behind a broken statement is read as part of the same block if parsing resumes
behind the semicolon that ends the statement (`parse_resumes_in_block`), as it does where there are
no braces (`resumptions_of_braceless`), and else it may be read as part of a block outside
(`parse_does_not_resume_in_block`).
-/

set_option autoImplicit false

namespace LetLang

open LetLang.Parser LetLang.Grammar

variable {β γ : Type}

/-! ## Sources that end with a semicolon -/

/-- The start of a source that ends with a semicolon, where it is the excerpt of another one. -/
theorem Sequel.near_start {g : Sequel} {c : Cursor} {source : String}
    (hclosed : Closed (wordsOf source.toList)) (hc : c.words = wordsOf source.toList ++ g.words)
    (hbraces : g.braces = false → ∀ kind ∈ c.last :: (wordsOf source.toList).map Word.kind,
      kind ∉ [TokenKind.leftBrace, .rightBrace]) :
    g.Near c { Cursor.ofSource source with last := c.last } := by
  refine ⟨hc, rfl, fun w hw => ?_, ?_, hbraces⟩
  · obtain ⟨t, ht, rfl⟩ := List.mem_map.1 hw
    exact kind_ne_eof_of_mem_scan t ht
  · obtain ⟨w, hw, hkind⟩ := hclosed
    have hlast : (wordsOf source.toList).getLast? = some w := hw
    show (c.last :: (wordsOf source.toList).map Word.kind).getLast? = _
    rw [List.getLast?_cons, List.getLast?_map, hlast, Option.map_some, Option.getD_some, hkind]

theorem wordsOf_semicolon_append (b : String) :
    wordsOf (b ++ ";").toList = wordsOf b.toList ++ [⟨.semicolon, ";"⟩] := by
  have hchars : (b ++ ";").toList = b.toList ++ [';'] := by simp
  rw [hchars, wordsOf_append _ (apart_cons rfl), wordsOf_semicolon, wordsOf_nil]

theorem closed_semicolon_append (b : String) : Closed (wordsOf (b ++ ";").toList) := by
  rw [wordsOf_semicolon_append]
  exact ⟨⟨.semicolon, ";"⟩, by simp, rfl⟩

/-! ## Where parsing resumes -/

/-- The kinds of the tokens behind which parsing goes on after broken statements of a program. -/
def Parser.resumptions : Nat → Cursor → List TokenKind
  | 0, _ => []
  | depth + 1, c =>
    if c.peek.kind = .eof then []
    else
      match Parser.statement depth c with
      | none => []
      | some ⟨.ok _, _, m⟩ => resumptions depth m
      | some ⟨.error _, _, m⟩ => m.recover.last :: resumptions depth m.recover

/-- The kinds of the tokens of a source behind which parsing goes on after its broken statements:
the semicolon or the closing brace that is taken for the end of the statement, or the end of the
source. -/
def resumptions (source : String) : List TokenKind :=
  Parser.resumptions (Cursor.ofSource source).depth (Cursor.ofSource source)

/-- Without braces, every broken statement is taken to end at a semicolon. -/
theorem resumptions_of_braceless {b : String}
    (hb : ∀ t ∈ scan b, t.kind ∉ [TokenKind.leftBrace, .rightBrace]) :
    ∀ kind ∈ resumptions (b ++ ";"), kind = .semicolon := by
  -- The run is compared with itself.
  let g : Sequel := { words := [], fresh := by decide, braces := false }
  have hnear : ∀ depth (c : Cursor), g.Near c c →
      ∀ kind ∈ Parser.resumptions depth c, kind = .semicolon := by
    intro depth
    induction depth with
    | zero => exact fun _ _ kind hkind => by cases hkind
    | succ depth ih =>
      intro c hc
      rw [Parser.resumptions]
      split
      · exact fun kind hkind => by cases hkind
      · next hne =>
        have hbefore := hc.before_of_ne_eof hne
        split
        · exact fun kind hkind => by cases hkind
        · next s es m hrun =>
          cases (Sequel.agrees_all depth depth).statement c c _ _ hbefore hrun hrun with
          | value _ hm => exact ih m hm
          | lost hbraces _ => cases hbraces
        · next e es m hrun =>
          cases (Sequel.agrees_all depth depth).statement c c _ _ hbefore hrun hrun with
          | error _ hm => exact List.forall_mem_cons.2 ⟨hm.recover_last rfl, ih _ hm.recover⟩
          | lost hbraces _ => cases hbraces
  refine hnear _ _ (Sequel.near_start (closed_semicolon_append b) (List.append_nil _).symm ?_)
  rintro - kind hkind
  rw [wordsOf_semicolon_append, List.map_append, ← map_word_scan, List.map_map] at hkind
  rcases List.mem_cons.1 hkind with rfl | hkind
  · show TokenKind.eof ∉ _
    decide
  rcases List.mem_append.1 hkind with hkind | hkind
  · obtain ⟨t, ht, rfl⟩ := List.mem_map.1 hkind
    exact hb t ht
  · rw [List.mem_singleton.1 hkind]
    decide

/-- The brace that closes a block may be taken for the end of a statement that breaks off before. -/
example : resumptions "if x \x7b 1 \x7d; y;" = [.rightBrace, .semicolon] := by cbv

/-! ## Outcomes with errors -/

/-- The value is `b`, `n` errors were recorded, and the words `ws` are left. -/
structure Parser.Collects (b : β) (n : Nat) (ws : List Word) (out : Outcome β) : Prop where
  value : out.value = .ok b
  count : out.errors.length = n
  words : out.cursor.words = ws

section Collects

variable {p : Parser β} {f : β → Parser γ} {c : Cursor} {b : β} {d : γ} {n : Nat}
  {ws ws' : List Word}

theorem Parser.Collects.after {out : Outcome β} (h : Collects b n ws out) (es : List ParseError) :
    Collects b (es.length + n) ws (out.after es) := by
  refine ⟨h.value, ?_, h.words⟩
  rw [← h.count]
  exact List.length_append

theorem Parser.Gives.collects {out : Outcome β} (h : Gives b ws out) : Collects b 0 ws out :=
  ⟨h.value, by rw [h.errors, List.length_nil], h.words⟩

/-- Behind a parser with errors, one without. -/
theorem Parser.Ensures.bind_collects (hp : p.Ensures c (Collects b n ws))
    (hf : ∀ m : Cursor, m.words = ws → (f b).Yields m d ws') :
    (p >>= f).Ensures c (Collects d n ws') := by
  intro out hout
  obtain ⟨e, es, m, hrun, -⟩ | ⟨b', es, m, out', hrun, hout', rfl⟩ := bind_eq_some hout
  · cases (hp _ hrun).value
  · obtain ⟨hvalue, rfl, hwords⟩ := hp _ hrun
    obtain rfl : b' = b := Except.ok.inj hvalue
    exact (hf m hwords out' hout').collects.after es

end Collects

/-! ## Programs that resume behind semicolons -/

/-- From the cursor, a program is read and errors are found, and parsing goes on behind a semicolon
after every one of its broken statements. -/
inductive SemicolonRun : Cursor → Program Unit → List ParseError → Prop
  | stop {c : Cursor} : c.peek.kind = .eof → SemicolonRun c [] []
  | statement {depth : Nat} {c m : Cursor} {s : Stmt Unit} {ss : Program Unit}
      {es es' : List ParseError} :
      c.peek.kind ≠ .eof → statement depth c = some ⟨.ok s, es, m⟩ → SemicolonRun m ss es' →
      SemicolonRun c (s :: ss) (es ++ es')
  | recover {depth : Nat} {c m : Cursor} {e : ParseError} {ss : Program Unit}
      {es es' : List ParseError} :
      c.peek.kind ≠ .eof → statement depth c = some ⟨.error e, es, m⟩ →
      m.recover.last = .semicolon → SemicolonRun m.recover ss es' →
      SemicolonRun c ss (es ++ e :: es')

/-- A program whose resumptions are semicolons is read in such a way. -/
theorem Parser.semicolonRun : ∀ {depth : Nat} {c : Cursor} {out : Outcome (LetLang.Program Unit)},
    program depth c = some out → (∀ kind ∈ resumptions depth c, kind = .semicolon) →
      ∃ p, out.value = .ok p ∧ SemicolonRun c p out.errors
  | 0, _, _, hout, _ => by
    rw [program] at hout
    cases hout
  | depth + 1, c, out, hout, hends => by
    rw [program, peek_bind] at hout
    rw [resumptions] at hends
    split at hout
    · next heof =>
      cases hout
      exact ⟨[], rfl, .stop heof⟩
    · next heof =>
      obtain ⟨value, es, m, rest, hrun, hrest, rfl⟩ := attempt_bind_eq_some hout
      rw [if_neg heof, hrun] at hends
      cases value with
      | ok s =>
        obtain ⟨e, es', d, hprogram, -⟩ | ⟨p, es', d, last, hprogram, hlast, rfl⟩ :=
          bind_eq_some hrest
        · -- The rest of a program does not end with an error.
          obtain ⟨p, hp, -⟩ := semicolonRun hprogram hends
          cases hp
        · cases hlast
          obtain ⟨p', hp, hrun'⟩ := semicolonRun hprogram hends
          obtain rfl := Except.ok.inj hp
          refine ⟨s :: p, rfl, ?_⟩
          show SemicolonRun c (s :: p) (es ++ (es' ++ []))
          rw [List.append_nil]
          exact .statement heof hrun hrun'
      | error e =>
        obtain ⟨hlast, hends⟩ := List.forall_mem_cons.1 hends
        obtain ⟨tail, htail, rfl⟩ := record_bind_eq_some hrest
        rw [move_bind] at htail
        obtain ⟨p, hp, hrun'⟩ := semicolonRun htail hends
        exact ⟨p, hp, .recover heof hrun hlast hrun'⟩

/-! ## A block and an excerpt of it -/

/-- At a closing brace no statement is found, and parsing goes on behind the brace. -/
theorem statement_rightBrace {depth : Nat} {c m : Cursor} {value : Except ParseError (Stmt Unit)}
    {es : List ParseError} (hkind : c.peek.kind = .rightBrace)
    (hout : statement depth c = some ⟨value, es, m⟩) :
    (∃ e, value = .error e) ∧ m.recover.last = .rightBrace := by
  have hstart : c.peek.kind ∉ [TokenKind.letWord, .returnWord] := by
    rw [hkind]
    decide
  cases statement_broken hstart (fun _ => operand_rightBrace hkind) _ hout
  have hlast : c.advance.last = .rightBrace := hkind
  refine ⟨⟨_, rfl⟩, ?_⟩
  rw [Cursor.recover, hlast, if_pos (show Cursor.endsStatement .rightBrace = true from rfl), hlast]

/-- A block that neither ends nor breaks off starts with a statement. -/
theorem block_of_statement {depth : Nat} {c : Cursor} {Q : Outcome (Block Unit) → Prop}
    (hbrace : c.peek.kind ≠ .rightBrace) (heof : c.peek.kind ≠ .eof)
    (h : ∀ d : Nat, (attempt (statement d) >>= fun r => match r with
      | .ok s => block d >>= fun ss => Pure.pure (s :: ss)
      | .error err =>
        record err >>= fun _ => move Cursor.recover >>= fun _ => lastKind >>= fun kind =>
          if kind = .rightBrace then Pure.pure [] else block d).Ensures c Q) :
    (block depth).Ensures c Q := by
  cases depth with
  | zero => exact .exhausted
  | succ depth =>
    rw [block]
    refine .peek ?_
    split
    · next hkind => exact absurd hkind hbrace
    · next hkind => exact absurd hkind heof
    · exact h depth

/-- Where the excerpt is read as a program that resumes behind semicolons, a block reads the
statements of this program and goes on behind the excerpt. -/
theorem SemicolonRun.block_collects {g : Sequel} {p q : Program Unit} {brace : Word}
    {rest : List Word} {c' : Cursor} {es : List ParseError} (hrun' : SemicolonRun c' q es)
    (hp : Statements g.words p (brace :: rest)) (hbrace : brace.kind = .rightBrace) :
    ∀ {depth : Nat} {c : Cursor}, g.Near c c' →
      (block depth).Ensures c (Collects (q ++ p) es.length rest) := by
  induction hrun' with
  | stop heof =>
    -- The excerpt is read to its end, and the block goes on with the statements behind it.
    intro depth c hc
    rcases hc.before_or_behind with hc | hc
    · exact absurd heof hc.peek_kind_ne_eof
    · have hwords : c.words = g.words := by rw [hc.1.words, hc.2, List.nil_append]
      exact fun out hout => (hp.yields_block hwords rfl hbrace out hout).collects
  | @statement _ c' m' s q es es' hne hstatement _ ih =>
    intro depth c hc
    have hbefore := hc.before_of_ne_eof hne
    -- A statement that is read to its end does not start with the brace that would end the block.
    have hbrace' : c.peek.kind ≠ .rightBrace := by
      rw [hbefore.peek_kind]
      intro hkind
      obtain ⟨⟨e, he⟩, -⟩ := statement_rightBrace hkind hstatement
      cases he
    refine block_of_statement hbrace' (by rw [hbefore.peek_kind]; exact hne) fun d out hout => ?_
    obtain ⟨value, es₁, m, last, hrun, hlast, rfl⟩ := attempt_bind_eq_some hout
    cases (Sequel.agrees_all _ _).statement _ _ _ _ hbefore hrun hstatement with
    | value hlength hm =>
      have hcons : (block d >>= fun ss => Pure.pure (s :: ss)).Ensures m
          (Collects (s :: (q ++ p)) es'.length rest) :=
        .bind_collects (ih hm) fun n hn => .pure ⟨rfl, rfl, hn⟩
      rw [List.length_append, ← hlength]
      exact (hcons _ hlast).after es₁
    | lost _ hlost =>
      obtain ⟨e, he⟩ := hlost.broken
      cases he
  | @recover _ c' m' e q es es' hne hstatement hlast _ ih =>
    intro depth c hc
    have hbefore := hc.before_of_ne_eof hne
    -- One that started with such a brace would resume behind it, and not behind a semicolon.
    have hbrace' : c.peek.kind ≠ .rightBrace := by
      rw [hbefore.peek_kind]
      intro hkind
      have hresumed := (statement_rightBrace hkind hstatement).2
      rw [hlast] at hresumed
      cases hresumed
    refine block_of_statement hbrace' (by rw [hbefore.peek_kind]; exact hne) fun d out hout => ?_
    obtain ⟨value, es₁, m, rest', hrun, hrest, rfl⟩ := attempt_bind_eq_some hout
    cases (Sequel.agrees_all _ _).statement _ _ _ _ hbefore hrun hstatement with
    | error hlength hm =>
      obtain ⟨tail, htail, rfl⟩ := record_bind_eq_some hrest
      rw [move_bind, lastKind_bind, hm.recover.last, hlast, if_neg (by decide)] at htail
      have hcount : (es ++ e :: es').length = es₁.length + (1 + es'.length) := by
        rw [List.length_append, List.length_cons, hlength]
        omega
      rw [hcount]
      exact ((ih hm.recover _ htail).after [_]).after es₁
    | lost _ hlost =>
      rw [hlost.cursor.recover.2] at hlast
      cases hlast

/-! ## The function around the block -/

/-- A function literal without parameters whose block is the rest of the source. -/
theorem statement_of_block {depth n : Nat} {c : Cursor} {body : Block Unit} {ws : List Word}
    (hc : c.words = ⟨.functionWord, "fn"⟩ :: ⟨.leftParen, "("⟩ :: ⟨.rightParen, ")"⟩ ::
      ⟨.leftBrace, "\x7b"⟩ :: ws)
    (h : ∀ (d : Nat) (m : Cursor), m.words = ws → (block d).Ensures m (Collects body n [])) :
    (statement depth).Ensures c (Collects (.expr (.callable (.func () [] body))) n []) := by
  have hoperand : ∀ d, (operand d).Ensures c (Collects (.callable (.func () [] body)) n []) := by
    intro d
    refine operand_function hc rfl fun d m hm => functionLiteral_open hm rfl fun d m hm => ?_
    refine .bind (parameters_yields (.none rfl) hm) fun m hm => .expect hm rfl fun _ m _ hm => ?_
    exact .bind_collects (h d m hm) fun m hm => .pure ⟨rfl, rfl, hm⟩
  -- Behind the block the source ends, so nothing continues the function literal.
  have hexpression : ∀ d, (expression d .lowest).Ensures c
      (Collects (.callable (.func () [] body)) n []) := by
    intro d
    cases d with
    | zero => exact .exhausted
    | succ d =>
      rw [expression]
      exact .bind_collects (hoperand d) fun m hm => climb_stop_of_words hm (by decide)
  have hstart : nextKind c.words ∈ starting := by
    rw [hc, nextKind_cons]
    decide
  refine statement_expr hstart fun d => ?_
  refine .bind_collects (hexpression d) fun m hm => .move (.pure ⟨rfl, rfl, ?_⟩)
  rw [Cursor.words_skipRun, hm, List.dropWhile_nil]

/-- A program that is one statement with the errors in it. -/
theorem ProgramRun.eq_of_statement {c d : Cursor} {p : Program Unit} {es : List ParseError}
    {s : Stmt Unit} {n : Nat} (hrun : ProgramRun c p es d) (hc : c.peek.kind ≠ .eof)
    (hs : ∀ depth, (Parser.statement depth).Ensures c (Collects s n [])) :
    p = [s] ∧ es.length = n := by
  cases hrun with
  | stop heof => exact absurd heof hc
  | recover _ hstatement _ => cases (hs _ _ hstatement).value
  | statement _ hstatement hrest =>
    obtain ⟨hvalue, hcount, hwords⟩ := hs _ _ hstatement
    cases hvalue
    have heof := Cursor.peek_kind_of_words_nil hwords
    cases hrest with
    | stop _ => exact ⟨rfl, by rw [List.append_nil]; exact hcount⟩
    | statement hne _ _ => exact absurd heof hne
    | recover hne _ _ => exact absurd heof hne

/-- A program whose words end with a semicolon, if it has any, before other words. -/
theorem Grammar.Statements.before {ws : List Word} {p : Program Unit} (h : Statements ws p [])
    (hclosed : ws ≠ [] → Closed ws) (more : List Word) : Statements (ws ++ more) p more := by
  by_cases hws : ws = []
  · subst hws
    rw [h.eq_nil]
    exact .nil
  · have hboth := h.append (hclosed hws) (.nil : Statements more [] more)
    rwa [List.append_nil] at hboth

/-- No statement starts with a word that continues what stands before a statement. -/
theorem Grammar.Statements.fresh {ws : List Word} {p : Program Unit} (h : Statements ws p [])
    {brace : Word} (hbrace : brace.kind = .rightBrace) :
    nextKind (ws ++ [brace]) ∉ [TokenKind.semicolon, .comma, .rightParen] := by
  cases h with
  | nil =>
    rw [List.nil_append, nextKind_cons, hbrace]
    decide
  | cons hs _ =>
    have hkinds : ∀ kind ∈ TokenKind.letWord :: .returnWord :: starting,
        kind ∉ [TokenKind.semicolon, .comma, .rightParen] := by decide
    have hne : ws ≠ [] := by
      rintro rfl
      exact hs.nextKind_ne (by decide) nextKind_nil
    rw [nextKind_append hne]
    exact hkinds _ hs.starts

theorem wordsOf_function (b r : String) :
    wordsOf ("fn() \x7b" ++ b ++ ";" ++ r ++ "\x7d").toList =
      ⟨.functionWord, "fn"⟩ :: ⟨.leftParen, "("⟩ :: ⟨.rightParen, ")"⟩ :: ⟨.leftBrace, "\x7b"⟩ ::
        (wordsOf (b ++ ";").toList ++ (wordsOf r.toList ++ [⟨.rightBrace, "\x7d"⟩])) := by
  have hchars : ("fn() \x7b" ++ b ++ ";" ++ r ++ "\x7d").toList = "fn".toList ++
      '(' :: ')' :: ' ' :: '\x7b' :: (b.toList ++ ';' :: (r.toList ++ ['\x7d'])) := by
    simp
  rw [hchars, (reads_keyword "fn" .functionWord (by decide)).before '(' rfl,
    wordsOf_semicolon_append, wordsOf_leftParen, wordsOf_rightParen, wordsOf_space,
    wordsOf_leftBrace, wordsOf_append _ (apart_cons rfl), wordsOf_semicolon,
    wordsOf_append _ (apart_cons rfl), wordsOf_rightBrace, wordsOf_nil]
  simp

/-- Where parsing resumes does not depend on what stands before the source. -/
theorem Parser.resumptions_last (depth : Nat) (c : Cursor) (last : TokenKind) :
    resumptions depth { c with last } = resumptions depth c := by
  cases depth with
  | zero => rfl
  | succ depth =>
    rw [resumptions, resumptions, statement_last]
    rfl

/-- A source whose resumptions are semicolons is read in such a way wherever it stands. -/
theorem semicolonRun_of_source {source : String}
    (hends : ∀ kind ∈ resumptions source, kind = .semicolon) (last : TokenKind) :
    ∃ es, SemicolonRun { Cursor.ofSource source with last } (parse source).program es ∧
      es.length = (parse source).errors.length := by
  let c : Cursor := { Cursor.ofSource source with last }
  have hc : ∀ kind ∈ Parser.resumptions c.depth c, kind = .semicolon := by
    rw [Parser.resumptions_last]
    exact hends
  obtain ⟨p, hp, hrun⟩ := Parser.semicolonRun c.parse_eq hc
  obtain rfl := Except.ok.inj hp
  have hunread : c.unread = (Cursor.ofSource source).unread.map (Token.moved id) :=
    (List.map_id _).symm
  obtain ⟨hprogram, herrors⟩ := Cursor.parse_moved hunread rfl
  refine ⟨c.parse.errors, ?_, ?_⟩
  · exact (show c.parse.program = (parse source).program from hprogram) ▸ hrun
  · rw [herrors, List.length_map]
    rfl

/-- After an error inside a block, parsing resumes in the same block, if it resumes behind
semicolons. Let every broken statement of `b;` be taken to end at a semicolon, and let `r` be
statements without errors, the last of them ended by a semicolon. The source `fn() {b;r}` is one
function literal. Its body is what is read of `b;` and then the statements of `r`, and it has as
many errors as `b;`. -/
theorem parse_resumes_in_block {b r : String} {p : Program Unit}
    (hb : ∀ kind ∈ resumptions (b ++ ";"), kind = .semicolon) (hr : parse? r = .ok p)
    (hend : ∀ t ∈ (scan r).getLast?, t.kind = .semicolon) :
    (parse ("fn() \x7b" ++ b ++ ";" ++ r ++ "\x7d")).program =
        [.expr (.callable (.func () [] ((parse (b ++ ";")).program ++ p)))] ∧
      (parse ("fn() \x7b" ++ b ++ ";" ++ r ++ "\x7d")).errors.length =
        (parse (b ++ ";")).errors.length := by
  have hderives : Statements (wordsOf r.toList) p [] :=
    parse_eq_iff_derives.1 (parse?_eq_ok.1 hr)
  have hclosed : wordsOf r.toList ≠ [] → Closed (wordsOf r.toList) := closed_of_getLast? hend
  -- Behind `b;` stand the statements of `r` and the brace that closes the block.
  let g : Sequel :=
    { words := wordsOf r.toList ++ [⟨.rightBrace, "\x7d"⟩]
      fresh := hderives.fresh rfl
      braces := true }
  have hbody : ∀ (d : Nat) (m : Cursor), m.words = wordsOf (b ++ ";").toList ++ g.words →
      (block d).Ensures m (Collects ((parse (b ++ ";")).program ++ p)
        (parse (b ++ ";")).errors.length []) := by
    intro d m hm
    obtain ⟨es, hrun, hcount⟩ := semicolonRun_of_source hb m.last
    rw [← hcount]
    have hstart : g.Near m { Cursor.ofSource (b ++ ";") with last := m.last } :=
      Sequel.near_start (closed_semicolon_append b) hm (by rintro ⟨⟩)
    exact hrun.block_collects (hderives.before hclosed _) rfl hstart
  have hwords : (Cursor.ofSource ("fn() \x7b" ++ b ++ ";" ++ r ++ "\x7d")).words = _ :=
    wordsOf_function b r
  refine (Cursor.parse_run _).eq_of_statement ?_ fun depth => statement_of_block hwords hbody
  rw [Cursor.peek_kind, hwords, nextKind_cons]
  exact TokenKind.noConfusion

/-- A conditional with a broken statement in its block, and a broken statement behind it. -/
theorem parse_resumes_in_block_nested :
    (parse ("fn() \x7b" ++ " if (x) \x7b *; 1 \x7d 2 *" ++ ";" ++ " y;" ++ "\x7d")).program =
        [.expr (.callable (.func () [] [.expr (.ifThen (.callable (.name "x")) [.expr (.int 1)]),
          .expr (.callable (.name "y"))]))] ∧
      (parse ("fn() \x7b" ++ " if (x) \x7b *; 1 \x7d 2 *" ++ ";" ++ " y;" ++
        "\x7d")).errors.length = 2 := by
  have hends : resumptions (" if (x) \x7b *; 1 \x7d 2 *" ++ ";") = [.semicolon] := by cbv
  have hlast : (scan " y;").getLast? = some ⟨.semicolon, ";", 2⟩ := by cbv
  have hr : parse? " y;" = .ok [.expr (.callable (.name "y"))] := by cbv
  obtain ⟨hprogram, hcount⟩ := @parse_resumes_in_block " if (x) \x7b *; 1 \x7d 2 *" " y;" _
    (by rw [hends]; decide) hr (fun t ht => by cases hlast.symm.trans ht; rfl)
  rw [hprogram, hcount]
  constructor
  · cbv
  · cbv

/-- Whether the braces among the kinds are balanced, `depth` of them being open before, with no
`let` and no `return` among the kinds and no semicolon outside of the braces. -/
def balanced : Nat → List TokenKind → Bool
  | depth, [] => depth == 0
  | depth, .leftBrace :: kinds => balanced (depth + 1) kinds
  | 0, .rightBrace :: _ => false
  | depth + 1, .rightBrace :: kinds => balanced depth kinds
  | depth, .semicolon :: kinds => depth != 0 && balanced depth kinds
  | _, .letWord :: _ => false
  | _, .returnWord :: _ => false
  | depth, _ :: kinds => balanced depth kinds

/-- Parsing does not resume in the same block after every error in a balanced statement. The
condition of `if x {1}` breaks off before its block; recovery takes the brace that closes the block
for the end of the function, so the statement behind it is read outside of the function. -/
theorem parse_does_not_resume_in_block :
    ¬ ∀ (b r : String) (p : Program Unit), balanced 0 ((scan b).map Token.kind) = true →
      parse? r = .ok p → (∀ t ∈ (scan r).getLast?, t.kind = .semicolon) →
        ∃ body, (parse ("fn() \x7b" ++ b ++ ";" ++ r ++ "\x7d")).program =
          [.expr (.callable (.func () [] (body ++ p)))] := by
  intro hresumes
  have hbalanced : balanced 0 ((scan " if x \x7b 1 \x7d").map Token.kind) = true := by cbv
  have hr : parse? " y; " = .ok [.expr (.callable (.name "y"))] := by cbv
  have hlast : (scan " y; ").getLast? = some ⟨.semicolon, ";", 2⟩ := by cbv
  have hprogram : (parse ("fn() \x7b" ++ " if x \x7b 1 \x7d" ++ ";" ++ " y; " ++ "\x7d")).program =
      [.expr (.callable (.func () [] [])), .expr (.callable (.name "y"))] := by cbv
  obtain ⟨body, hbody⟩ := hresumes _ _ _ hbalanced hr fun t ht => by cases hlast.symm.trans ht; rfl
  have hlength : 2 = 1 := congrArg List.length (hprogram.symm.trans hbody)
  exact absurd hlength (by decide)

end LetLang
