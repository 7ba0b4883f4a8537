import LetLang.Proofs.Parse.Excerpt
import LetLang.Proofs.Parse.Invariant
import LetLang.Proofs.Parse.Moved
import LetLang.Proofs.Scan.Concatenation

/-!
# Recovery at a semicolon

A statement without braces ends at the semicolon behind it, however broken it is. Two sources are
compared that start with the same tokens, none of them a semicolon or a brace, and a semicolon; the
second one ends there, the first one goes on with tokens that continue nothing (`Seam`). The second
one is an excerpt of the first without braces, so every statement ends alike in both. Hence the
first run comes behind the semicolon with what the second has read (`ProgramRun.passes`), and from
there on it is a run of another source. This is `parse_behind_semicolon`.
-/

set_option autoImplicit false

namespace LetLang

/-! ## Two cursors at a semicolon -/

/-- A semicolon and what stands behind it in a source of `stop` bytes: tokens of which the first
continues neither a run of semicolons nor the arguments of a call. -/
structure Seam where
  semicolon : Token
  kind_semicolon : semicolon.kind = .semicolon
  rest : List Token
  fresh : ∀ t ∈ rest.head?, t.kind ∉ [TokenKind.semicolon, .comma, .rightParen]
  stop : Nat

/-- Whether a token of the kind can stand in a statement before the semicolon. -/
abbrev TokenKind.Inner (kind : TokenKind) : Prop :=
  kind ∉ [TokenKind.semicolon, .leftBrace, .rightBrace, .eof]

namespace Seam

variable (g : Seam)

/-- The words behind the semicolon. There are no braces before it. -/
def sequel : Sequel where
  words := g.rest.map Token.word
  fresh := by
    cases hrest : g.rest with
    | nil => decide
    | cons t ts => exact g.fresh t (by rw [hrest]; rfl)
  braces := false

/-- Nothing has been read, and up to the semicolon the same tokens are left in both sources. -/
def Before (c c' : Cursor) : Prop :=
  ∃ front : List Token, (∀ t ∈ front, t.kind.Inner) ∧ c.unread = front ++ g.semicolon :: g.rest ∧
    c'.unread = front ++ [g.semicolon] ∧ c.stop = g.stop ∧ c.last = c'.last ∧ c.last = .eof

/-- The same place in both sources, before the semicolon or behind it. -/
structure Near (c c' : Cursor) : Prop where
  near : g.sequel.Near c c'
  suffix : g.rest <:+ c.unread
  stop : c.stop = g.stop

variable {g} {c c' m m' : Cursor}

theorem Before.near (h : g.Before c c') : g.Near c c' := by
  obtain ⟨front, hfront, hunread, hunread', hstop, hlast, heof⟩ := h
  have hwords : c'.words = front.map Token.word ++ [g.semicolon.word] := by
    rw [Cursor.words, hunread', List.map_append, List.map_singleton]
  have hkinds : c'.kinds = .eof :: (front.map Token.kind ++ [.semicolon]) := by
    rw [Cursor.kinds, ← hlast, heof, hwords, List.map_append, List.map_map, List.map_singleton]
    exact congrArg (fun kind => .eof :: (front.map Token.kind ++ [kind])) g.kind_semicolon
  have hinner : ∀ kind ∈ front.map Token.kind ++ [.semicolon],
      kind ∉ [TokenKind.leftBrace, .rightBrace, .eof] := by
    intro kind hkind
    rcases List.mem_append.1 hkind with hkind | hkind
    · obtain ⟨t, ht, rfl⟩ := List.mem_map.1 hkind
      exact fun hmem => hfront t ht (List.mem_cons_of_mem _ hmem)
    · rw [List.mem_singleton.1 hkind]
      decide
  refine ⟨⟨?_, hlast, fun w hw heof => ?_, ?_, fun _ kind hkind => ?_⟩, ?_, hstop⟩
  · rw [hwords, Cursor.words, hunread, List.append_assoc, List.map_append]
    rfl
  · have hmem : w.kind ∈ c'.kinds.tail := List.mem_map_of_mem hw
    rw [hkinds, List.tail_cons] at hmem
    exact hinner _ hmem (by rw [heof]; decide)
  · rw [hkinds, ← List.cons_append, List.getLast?_concat]
  · rw [hkinds] at hkind
    rcases List.mem_cons.1 hkind with rfl | hkind
    · decide
    · exact fun hmem => hinner kind hkind (List.mem_append_left [TokenKind.eof] hmem)
  · rw [hunread]
    exact ⟨front ++ [g.semicolon], by simp⟩

/-- Where the words are those of the same place, so are the tokens. -/
theorem Near.of_precedes (h : g.Near c c') (hm : c.Precedes m) (hnear : g.sequel.Near m m') :
    g.Near m m' := by
  refine ⟨hnear, List.suffix_of_suffix_length_le h.suffix hm.suffix ?_, hm.stop.trans h.stop⟩
  have hlength := congrArg List.length hnear.words
  rw [Cursor.words, List.length_map, List.length_append, sequel, List.length_map] at hlength
  omega

end Seam

/-! ## Programs -/

/-- The run of a program comes behind the semicolon when it has read `front` and found `n` errors.
-/
def Seam.Passed (g : Seam) (front : Program Unit) (n : Nat) (p : Program Unit)
    (es : List ParseError) (d : Cursor) : Prop :=
  ∃ m back found es', m.unread = g.rest ∧ m.stop = g.stop ∧ ProgramRun m back es' d ∧
    p = front ++ back ∧ es = found ++ es' ∧ found.length = n

theorem Seam.Passed.after {g : Seam} {front p : Program Unit} {n : Nat} {es : List ParseError}
    {d : Cursor} (h : g.Passed front n p es d) (ss : Program Unit) (es₀ : List ParseError) :
    g.Passed (ss ++ front) (es₀.length + n) (ss ++ p) (es₀ ++ es) d := by
  obtain ⟨m, back, found, es', hm, hstop, hrun, rfl, rfl, rfl⟩ := h
  exact ⟨m, back, es₀ ++ found, es', hm, hstop, hrun, (List.append_assoc _ _ _).symm,
    (List.append_assoc _ _ _).symm, List.length_append⟩

/-- Of two runs that start before the semicolon or behind it, the first comes behind it when it has
read what the second reads, with as many errors. -/
theorem ProgramRun.passes {g : Seam} {c' d' : Cursor} {p' : Program Unit} {es' : List ParseError}
    (h' : ProgramRun c' p' es' d') {c d : Cursor} {p : Program Unit} {es : List ParseError}
    (h : ProgramRun c p es d) (hc : g.Near c c') : g.Passed p' es'.length p es d := by
  -- The induction is on the run that ends at the semicolon, since the other one goes on behind it.
  induction h' generalizing c p es with
  | stop heof =>
    rcases hc.near.before_or_behind with hbefore | hbehind
    · exact absurd heof hbefore.peek_kind_ne_eof
    · have hlength : g.rest.length = c.unread.length := by
        have hwords := hc.near.words
        rw [hbehind.2, List.nil_append] at hwords
        have hlength := congrArg List.length hwords
        rwa [Cursor.words, List.length_map, Seam.sequel, List.length_map, eq_comm] at hlength
      exact ⟨c, p, [], es, (hc.suffix.eq_of_length hlength).symm, hc.stop, h, rfl, rfl, rfl⟩
  | statement hne hrun' _ ih =>
    have hbefore := hc.near.before_of_ne_eof hne
    -- The two statements agree, so neither breaks off alone.
    cases h with
    | stop heof => exact absurd (hbefore.peek_kind.symm.trans heof) hne
    | @statement _ _ _ _ _ _ es₀ _ _ hrun hrest =>
      cases (Sequel.agrees_all _ _).statement _ _ _ _ hbefore hrun hrun' with
      | value hlength hm =>
        rw [List.length_append, ← hlength]
        exact (ih hrest (hc.of_precedes (Parser.statement_precedes hrun) hm)).after [_] es₀
      | lost hbraces _ => cases hbraces
    | recover _ hrun _ =>
      cases (Sequel.agrees_all _ _).statement _ _ _ _ hbefore hrun hrun' with
      | lost hbraces _ => cases hbraces
  | @recover _ _ _ _ e' _ es₁ es₂ hne hrun' _ ih =>
    have hbefore := hc.near.before_of_ne_eof hne
    cases h with
    | stop heof => exact absurd (hbefore.peek_kind.symm.trans heof) hne
    | statement _ hrun _ =>
      cases (Sequel.agrees_all _ _).statement _ _ _ _ hbefore hrun hrun' with
      | lost hbraces _ => cases hbraces
    | @recover _ _ _ _ e _ es₀ es₃ _ hrun hrest =>
      cases (Sequel.agrees_all _ _).statement _ _ _ _ hbefore hrun hrun' with
      | error hlength hm =>
        have hresumed := (hc.of_precedes (Parser.statement_precedes hrun) hm).of_precedes
          (Cursor.precedes_recover _) hm.recover
        have hpassed := (ih hrest hresumed).after [] (es₀ ++ [e])
        have hcount : (es₁ ++ e' :: es₂).length = (es₀ ++ [e]).length + es₂.length := by
          rw [List.length_append, List.length_cons, List.length_append, List.length_singleton,
            hlength]
          omega
        rw [hcount, List.append_cons es₀ e es₃]
        exact hpassed
      | lost hbraces _ => cases hbraces

/-- A broken statement without braces does not disturb what stands behind its semicolon. Let `b`
have no semicolon and no brace among its tokens, let the one token of `s` be a semicolon, and let
the first token of `r` be no semicolon, comma or closing parenthesis. The statements of `b ++ s ++
r` are those of `b ++ s` and those of `r`; it has as many errors as both, and ends with the errors
of `r`, all of them later by the length of `b ++ s`. -/
theorem parse_behind_semicolon {b s r : String}
    (hb : ∀ t ∈ scan b, t.kind ∉ [TokenKind.semicolon, .leftBrace, .rightBrace])
    (hs : (scan s).map Token.kind = [.semicolon])
    (hr : ∀ t ∈ (scan r).head?, t.kind ∉ [TokenKind.semicolon, .comma, .rightParen]) :
    (parse (b ++ s ++ r)).program = (parse (b ++ s)).program ++ (parse r).program ∧
      (parse (b ++ s ++ r)).errors.length =
        (parse (b ++ s)).errors.length + (parse r).errors.length ∧
      (parse r).errors.map (ParseError.moved (· + (b ++ s).utf8ByteSize)) <:+
        (parse (b ++ s ++ r)).errors := by
  obtain ⟨t, hkind, hfirst, hboth⟩ := scan_around_semicolon b r hs
  -- The seam is the token of `s`, with the tokens of `r` at later places behind it.
  let g : Seam :=
    { semicolon := t
      kind_semicolon := hkind
      rest := (scan r).map (Token.moved (· + (b ++ s).utf8ByteSize))
      fresh := by
        intro u hu
        rw [List.head?_map, Option.mem_def, Option.map_eq_some_iff] at hu
        obtain ⟨v, hv, rfl⟩ := hu
        exact hr v hv
      stop := (b ++ s ++ r).utf8ByteSize }
  have hbefore : g.Before (Cursor.ofSource (b ++ s ++ r)) (Cursor.ofSource (b ++ s)) := by
    refine ⟨scan b, fun u hu => ?_, hboth, hfirst, rfl, rfl, rfl⟩
    have hne := kind_ne_eof_of_mem_scan u hu
    have hfree := hb u hu
    simp only [TokenKind.Inner, List.mem_cons, List.not_mem_nil, not_or] at hfree ⊢
    exact ⟨hfree.1, hfree.2.1, hfree.2.2.1, hne, not_false⟩
  obtain ⟨m, back, found, es, hm, hstop, hrun, hprogram, herrors, hfound⟩ :=
    (Cursor.ofSource (b ++ s)).parse_run.passes (Cursor.ofSource (b ++ s ++ r)).parse_run
      hbefore.near
  have hstop' : m.stop = r.utf8ByteSize + (b ++ s).utf8ByteSize := by
    rw [hstop]
    show (b ++ s ++ r).utf8ByteSize = _
    rw [String.utf8ByteSize_append, Nat.add_comm]
  -- What is read behind the seam is the run of `r` at these places.
  obtain ⟨rfl, rfl⟩ := (Cursor.ofSource r).parse_run.moved hrun hm hstop'
  refine ⟨hprogram, ?_, found, herrors.symm⟩
  have hlength := congrArg List.length herrors
  rwa [List.length_append, List.length_map, hfound] at hlength

/-- The broken argument of a call reads the semicolon, and the call breaks off at the name behind
it: this name is a statement of its own, and the error behind it is found too. -/
theorem parse_behind_semicolon_argument :
    (parse ("f(1, -" ++ ";" ++ " y; let 2;")).program = [.expr (.callable (.name "y"))] ∧
      (parse ("f(1, -" ++ ";" ++ " y; let 2;")).errors.length = 2 + 1 ∧
      [.unexpectedToken .identifier ⟨.integer, "2", 15⟩] <:+
        (parse ("f(1, -" ++ ";" ++ " y; let 2;")).errors := by
  have hb : scan "f(1, -" = [⟨.identifier, "f", 0⟩, ⟨.leftParen, "(", 1⟩, ⟨.integer, "1", 2⟩,
      ⟨.comma, ",", 3⟩, ⟨.minus, "-", 5⟩] := by
    cbv
  have hr : (scan " y; let 2;").head? = some ⟨.identifier, "y", 1⟩ := by
    cbv
  obtain ⟨hprogram, hlength, hsuffix⟩ := @parse_behind_semicolon "f(1, -" ";" " y; let 2;"
    (by rw [hb]; decide) (by cbv) (by rw [hr]; decide)
  have hbroken : (parse ("f(1, -" ++ ";")).errors.length = 2 := by
    cbv
  have herrors : (parse " y; let 2;").errors =
      [.unexpectedToken .identifier ⟨.integer, "2", 8⟩] := by
    cbv
  rw [hbroken, herrors] at hlength
  rw [herrors] at hsuffix
  refine ⟨?_, hlength, hsuffix⟩
  rw [hprogram]
  cbv

end LetLang
