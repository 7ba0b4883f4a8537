import LetLang.Proofs.Parse.Completeness
import LetLang.Proofs.Parse.Invariant
import LetLang.Proofs.Parse.Moved
import LetLang.Proofs.Parse.Sequence
import LetLang.Proofs.Scan.Concatenation

/-!
# Sources one after another

A source without errors that ends with a semicolon is read to its end whatever stands behind it: its
statements are derived from its words alone (`Grammar.Statements`), and the parser reads what is
derived. So the run of a longer source comes to the place behind it (`ProgramRun.append`), and from
there on it is a run of the other source, only at later places. This is
`parse_append_of_semicolon`.
-/

set_option autoImplicit false

namespace LetLang

open LetLang.Parser LetLang.Grammar

namespace Grammar

variable {ws mid more : List Word}

/-- A statement of a program that ends with a semicolon, when more words follow the program. -/
theorem Statement.append_closed {s : Stmt Unit} (h : Statement ws s mid) (hclosed : Closed ws) :
    Statement (ws ++ more) s (mid ++ more) := by
  by_cases hmid : mid = []
  · subst hmid
    exact h.append_of_closed hclosed
  · exact h.append hmid

/-- What stands behind a statement of a program, if a semicolon does not follow the program. -/
theorem Statements.nextKind_append_ne {ss : List (Stmt Unit)} (h : Statements mid ss [])
    (hmore : nextKind more ≠ .semicolon) : nextKind (mid ++ more) ≠ .semicolon := by
  cases mid with
  | nil => exact hmore
  | cons w mid => exact h.nextKind_ne_semicolon (by decide)

end Grammar

/-- The tokens that are left when the words in front of some others have been read in part. -/
theorem exists_of_suffix_append {ts us : List Token} {mid : List Word} {unread : List Token}
    (hsuffix : unread <:+ ts ++ us) (hwords : unread.map Token.word = mid ++ us.map Token.word) :
    ∃ ts', unread = ts' ++ us ∧ ts'.map Token.word = mid := by
  have hlength := congrArg List.length hwords
  rw [List.length_append, List.length_map, List.length_map] at hlength
  obtain ⟨ts', rfl⟩ := List.suffix_of_suffix_length_le (List.suffix_append ts us) hsuffix (by omega)
  rw [List.map_append] at hwords
  exact ⟨ts', rfl, List.append_cancel_right hwords⟩

/-- A run whose first tokens are those of a program that ends with a semicolon reads this program,
and goes on behind it. -/
theorem ProgramRun.append {ws : List Word} {p : Program Unit} (h : Statements ws p [])
    (hclosed : ws ≠ [] → Closed ws) {us : List Token}
    (hus : nextKind (us.map Token.word) ≠ .semicolon) {c d : Cursor} {q : Program Unit}
    {es : List ParseError} (hrun : ProgramRun c q es d) {ts : List Token}
    (hunread : c.unread = ts ++ us) (hts : ts.map Token.word = ws) :
    ∃ m q', m.unread = us ∧ m.stop = c.stop ∧ q = p ++ q' ∧ ProgramRun m q' es d := by
  induction p generalizing ws c q es ts with
  | nil =>
    cases h
    rw [List.map_eq_nil_iff.1 hts, List.nil_append] at hunread
    exact ⟨c, q, hunread, rfl, rfl, hrun⟩
  | cons s p ih =>
    cases h with
    | @cons _ mid _ _ _ hs hss =>
      have hstart : nextKind ws ≠ .eof := hs.nextKind_ne (by decide)
      have hend : Closed ws := hclosed fun hnil => hstart (by rw [hnil, nextKind_nil])
      have hs' : Statement (ws ++ us.map Token.word) s (mid ++ us.map Token.word) :=
        hs.append_closed hend
      have hwords : c.words = ws ++ us.map Token.word := by
        rw [Cursor.words, hunread, List.map_append, hts]
      -- What is derived is read at every depth, so the depth in the run does not matter.
      have hyields : ∀ depth, (Parser.statement depth).Yields c s (mid ++ us.map Token.word) :=
        fun depth => hs'.yields hwords (hss.nextKind_append_ne hus)
      cases hrun with
      | stop heof =>
        rw [Cursor.peek_kind, hwords] at heof
        exact absurd heof (hs'.nextKind_ne (by decide))
      | recover _ hstatement _ => cases (hyields _ _ hstatement).value
      | @statement depth _ m _ s' ss es' es'' _ hstatement hrest =>
        obtain ⟨hvalue, herrors, hleft⟩ := hyields _ _ hstatement
        -- The words left end with those of `us`, and so do the tokens, as the end of `ts ++ us`.
        obtain ⟨hsuffix, hstop⟩ := statement_precedes hstatement
        rw [hunread] at hsuffix
        obtain ⟨ts', hm, hts'⟩ := exists_of_suffix_append hsuffix hleft
        obtain ⟨m', q', hm', hstop', rfl, hrun'⟩ :=
          ih hss (fun hmid => hend.of_suffix hs.suffix hmid) hrest hm hts'
        obtain rfl : s' = s := Except.ok.inj hvalue
        obtain rfl : es' = [] := herrors
        exact ⟨m', q', hm', hstop'.trans hstop, rfl, hrun'⟩

/-- Parsing is compositional at the ends of statements. Let the source `a` have the program `p` and
no errors, and let its last token, if it has one, be a semicolon. If the first token of `b` is no
semicolon, then `a ++ b` has the statements of `p` and those of `b`, and the errors of `b`, all of
them later by the length of `a`. -/
theorem parse_append_of_semicolon {a b : String} {p : Program Unit} (ha : parse? a = .ok p)
    (hend : ∀ t ∈ (scan a).getLast?, t.kind = .semicolon)
    (hb : ∀ t ∈ (scan b).head?, t.kind ≠ .semicolon) :
    (parse (a ++ b)).program = p ++ (parse b).program ∧
      (parse (a ++ b)).errors =
        (parse b).errors.map (ParseError.moved (· + a.utf8ByteSize)) := by
  have hscan : scan (a ++ b) = scan a ++ (scan b).map (Token.moved (· + a.utf8ByteSize)) :=
    scan_append_of_closed hend
  have hderives : Statements ((scan a).map Token.word) p [] :=
    parse_eq_iff_derives.1 (parse?_eq_ok.1 ha)
  have hclosed : (scan a).map Token.word ≠ [] → Closed ((scan a).map Token.word) :=
    closed_of_getLast? hend
  have hus : nextKind (((scan b).map (Token.moved (· + a.utf8ByteSize))).map Token.word) ≠
      .semicolon := by
    cases hscan' : scan b with
    | nil => exact fun h => by cases h
    | cons t ts => exact hb t (by rw [hscan']; rfl)
  obtain ⟨m, q, hm, hstop, hq, hrun⟩ :=
    ProgramRun.append hderives hclosed hus (Cursor.ofSource (a ++ b)).parse_run hscan rfl
  -- What is read behind `a` is the run of `b`, at places that are later by the length of `a`.
  have hstop' : m.stop = b.utf8ByteSize + a.utf8ByteSize := by
    rw [hstop, Cursor.ofSource, String.utf8ByteSize_append, Nat.add_comm]
  obtain ⟨rfl, herrors⟩ := (Cursor.ofSource b).parse_run.moved hrun hm hstop'
  exact ⟨hq, herrors⟩

/-- A sound statement before a broken one and a sound one. -/
theorem parse_append_of_semicolon_broken :
    (parse ("let x = 1;" ++ " let = 2; x")).program =
        [.letDecl "x" (.int 1), .expr (.callable (.name "x"))] ∧
      (parse ("let x = 1;" ++ " let = 2; x")).errors =
        [.unexpectedToken .identifier ⟨.assign, "=", 15⟩] := by
  have hsound : parse? "let x = 1;" = .ok [.letDecl "x" (.int 1)] := by cbv
  have hlast : (scan "let x = 1;").getLast? = some ⟨.semicolon, ";", 9⟩ := by cbv
  have hfirst : (scan " let = 2; x").head? = some ⟨.letWord, "let", 1⟩ := by cbv
  obtain ⟨hprogram, herrors⟩ := @parse_append_of_semicolon "let x = 1;" " let = 2; x" _ hsound
    (fun t ht => by cases hlast.symm.trans ht; rfl)
    (fun t ht => by cases hfirst.symm.trans ht; decide)
  rw [hprogram, herrors]
  constructor
  · cbv
  · cbv

end LetLang
