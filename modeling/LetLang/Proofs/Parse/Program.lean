import LetLang.Proofs.Parse.Steps

/-!
# How a program is read

A program is read statement by statement. Each statement is either read to its end or breaks off
with an error, and then reading goes on behind the place where it recovers. `ProgramRun` is this
course of events without the depths that the parser was granted; `Cursor.parse_run` says that
parsing takes it.
-/

set_option autoImplicit false

namespace LetLang

open LetLang.Parser

/-- From the first cursor to the second, the statements of a program are read and errors are
found. -/
inductive ProgramRun : Cursor → Program Unit → List ParseError → Cursor → Prop
  | stop {c : Cursor} : c.peek.kind = .eof → ProgramRun c [] [] c
  | statement {depth : Nat} {c m c' : Cursor} {s : Stmt Unit} {ss : Program Unit}
      {es es' : List ParseError} :
      c.peek.kind ≠ .eof → statement depth c = some ⟨.ok s, es, m⟩ → ProgramRun m ss es' c' →
      ProgramRun c (s :: ss) (es ++ es') c'
  | recover {depth : Nat} {c m c' : Cursor} {e : ParseError} {ss : Program Unit}
      {es es' : List ParseError} :
      c.peek.kind ≠ .eof → statement depth c = some ⟨.error e, es, m⟩ →
      ProgramRun m.recover ss es' c' → ProgramRun c ss (es ++ e :: es') c'

/-- The parser of programs runs through its statements, and does not end with an error. -/
theorem Parser.program_run : ∀ {depth : Nat} {c : Cursor} {out : Outcome (Program Unit)},
    program depth c = some out → ∃ p, out.value = .ok p ∧ ProgramRun c p out.errors out.cursor
  | 0, c, out, hout => by
    rw [program] at hout
    cases hout
  | depth + 1, c, out, hout => by
    rw [program, peek_bind] at hout
    split at hout
    · next heof =>
      cases hout
      exact ⟨[], rfl, .stop heof⟩
    · next heof =>
      obtain ⟨value, es, m, rest, hrun, hrest, rfl⟩ := attempt_bind_eq_some hout
      cases value with
      | ok s =>
        obtain ⟨e, es', d, hprogram, -⟩ | ⟨p, es', d, last, hprogram, hlast, rfl⟩ :=
          bind_eq_some hrest
        · -- The rest of a program does not end with an error.
          obtain ⟨p, hp, -⟩ := program_run hprogram
          cases hp
        · cases hlast
          obtain ⟨p', hp, hrun'⟩ := program_run hprogram
          obtain rfl := Except.ok.inj hp
          refine ⟨s :: p, rfl, ?_⟩
          show ProgramRun c (s :: p) (es ++ (es' ++ [])) d
          rw [List.append_nil]
          exact .statement heof hrun hrun'
      | error e =>
        obtain ⟨tail, htail, rfl⟩ := record_bind_eq_some hrest
        rw [move_bind] at htail
        obtain ⟨p, hp, hrun'⟩ := program_run htail
        exact ⟨p, hp, .recover heof hrun hrun'⟩

/-- Parsing runs through the tokens that are left. -/
theorem Cursor.parse_run (c : Cursor) :
    ProgramRun c c.parse.program c.parse.errors c.parse.cursor := by
  obtain ⟨p, hp, hrun⟩ := program_run c.parse_eq
  obtain rfl := Except.ok.inj hp
  exact hrun

end LetLang
