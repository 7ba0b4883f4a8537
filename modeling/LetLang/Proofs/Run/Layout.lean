import LetLang.Proofs.Parse.Completeness
import LetLang.Proofs.Parse.Moved
import LetLang.Run.Basic
import Mathlib

/-!
# Layout

Sources with the same words differ in the blanks between them, and so in the places of their tokens.
They have the same program, and the same errors but for the places in them, whether or not they are
sound; so they also run and print the same. This is `layout_does_not_matter`. All places are sent to
one here, which makes the two sources start at the same cursor.
-/

set_option autoImplicit false

namespace LetLang

/-- The error without the place it speaks of. -/
def ParseError.unplaced (e : ParseError) : ParseError := e.moved fun _ => 0

variable {source source' : String}

/-- Without places, a source is known by its words. -/
theorem parse_unplaced (hwords : (scan source).map Token.word = (scan source').map Token.word) :
    (parse source).program = (parse source').program ∧
      (parse source).errors.map ParseError.unplaced =
        (parse source').errors.map ParseError.unplaced := by
  have hunread : (scan source).map (Token.moved fun _ => 0) =
      (scan source').map (Token.moved fun _ => 0) := by
    have hmap := congrArg (List.map fun w : Word => (⟨w.kind, w.text, 0⟩ : Token)) hwords
    rw [List.map_map, List.map_map] at hmap
    exact hmap
  -- The cursor of the first source with its places sent to 0 is also that of the second.
  let c : Cursor := (Cursor.ofSource source).moved fun _ => 0
  obtain ⟨hprogram, herrors⟩ := @Cursor.parse_moved (fun _ => 0) (Cursor.ofSource source) c rfl rfl
  obtain ⟨hprogram', herrors'⟩ :=
    @Cursor.parse_moved (fun _ => 0) (Cursor.ofSource source') c hunread rfl
  exact ⟨hprogram.symm.trans hprogram', herrors.symm.trans herrors'⟩

theorem parse?_eq_of_words (hwords : (scan source).map Token.word = (scan source').map Token.word)
    (hsound : (parse source).errors = []) : parse? source = parse? source' := by
  obtain ⟨hprogram, herrors⟩ := parse_unplaced hwords
  rw [hsound, List.map_nil, eq_comm, List.map_eq_nil_iff] at herrors
  rw [parse?_eq_ok.2 ⟨hsound, hprogram⟩, parse?_eq_ok.2 ⟨herrors, rfl⟩]

/-- Layout does not matter. Sources whose tokens agree in kind and text have the same program and,
but for the places in them, the same errors. If there are none, then in every world both sources
have the same canonical text, and the same value or error of evaluation. -/
theorem layout_does_not_matter
    (hwords : (scan source).map Token.word = (scan source').map Token.word) :
    (parse source).program = (parse source').program ∧
      (parse source).errors.map ParseError.unplaced =
        (parse source').errors.map ParseError.unplaced ∧
      ((parse source).errors = [] → ∀ (depth : Nat) (w : World),
        w.execute depth .ast source = w.execute depth .ast source' ∧
          w.execute depth .value source = w.execute depth .value source') := by
  obtain ⟨hprogram, herrors⟩ := parse_unplaced hwords
  refine ⟨hprogram, herrors, fun hsound depth w => ?_⟩
  have hparse := parse?_eq_of_words hwords hsound
  constructor
  · rw [World.execute, World.execute, canonicalText, canonicalText, hparse]
  · rw [World.execute, World.execute, World.run, World.run, hparse]

/-- Two sound sources, the second with a line break between its statements, and two broken ones. -/
theorem layout_does_not_matter_line_break :
    (∀ (depth : Nat) (w : World),
      w.execute depth .value "let x=1;x+2" = w.execute depth .value "let x = 1;\n  x + 2") ∧
    (parse "let 1").errors.map ParseError.unplaced =
      (parse "let\n1").errors.map ParseError.unplaced := by
  have hsound : (scan "let x=1;x+2").map Token.word =
      (scan "let x = 1;\n  x + 2").map Token.word := by
    cbv
  have hbroken : (scan "let 1").map Token.word = (scan "let\n1").map Token.word := by
    cbv
  obtain ⟨-, -, hruns⟩ := layout_does_not_matter hsound
  obtain ⟨-, herrors, -⟩ := layout_does_not_matter hbroken
  exact ⟨fun depth w => (hruns (by cbv) depth w).2, herrors⟩

end LetLang
