import LetLang.Run.Basic
import LetLang.Text.Typed

/-!
# Dialogues

A dialogue shows one line after the other in one world, each after a prompt. A line may be typed
with corrections. The dialogue ends with the input, or at a line that cannot be read.
-/

namespace LetLang.Dialogue

/-- What is printed before a line is read. -/
def prompt : String := ">> "

/-- What is printed at the end of the input. -/
def farewell : String := "CTRL-D\n"

/-- A line without the line break that ends it. A carriage return is part of the line break. -/
def chomp (line : String) : String :=
  match line.toList.reverse with
  | '\n' :: '\r' :: cs => String.ofList cs.reverse
  | '\n' :: cs => String.ofList cs.reverse
  | _ => line

/-- What is printed for a line. A blank line has no answer. -/
def answer (depth : Nat) (emit : Emit) (line : String) (w : World) : Option (String × World) :=
  if Text.allBlank line then some ("", w)
  else
    (w.execute depth emit line).map fun (result, w') =>
      match result with
      | .ok shown => (shown ++ "\n", w')
      | .error e => (e.message ++ "\n", w')

/-- The lines of an input, each with the line break that ends it. -/
def lines : List UInt8 → List (List UInt8)
  | [] => []
  | b :: rest =>
    if b = 10 then [b] :: lines rest
    else match lines rest with
      | [] => [[b]]
      | line :: more => (b :: line) :: more

/-- How a dialogue ends: with the input or at a line that is no text, or at a line whose
corrections end within a character. -/
inductive Ending where
  | finished
  | torn
  deriving DecidableEq

/-- What a line of the input comes to: what is printed for it and the world behind it, or the end
of the dialogue. -/
inductive Turn where
  | answered (shown : String) (w : World)
  | ended (ending : Ending)

/-- What a line of the input comes to. -/
def reply (depth : Nat) (emit : Emit) (line : List UInt8) (w : World) : Option Turn :=
  match String.fromUTF8? ⟨line.toArray⟩ with
  | none => some (.ended .finished)
  | some line =>
    match Text.corrected (chomp line) with
    | none => some (.ended .torn)
    | some line => (answer depth emit line w).map fun (shown, w') => .answered shown w'

/-- What is printed for the lines that are left, and how the dialogue ends. -/
def transcript (depth : Nat) (emit : Emit) (w : World) :
    List (List UInt8) → Option (String × Ending)
  | [] => some (prompt ++ farewell, .finished)
  | line :: rest => do
    match ← reply depth emit line w with
    | .ended ending => return (prompt, ending)
    | .answered shown w' =>
      let (more, ending) ← transcript depth emit w' rest
      return (prompt ++ shown ++ more, ending)

end LetLang.Dialogue
