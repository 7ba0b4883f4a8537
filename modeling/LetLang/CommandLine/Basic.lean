import LetLang.CommandLine.Files
import LetLang.CommandLine.Options
import LetLang.Run.Dialogue

/-!
# The command

What the command prints and how it exits, from its arguments, the files and the input.
-/

namespace LetLang

/-- What a command prints on its two outputs, and its exit code. -/
structure Response where
  stdout : String
  stderr : String
  exit : Nat
  deriving DecidableEq

namespace Response

/-- Success. -/
def success (stdout : String) : Response := ⟨stdout, "", 0⟩

/-- A failure that is reported in one message. -/
def failure (message : String) : Response := ⟨"", message ++ "\n", 1⟩

/-- The response to arguments that do not fit the command. -/
def usage : Response :=
  ⟨"", "usage: [-e|--emit value|ast|tokens] [-v|--verbose]... [--] [PATH]\n", 2⟩

/-- The response of a dialogue that has printed `stdout`. -/
def ofEnding (stdout : String) : Dialogue.Ending → Response
  | .finished => success stdout
  | .torn => ⟨stdout, "a correction ends within a character\n", 101⟩

end Response

/-- Runs the content of the file at a path. -/
def runFile (depth : Nat) (emit : Emit) (path : String) (content : Except ReadError ByteArray) :
    Option Response :=
  match content.bind decodeText with
  | .error e => some (.failure ("could not read " ++ path ++ ": " ++ e.message))
  | .ok source =>
    (execute depth emit source).map fun
      | .ok shown => .success (shown ++ "\n")
      | .error e => .failure e.message

/-- Answers the lines of an input. -/
def runDialogue (depth : Nat) (emit : Emit) (input : ByteArray) : Option Response :=
  (Dialogue.transcript depth emit .fresh (Dialogue.lines input.toList)).map
    fun (shown, ending) => .ofEnding shown ending

/-- The response of the command. -/
def respond (depth : Nat) (args : List String) (files : Files) (input : ByteArray) :
    Option Response :=
  match Options.ofArgs? args with
  | none => some .usage
  | some o =>
    let emit := o.emit.getD .value
    match o.path with
    | some path => runFile depth emit path (files.read path)
    | none => runDialogue depth emit input

end LetLang
