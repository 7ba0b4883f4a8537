import LetLang.CommandLine.Basic

/-!
# The program

Reads the file or the lines that the command asks for, and prints the response.
-/

namespace LetLang

/-- The depth granted to an evaluation. -/
def depthLimit : Nat := 1000000000

/-- What is printed if an evaluation has no outcome in the granted depth. -/
def tooDeep : Response := ⟨"", "evaluation is nested too deeply\n", 1⟩

/-- Prints a response. -/
def Response.print (r : Response) : IO UInt32 := do
  IO.print r.stdout
  IO.eprint r.stderr
  return r.exit.toUInt32

/-- The reason of a failure to read a file. Codes of the system may come with their sign
changed. -/
def ReadError.ofSystem (e : IO.Error) : ReadError :=
  match e with
  | .noFileOrDirectory .. => .notFound
  | .permissionDenied .. => .denied
  | .inappropriateType _ code _ =>
      if code = 20 || code = -20 then .notADirectory else .isADirectory
  | .invalidArgument _ code _ =>
      if code = 36 || code = -36 then .nameTooLong else .other (toString e)
  | _ => .other (toString e)

/-- Reads a file. -/
def readFile (path : String) : IO (Except ReadError ByteArray) := do
  try
    return .ok (← IO.FS.readBinFile path)
  catch e =>
    return .error (.ofSystem e)

/-- Reads a line with its line break, byte by byte; at the end of the input it is empty. -/
partial def readLine (stdin : IO.FS.Stream) (line : List UInt8) : IO (List UInt8) := do
  match (← stdin.read 1).toList with
  | [] => return line.reverse
  | b :: _ => if b = 10 then return (b :: line).reverse else readLine stdin (b :: line)

/-- Answers the lines of the standard input as they come in. -/
partial def converse (emit : Emit) (w : World) : IO UInt32 := do
  let stdout ← IO.getStdout
  stdout.putStr Dialogue.prompt
  stdout.flush
  let line ← readLine (← IO.getStdin) []
  if line.isEmpty then
    stdout.putStr Dialogue.farewell
    return 0
  match Dialogue.reply depthLimit emit line w with
  | none => tooDeep.print
  | some (.ended ending) => (Response.ofEnding "" ending).print
  | some (.answered shown w') =>
    stdout.putStr shown
    converse emit w'

end LetLang

open LetLang in
/-- Runs the command with the arguments of its command line. -/
def main (args : List String) : IO UInt32 := do
  match Options.ofArgs? args with
  | none => Response.usage.print
  | some o =>
    let emit := o.emit.getD .value
    match o.path with
    | none => converse emit .fresh
    | some path =>
      ((runFile depthLimit emit path (← readFile path)).getD tooDeep).print
