import LetLang.Run.Basic

/-!
# Options of the command

Options may be short or long, short ones may stand together, and a value may follow in the
same argument or in the next. Behind a lone `--` no argument is an option.
-/

namespace LetLang

/-- What a command line asks for. Without a path, a dialogue is started. -/
structure Options where
  emit : Option Emit
  path : Option String

namespace Options

/-- The options before any argument is read. -/
def default : Options := ⟨none, none⟩

/-- Chooses what to show, which may be done once. -/
def setEmit (o : Options) (name : String) : Option Options := do
  guard o.emit.isNone
  let emit ← Emit.ofName? name
  return { o with emit := some emit }

/-- Names the file to run, which may be done once. -/
def setPath (o : Options) (path : String) : Option Options := do
  guard (o.path.isNone && !path.isEmpty)
  return { o with path := some path }

/-- What an argument is to the command. -/
inductive Argument where
  /-- The end of the options. -/
  | separator
  /-- An option without effect on what is shown. -/
  | verbose
  /-- The choice of what to show, with its value or with the value in the next argument. -/
  | emit (name : Option String)
  /-- A file to run. -/
  | path (path : String)
  /-- No argument of this command. -/
  | unknown

/-- What a group of short options stands for, without the hyphen. -/
def shortGroup : List Char → Argument
  | [] => .verbose
  | 'v' :: cs => shortGroup cs
  | ['e'] => .emit none
  | 'e' :: '=' :: cs => .emit (some (String.ofList cs))
  | 'e' :: cs => .emit (some (String.ofList cs))
  | _ => .unknown

/-- What an argument before the separator stands for. -/
def classify (arg : String) : Argument :=
  match arg.toList with
  | ['-', '-'] => .separator
  | '-' :: '-' :: cs =>
    match String.ofList (cs.takeWhile (· != '=')), cs.dropWhile (· != '=') with
    | "verbose", [] => .verbose
    | "emit", [] => .emit none
    | "emit", _ :: value => .emit (some (String.ofList value))
    | _, _ => .unknown
  | ['-'] => .path arg
  | '-' :: cs => shortGroup cs
  | _ => .path arg

/-- Reads arguments behind the separator. -/
def readPaths (o : Options) : List String → Option Options
  | [] => some o
  | arg :: rest => do readPaths (← o.setPath arg) rest

/-- Reads arguments; none if they do not fit the command. -/
def read (o : Options) : List String → Option Options
  | [] => some o
  | arg :: rest =>
    match classify arg with
    | .separator => o.readPaths rest
    | .verbose => read o rest
    | .path path => do read (← o.setPath path) rest
    | .emit (some name) => do read (← o.setEmit name) rest
    | .emit none =>
      match rest with
      | [] => none
      | name :: rest => do read (← o.setEmit name) rest
    | .unknown => none

/-- The options of a command line; none if it does not fit the command. -/
def ofArgs? (args : List String) : Option Options := default.read args

end Options

end LetLang
