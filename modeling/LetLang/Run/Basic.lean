import LetLang.Evaluation.Rules
import LetLang.Parse.Grammar

/-!
# Running sources

A source is run in a world, which keeps the bindings between one source and the next. A source
with parse errors is not evaluated. What is shown of a source is its value, its canonical text
or its tokens; the last two leave the world as it is.

An evaluation takes the depth it may use, and has no outcome if that is too little.
-/

namespace LetLang

/-- What to show of a source. -/
inductive Emit where
  | value
  | ast
  | tokens
  deriving DecidableEq

/-- The choice of the given name. -/
def Emit.ofName? : String → Option Emit
  | "value" => some value
  | "ast" => some ast
  | "tokens" => some tokens
  | _ => none

/-- Why a source cannot be shown. -/
inductive RunError where
  | parse (errors : List ParseError)
  | evaluation (e : EvalError)
  deriving DecidableEq

/-- The report of an error. -/
def RunError.message : RunError → String
  | parse errors => ParseError.report errors
  | evaluation e => "ERROR: " ++ e.message

/-- A heap and the environment in which sources are run. -/
structure World where
  heap : Heap Unit
  env : FrameId

namespace World

/-- The world without bindings. -/
def fresh : World :=
  let (env, heap) := Heap.empty.enclose none
  ⟨heap, env⟩

/-- Evaluates a program. -/
def evaluate (depth : Nat) (program : Program Unit) (w : World) :
    Option (Except EvalError (Value Unit) × World) :=
  (Eval.block depth w.env program w.heap).map fun (result, heap) =>
    (Unwind.settle result, { w with heap })

/-- Parses and evaluates a source. -/
def run (depth : Nat) (source : String) (w : World) :
    Option (Except RunError (Value Unit) × World) :=
  match parse? source with
  | .error errors => some (.error (.parse errors), w)
  | .ok program =>
      (w.evaluate depth program).map fun (result, w') => (result.mapError .evaluation, w')

end World

/-- The rows of the tokens of a source. -/
def tokenListing (source : String) : String := Token.rows (scan source)

/-- The canonical text of a source, without the last line break. -/
def canonicalText (source : String) : Except RunError String :=
  match parse? source with
  | .error errors => .error (.parse errors)
  | .ok program => .ok (Text.trimEnd (programText program))

/-- Shows a source. -/
def World.execute (depth : Nat) (emit : Emit) (source : String) (w : World) :
    Option (Except RunError String × World) :=
  match emit with
  | .value => (w.run depth source).map fun (result, w') => (result.map Value.text, w')
  | .ast => some (canonicalText source, w)
  | .tokens => some (.ok (tokenListing source), w)

/-- Shows a source in a fresh world. -/
def execute (depth : Nat) (emit : Emit) (source : String) : Option (Except RunError String) :=
  (World.fresh.execute depth emit source).map Prod.fst

end LetLang
