import LetLang.Evaluation.Rules
import LetLang.Heap.Listing
import LetLang.Parse.Grammar
import LetLang.Syntax.Label

/-!
# Sessions

A session is what a host keeps that embeds the language: a heap, handles to environments, and
values that it wants to use again. Programs are numbered as they come in, so that the host can
tell whether two functions come from one literal.
-/

namespace LetLang

/-- A heap, environments by handle, values by slot, and the next label. -/
structure Session where
  heap : Heap Nat
  envs : Array FrameId
  kept : Array (Value Nat)
  nextLabel : Nat

/-- A value as a host writes it. -/
inductive Operand where
  | null
  | bool (b : Bool)
  | int (v : Int64)
  | slot (n : Nat)

/-- Why a host's request cannot be met. -/
inductive SessionError where
  | noEnvironment
  | noSlot
  | notAFunction (kind : ValueKind)

namespace Session

/-- The session with one environment, which has handle 0. -/
def start : Session :=
  let (e, heap) := Heap.empty.enclose none
  ⟨heap, #[e], #[], 0⟩

/-- The environment of a handle. -/
def env (s : Session) (handle : Nat) : Except SessionError FrameId :=
  match s.envs[handle]? with
  | some e => .ok e
  | none => .error .noEnvironment

/-- The value of an operand. -/
def operand (s : Session) : Operand → Except SessionError (Value Nat)
  | .null => .ok .null
  | .bool b => .ok (.bool b)
  | .int v => .ok (.int v)
  | .slot n =>
    match s.kept[n]? with
    | some v => .ok v
    | none => .error .noSlot

/-- The function that an operand stands for. -/
def function (s : Session) (a : Operand) : Except SessionError (Closure Nat) := do
  match ← s.operand a with
  | .func f => return f
  | v => throw (.notAFunction v.kind)

/-- Gives an environment a handle. -/
def handle (s : Session) (e : FrameId) : Nat × Session :=
  (s.envs.size, { s with envs := s.envs.push e })

/-- Keeps a value in a slot. -/
def keep (s : Session) (v : Value Nat) : Nat × Session :=
  (s.kept.size, { s with kept := s.kept.push v })

/-- Makes a frame and gives it a handle. -/
def addFrame (s : Session) (f : Frame Nat) : Nat × Session :=
  let (e, heap) := s.heap.alloc f
  { s with heap }.handle e

/-- Binds a name. -/
def insert (s : Session) (e : FrameId) (x : String) (v : Value Nat) : Session :=
  { s with heap := s.heap.insert e x v }

/-- The program with its literals labelled apart from all others of the session. -/
def load (s : Session) (program : Program Unit) : Program Nat × Session :=
  let (labelled, n) := labelStmts program s.nextLabel
  (labelled, { s with nextLabel := n })

/-- Runs an evaluation on the heap of the session. -/
def perform {β : Type} (s : Session) (m : Eval Nat β) :
    Option (Except (Unwind Nat) β × Session) :=
  (m s.heap).map fun (result, heap) => (result, { s with heap })

/-- Evaluates a program, and keeps its value. -/
def run (s : Session) (depth : Nat) (e : FrameId) (program : Program Unit) :
    Option (Except EvalError (Nat × Value Nat) × Session) := do
  let (program, s) := s.load program
  let (result, s) ← s.perform (Eval.block depth e program)
  match Unwind.settle result with
  | .error err => return (.error err, s)
  | .ok v =>
    let (slot, s) := s.keep v
    return (.ok (slot, v), s)

/-- Evaluates statements one by one, whatever becomes of those before. -/
def each (depth : Nat) (e : FrameId) (s : Session) :
    Program Nat → Option (List (Except (Unwind Nat) (Value Nat)) × Session)
  | [] => some ([], s)
  | stmt :: rest => do
    let (result, s) ← s.perform (Eval.statement depth e stmt)
    let (results, s) ← each depth e s rest
    return (result :: results, s)

end Session

end LetLang
