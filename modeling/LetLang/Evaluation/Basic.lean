import LetLang.Heap.Basic
import LetLang.Value.Operators

/-!
# Evaluations

An evaluation runs on a heap. It ends with a result or unwinds, by an error or by a `return`,
and leaves a heap in both cases. An evaluation that runs out of the depth it was granted has
no outcome.
-/

namespace LetLang

/-- Why an evaluation stops before its end. -/
inductive Unwind (α : Type) where
  | ret (v : Value α)
  | error (e : EvalError)

/-- An evaluation of a `β`. -/
def Eval (α β : Type) : Type := Heap α → Option (Except (Unwind α) β × Heap α)

namespace Eval

variable {α β γ : Type}

/-- The evaluation that does nothing. -/
def pure (b : β) : Eval α β := fun h => some (.ok b, h)

/-- One evaluation after another. If the first unwinds, both do. -/
def bind (m : Eval α β) (f : β → Eval α γ) : Eval α γ := fun h =>
  match m h with
  | none => none
  | some (.error u, h') => some (.error u, h')
  | some (.ok b, h') => f b h'

instance : Monad (Eval α) where
  pure := Eval.pure
  bind := Eval.bind

/-- The evaluation whose depth is used up. -/
def exhausted : Eval α β := fun _ => none

/-- Unwinds. -/
def unwind (u : Unwind α) : Eval α β := fun h => some (.error u, h)

/-- A result, or the error in its place. -/
def ofExcept : Except EvalError β → Eval α β
  | .ok b => pure b
  | .error e => unwind (.error e)

/-- The value of a name. -/
def find (e : FrameId) (x : String) : Eval α (Value α) := fun h =>
  match h.find? e x with
  | some v => some (.ok v, h)
  | none => some (.error (.error (.unboundName x)), h)

/-- Binds a name in the innermost frame. -/
def insert (e : FrameId) (x : String) (v : Value α) : Eval α Unit := fun h =>
  some (.ok (), h.insert e x v)

/-- Makes a frame. -/
def alloc (f : Frame α) : Eval α FrameId := fun h =>
  let (e, h') := h.alloc f
  some (.ok e, h')

/-- Ends a `return` that unwinds the evaluation: its value is the result. -/
def catchReturn (m : Eval α (Value α)) : Eval α (Value α) := fun h =>
  match m h with
  | some (.error (.ret v), h') => some (.ok v, h')
  | other => other

end Eval

/-- The outcome of a whole program: a `return` outside all functions gives its value. -/
def Unwind.settle {α : Type} : Except (Unwind α) (Value α) → Except EvalError (Value α)
  | .ok v => .ok v
  | .error (.ret v) => .ok v
  | .error (.error e) => .error e

end LetLang
