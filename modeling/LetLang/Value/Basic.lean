import LetLang.Syntax.Text

/-!
# Values

What an expression evaluates to. A function is a literal together with the frame in which it
was evaluated.
-/

namespace LetLang

/-- The name of a frame: its place in the order in which frames were made. -/
abbrev FrameId := Nat

/-- A function literal and the frame it captured. -/
structure Closure (α : Type) where
  label : α
  parameters : List String
  body : Block α
  env : FrameId

/-- Values of the language. -/
inductive Value (α : Type) where
  | int (v : Int64)
  | bool (b : Bool)
  | null
  | func (f : Closure α)

/-- The kinds of values. -/
inductive ValueKind where
  | integer
  | boolean
  | null
  | function
  deriving DecidableEq

/-- The name of a kind. -/
def ValueKind.name : ValueKind → String
  | integer => "integer"
  | boolean => "boolean"
  | null => "null"
  | function => "function"

namespace Value

variable {α : Type}

/-- The kind of a value. -/
def kind : Value α → ValueKind
  | int _ => .integer
  | bool _ => .boolean
  | null => .null
  | func _ => .function

/-- Whether a condition with this value holds. Only `null` and `false` do not. -/
def truthy : Value α → Bool
  | null => false
  | bool b => b
  | _ => true

/-- Equality as the language sees it. A function equals nothing, not even itself. -/
def equals : Value α → Value α → Bool
  | int v, int w => v == w
  | bool b, bool c => b == c
  | null, null => true
  | _, _ => false

/-- Whether two values are one and the same. Functions are, if they come from one literal and
captured one frame. -/
def same [DecidableEq α] : Value α → Value α → Bool
  | func f, func g => f.label == g.label && f.env == g.env
  | a, b => a.equals b

/-- The text of a value. The body of a function is not shown. -/
def text : Value α → String
  | int v => Numeral.text v
  | bool b => if b then "true" else "false"
  | null => "null"
  | func f => "fn(" ++ commaSeparated f.parameters ++ ") \x7b...\x7d"

end Value

end LetLang
