import LetLang.Parse.Error
import LetLang.Token.Scanner

/-!
# Parsers

A parser reads tokens from a cursor. It ends with a value or an error, and in both cases says
which errors it recorded on the way and where it stopped, so that a caller can go on after an
error. A parser that runs out of the depth it was granted has no outcome.
-/

namespace LetLang

/-- A place between two tokens. `last` is the kind of the token before it, `unread` are the
tokens behind it, and `stop` is the length of the source in bytes. At the end of the source
the token `eof` can be read any number of times. -/
structure Cursor where
  last : TokenKind
  unread : List Token
  stop : Nat

namespace Cursor

/-- The cursor at the start of a source. -/
def ofSource (source : String) : Cursor := ⟨.eof, scan source, source.utf8ByteSize⟩

/-- The next token. -/
def peek (c : Cursor) : Token := c.unread.head?.getD (Token.eof c.stop)

/-- The cursor behind the next token. -/
def advance (c : Cursor) : Cursor := ⟨c.peek.kind, c.unread.tail, c.stop⟩

/-- The cursor behind the next token whose kind is chosen, or at the end of the source. -/
def skipPast (chosen : TokenKind → Bool) (c : Cursor) : Cursor :=
  go c.unread
where
  /-- The cursor behind the first chosen one of the tokens. -/
  go : List Token → Cursor
    | [] => ⟨.eof, [], c.stop⟩
    | t :: ts => if chosen t.kind then ⟨t.kind, ts, c.stop⟩ else go ts

/-- The cursor behind the tokens of the given kind that stand next. -/
def skipRun (kind : TokenKind) (c : Cursor) : Cursor :=
  go c.last c.unread
where
  /-- The cursor behind the leading tokens of the kind, when `last` stands before them. -/
  go (last : TokenKind) : List Token → Cursor
    | [] => ⟨last, [], c.stop⟩
    | t :: ts => if t.kind = kind then go t.kind ts else ⟨last, t :: ts, c.stop⟩

/-- Whether a statement that broke off may end with a token of this kind. -/
def endsStatement (kind : TokenKind) : Bool := kind == .semicolon || kind == .rightBrace

/-- The cursor at which parsing resumes after an error: behind the next token that may end a
statement, which can be the one just read. -/
def recover (c : Cursor) : Cursor :=
  if endsStatement c.last then c else c.skipPast endsStatement

end Cursor

/-- How a parser ended: with a value or an error, the errors it recorded before, in order, and
the place where it stopped. -/
structure Outcome (β : Type) where
  value : Except ParseError β
  errors : List ParseError
  cursor : Cursor

/-- The outcome of a parser, with the errors that were recorded before it ran. -/
def Outcome.after {β : Type} (errors : List ParseError) (out : Outcome β) : Outcome β :=
  ⟨out.value, errors ++ out.errors, out.cursor⟩

theorem Outcome.after_after {β : Type} (es es' : List ParseError) (out : Outcome β) :
    (out.after es').after es = out.after (es ++ es') := by
  simp [after]

/-- A parser of a `β`. -/
def Parser (β : Type) : Type := Cursor → Option (Outcome β)

namespace Parser

variable {β γ : Type}

/-- The parser that reads nothing. -/
def pure (b : β) : Parser β := fun c => some ⟨.ok b, [], c⟩

/-- One parser after another. An error of the first is an error of both. -/
def bind (p : Parser β) (f : β → Parser γ) : Parser γ := fun c =>
  match p c with
  | none => none
  | some ⟨.error e, errors, c'⟩ => some ⟨.error e, errors, c'⟩
  | some ⟨.ok b, errors, c'⟩ => (f b c').map (Outcome.after errors)

instance : Monad Parser where
  pure := Parser.pure
  bind := Parser.bind

theorem bind_none {p : Parser β} {c : Cursor} (h : p c = none) (f : β → Parser γ) :
    (p >>= f) c = none := by
  show Parser.bind p f c = _
  rw [Parser.bind, h]

/-- The errors of the first parser come before those of the second. -/
theorem bind_ok {p : Parser β} {c c' : Cursor} {b : β} {errors : List ParseError}
    (h : p c = some ⟨.ok b, errors, c'⟩) (f : β → Parser γ) :
    (p >>= f) c = (f b c').map (Outcome.after errors) := by
  show Parser.bind p f c = _
  rw [Parser.bind, h]

/-- An error of the first parser ends both. -/
theorem bind_error {p : Parser β} {c c' : Cursor} {e : ParseError} {errors : List ParseError}
    (h : p c = some ⟨.error e, errors, c'⟩) (f : β → Parser γ) :
    (p >>= f) c = some ⟨.error e, errors, c'⟩ := by
  show Parser.bind p f c = _
  rw [Parser.bind, h]

theorem bind_ok_nil {p : Parser β} {c c' : Cursor} {b : β} (h : p c = some ⟨.ok b, [], c'⟩)
    (f : β → Parser γ) : (p >>= f) c = f b c' := by
  rw [bind_ok h]
  cases f b c' <;> rfl

/-- The parser whose depth is used up. -/
def exhausted : Parser β := fun _ => none

/-- Stops with an error. -/
def fail (e : ParseError) : Parser β := fun c => some ⟨.error e, [], c⟩

/-- Records an error and goes on. -/
def record (e : ParseError) : Parser Unit := fun c => some ⟨.ok (), [e], c⟩

/-- Runs a parser and hands over its error as a value. -/
def attempt (p : Parser β) : Parser (Except ParseError β) := fun c =>
  (p c).map fun out => ⟨.ok out.value, out.errors, out.cursor⟩

/-- The next token, which is not read. -/
def peek : Parser Token := fun c => some ⟨.ok c.peek, [], c⟩

/-- Reads the next token. -/
def next : Parser Token := fun c => some ⟨.ok c.peek, [], c.advance⟩

/-- Reads the next token, which must be of the given kind. -/
def expect (kind : TokenKind) : Parser Token := do
  let t ← peek
  if t.kind = kind then next else fail (.unexpectedToken kind t)

/-- The kind of the token read last. -/
def lastKind : Parser TokenKind := fun c => some ⟨.ok c.last, [], c⟩

/-- Moves the cursor. -/
def move (f : Cursor → Cursor) : Parser Unit := fun c => some ⟨.ok (), [], f c⟩

/-! What the steps do at a cursor. -/

section Steps

variable (c : Cursor)

theorem pure_apply (b : β) : (Pure.pure b : Parser β) c = some ⟨.ok b, [], c⟩ := rfl

theorem peek_bind (f : Token → Parser γ) : (peek >>= f) c = f c.peek c :=
  bind_ok_nil rfl f

theorem next_bind (f : Token → Parser γ) : (next >>= f) c = f c.peek c.advance :=
  bind_ok_nil rfl f

theorem lastKind_bind (f : TokenKind → Parser γ) : (lastKind >>= f) c = f c.last c :=
  bind_ok_nil rfl f

theorem move_bind (g : Cursor → Cursor) (f : Unit → Parser γ) :
    (move g >>= f) c = f () (g c) :=
  bind_ok_nil rfl f

/-- A token of another kind is not read, and the error names it. -/
theorem expect_bind (kind : TokenKind) (f : Token → Parser γ) :
    (expect kind >>= f) c =
      if c.peek.kind = kind then f c.peek c.advance
      else some ⟨.error (.unexpectedToken kind c.peek), [], c⟩ := by
  have hexpect : expect kind c =
      (if c.peek.kind = kind then next else fail (.unexpectedToken kind c.peek)) c := by
    rw [expect, peek_bind]
  split
  · next h => exact bind_ok_nil (hexpect.trans (by rw [if_pos h]; rfl)) f
  · next h => exact bind_error (hexpect.trans (by rw [if_neg h]; rfl)) f

end Steps

end Parser

end LetLang
