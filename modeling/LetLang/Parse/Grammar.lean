import LetLang.Parse.Parser
import LetLang.Parse.Precedence

/-!
# The parser of programs

Expressions are parsed by precedence climbing: `Parser.operand` reads what stands before the
first operator, and `Parser.climb` extends it by operators that hold more tightly than a given
level. Statements and blocks record errors and resume behind the broken statement.

Every parser takes the depth it may still use. `Cursor.parse` grants as much as the number of
tokens can call for.
-/

namespace LetLang

namespace Parser

/-- The names behind a comma each, up to the closing parenthesis, which is read too. -/
def moreParameters : Nat → Parser (List String)
  | 0 => exhausted
  | depth + 1 => do
    if (← peek).kind = .comma then
      let _ ← next
      let x ← expect .identifier
      let xs ← moreParameters depth
      return x.text :: xs
    else
      let _ ← expect .rightParen
      return []

/-- Parameters of a function literal, with the closing parenthesis. -/
def parameters (depth : Nat) : Parser (List String) := do
  if (← peek).kind = .rightParen then
    let _ ← next
    return []
  else
    let x ← expect .identifier
    let xs ← moreParameters depth
    return x.text :: xs

mutual

/-- An expression whose operators hold more tightly than `level`. -/
def expression : Nat → Precedence → Parser (Expr Unit)
  | 0, _ => exhausted
  | depth + 1, level => do
    let left ← operand depth
    climb depth level left

/-- What stands before the first operator of an expression. -/
def operand : Nat → Parser (Expr Unit)
  | 0 => exhausted
  | depth + 1 => do
    let t ← next
    match t.kind with
    | .identifier => return .callable (.name t.text)
    | .integer =>
      match Numeral.ofDigits? t.text with
      | some v => return .int v
      | none => fail (.invalidInteger t)
    | .trueWord => return .bool true
    | .falseWord => return .bool false
    | .leftParen => do
      let e ← expression depth .lowest
      let _ ← expect .rightParen
      return e
    | .ifWord => conditional depth
    | .functionWord => functionLiteral depth
    | kind =>
      match kind.unaryOp? with
      | some op => return .unary op (← expression depth .unary)
      | none => fail (.noOperand t)

/-- A conditional behind its keyword. -/
def conditional : Nat → Parser (Expr Unit)
  | 0 => exhausted
  | depth + 1 => do
    let _ ← expect .leftParen
    let condition ← expression depth .lowest
    let _ ← expect .rightParen
    let _ ← expect .leftBrace
    let consequence ← block depth
    if (← peek).kind = .elseWord then
      let _ ← next
      let _ ← expect .leftBrace
      let alternative ← block depth
      return .ifElse condition consequence alternative
    else
      return .ifThen condition consequence

/-- A function literal behind its keyword. -/
def functionLiteral : Nat → Parser (Expr Unit)
  | 0 => exhausted
  | depth + 1 => do
    let _ ← expect .leftParen
    let xs ← parameters depth
    let _ ← expect .leftBrace
    let body ← block depth
    return .callable (.func () xs body)

/-- Extends the expression `left` by the operators that follow, as long as they hold more
tightly than `level`. A parenthesis behind an expression is a call. -/
def climb : Nat → Precedence → Expr Unit → Parser (Expr Unit)
  | 0, _, _ => exhausted
  | depth + 1, level, left => do
    let t ← peek
    if level < t.kind.precedence then
      let _ ← next
      match t.kind.binaryOp? with
      | some op =>
        let right ← expression depth op.precedence
        climb depth level (.binary op left right)
      | none =>
        let args ← arguments depth
        match left with
        | .callable f => climb depth level (.call f args)
        | _ => fail (.invalidCallee left t.start)
    else
      return left

/-- Arguments of a call, with the closing parenthesis. -/
def arguments : Nat → Parser (List (Expr Unit))
  | 0 => exhausted
  | depth + 1 => do
    if (← peek).kind = .rightParen then
      let _ ← next
      return []
    else
      let e ← expression depth .lowest
      let es ← moreArguments depth
      return e :: es

/-- The arguments behind a comma each, up to the closing parenthesis, which is read too. A
broken argument is recorded and left out. -/
def moreArguments : Nat → Parser (List (Expr Unit))
  | 0 => exhausted
  | depth + 1 => do
    if (← peek).kind = .comma then
      let _ ← next
      match ← attempt (expression depth .lowest) with
      | .ok e =>
        let es ← moreArguments depth
        return e :: es
      | .error err =>
        record err
        moreArguments depth
    else
      let _ ← expect .rightParen
      return []

/-- The statements of a block behind its opening brace, with the closing brace. A broken
statement is recorded and left out; a closing brace that ends it ends the block. -/
def block : Nat → Parser (Block Unit)
  | 0 => exhausted
  | depth + 1 => do
    let t ← peek
    match t.kind with
    | .rightBrace =>
      let _ ← next
      return []
    | .eof =>
      let _ ← next
      fail (.unexpectedToken .rightBrace t)
    | _ =>
      match ← attempt (statement depth) with
      | .ok s =>
        let ss ← block depth
        return s :: ss
      | .error err =>
        record err
        move Cursor.recover
        if (← lastKind) = .rightBrace then return [] else block depth

/-- A statement with the semicolons that end it. Behind the expression of a `let` or a
`return`, all tokens up to the next semicolon are skipped. -/
def statement : Nat → Parser (Stmt Unit)
  | 0 => exhausted
  | depth + 1 => do
    match (← peek).kind with
    | .letWord =>
      let _ ← next
      let x ← expect .identifier
      let _ ← expect .assign
      let e ← expression depth .lowest
      move (Cursor.skipPast (· == .semicolon))
      return .letDecl x.text e
    | .returnWord =>
      let _ ← next
      let e ← expression depth .lowest
      move (Cursor.skipPast (· == .semicolon))
      return .ret e
    | _ =>
      let e ← expression depth .lowest
      move (Cursor.skipRun .semicolon)
      return .expr e

end

/-- The statements up to the end of the source. A broken statement is recorded and left
out. -/
def program : Nat → Parser (Program Unit)
  | 0 => exhausted
  | depth + 1 => do
    if (← peek).kind = .eof then
      return []
    else
      match ← attempt (statement depth) with
      | .ok s =>
        let ss ← program depth
        return s :: ss
      | .error err =>
        record err
        move Cursor.recover
        program depth

end Parser

/-- What was read from a source: the statements that are sound, the errors in the order they
were found, and the place where reading stopped. -/
structure Parsed where
  program : Program Unit
  errors : List ParseError
  cursor : Cursor

/-- The depth that suffices to parse the unread tokens. -/
def Cursor.depth (c : Cursor) : Nat := 4 * (c.unread.length + 1)

/-- Parses the unread tokens as a program. The granted depth suffices and a program is never an
error, so only the first case arises. -/
def Cursor.parse (c : Cursor) : Parsed :=
  match Parser.program c.depth c with
  | some ⟨.ok program, errors, c'⟩ => ⟨program, errors, c'⟩
  | some ⟨.error e, errors, c'⟩ => ⟨[], errors ++ [e], c'⟩
  | none => ⟨[], [], c⟩

/-- The program, if no error was found. -/
def Parsed.result (parsed : Parsed) : Except (List ParseError) (Program Unit) :=
  if parsed.errors.isEmpty then .ok parsed.program else .error parsed.errors

/-- Parses a source, whether or not it has errors. -/
def parse (source : String) : Parsed := (Cursor.ofSource source).parse

/-- The program of a source without errors. -/
def parse? (source : String) : Except (List ParseError) (Program Unit) := (parse source).result

end LetLang
