/-!
# Kinds of tokens

The kinds, their names, and the two tables of fixed spellings: keywords and one-character
symbols.
-/

namespace LetLang

/-- What a token is. Constructors that end in `Word` are the keywords. -/
inductive TokenKind where
  | letWord
  | functionWord
  | ifWord
  | elseWord
  | returnWord
  | trueWord
  | falseWord
  | assign
  | plus
  | minus
  | bang
  | slash
  | asterisk
  | lessThan
  | greaterThan
  | equal
  | notEqual
  | comma
  | semicolon
  | leftParen
  | rightParen
  | leftBrace
  | rightBrace
  | identifier
  | integer
  | illegal
  | eof
  deriving DecidableEq

namespace TokenKind

/-- The name under which a kind appears in listings and messages. -/
def name : TokenKind → String
  | letWord => "let"
  | functionWord => "function"
  | ifWord => "if"
  | elseWord => "else"
  | returnWord => "return"
  | trueWord => "true"
  | falseWord => "false"
  | assign => "assign"
  | plus => "plus"
  | minus => "minus"
  | bang => "bang"
  | slash => "slash"
  | asterisk => "asterisk"
  | lessThan => "lessThan"
  | greaterThan => "greaterThan"
  | equal => "equal"
  | notEqual => "notEqual"
  | comma => "comma"
  | semicolon => "semicolon"
  | leftParen => "leftParen"
  | rightParen => "rightParen"
  | leftBrace => "leftBrace"
  | rightBrace => "rightBrace"
  | identifier => "identifier"
  | integer => "integer"
  | illegal => "illegal"
  | eof => "eof"

/-- All kinds. -/
def all : List TokenKind :=
  [letWord, functionWord, ifWord, elseWord, returnWord, trueWord, falseWord, assign, plus,
   minus, bang, slash, asterisk, lessThan, greaterThan, equal, notEqual, comma, semicolon,
   leftParen, rightParen, leftBrace, rightBrace, identifier, integer, illegal, eof]

/-- No kind is missing. -/
theorem mem_all (kind : TokenKind) : kind ∈ all := by
  cases kind <;> decide

/-- The kind of the given name. -/
def ofName? (s : String) : Option TokenKind := all.find? fun kind => kind.name == s

/-- A kind is found by its name. -/
theorem ofName?_name (kind : TokenKind) : ofName? kind.name = some kind := by
  cases kind <;> decide

/-- Spellings of the keywords. -/
def keywords : List (String × TokenKind) :=
  [("fn", functionWord), ("let", letWord), ("true", trueWord), ("false", falseWord),
   ("if", ifWord), ("else", elseWord), ("return", returnWord)]

/-- The keyword spelled by a word. -/
def keyword? (word : String) : Option TokenKind := keywords.lookup word

/-- Characters that are a token by themselves, whatever follows. The characters `=` and `!`
are not among them, since a following `=` belongs to the same token. -/
def symbols : List (Char × TokenKind) :=
  [('+', plus), ('-', minus), ('/', slash), ('*', asterisk), ('<', lessThan),
   ('>', greaterThan), (';', semicolon), (',', comma), ('(', leftParen), (')', rightParen),
   ('\x7b', leftBrace), ('\x7d', rightBrace)]

/-- The kind of the one-character token `c`. -/
def symbol? (c : Char) : Option TokenKind := symbols.lookup c

end TokenKind

end LetLang
