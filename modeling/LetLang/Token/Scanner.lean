import LetLang.Text.Blank
import LetLang.Token.Basic

/-!
# Scanning a source into tokens

A scanner is the unread part of a source with its place. `Scanner.next?` skips blanks and
takes the longest token that stands there; `lexeme_tail_append_rest` says that taking a token
loses no character, and `length_unread_lt_of_next?` that it always takes one, so
`Scanner.tokens` ends.
-/

namespace LetLang

/-- A token at the head of a nonblank text: its kind, its characters after the first, and the
text behind it. -/
structure Lexeme where
  kind : TokenKind
  tail : List Char
  rest : List Char

/-- The kind of a word: a keyword, or an identifier. -/
def wordKind (word : String) : TokenKind := (TokenKind.keyword? word).getD .identifier

/-- A symbol that takes a following `=` into the same token. -/
def assignable (long short : TokenKind) : List Char → Lexeme
  | '=' :: cs => ⟨long, ['='], cs⟩
  | cs => ⟨short, [], cs⟩

/-- The longest token at the head of `c :: cs`, where `c` is not blank. A character that
starts no token is an illegal token by itself. -/
def lexeme (c : Char) (cs : List Char) : Lexeme :=
  if c = '=' then assignable .equal .assign cs
  else if c = '!' then assignable .notEqual .bang cs
  else if c.isAlpha then
    let tail := cs.takeWhile Char.isAlpha
    ⟨wordKind (String.ofList (c :: tail)), tail, cs.dropWhile Char.isAlpha⟩
  else if c.isDigit then ⟨.integer, cs.takeWhile Char.isDigit, cs.dropWhile Char.isDigit⟩
  else ⟨(TokenKind.symbol? c).getD .illegal, [], cs⟩

theorem assignable_tail_append_rest (long short : TokenKind) (cs : List Char) :
    (assignable long short cs).tail ++ (assignable long short cs).rest = cs := by
  unfold assignable
  split <;> rfl

/-- Taking a token loses no character. -/
theorem lexeme_tail_append_rest (c : Char) (cs : List Char) :
    (lexeme c cs).tail ++ (lexeme c cs).rest = cs := by
  unfold lexeme
  repeat' split
  · exact assignable_tail_append_rest _ _ _
  · exact assignable_tail_append_rest _ _ _
  · exact List.takeWhile_append_dropWhile
  · exact List.takeWhile_append_dropWhile
  · rfl

/-- The length of a text in bytes. -/
def byteLength (cs : List Char) : Nat := (cs.map Char.utf8Size).foldr (· + ·) 0

/-- The unread part of a source, and the byte at which it starts. -/
structure Scanner where
  unread : List Char
  offset : Nat

namespace Scanner

/-- The scanner at the start of a source. -/
def ofSource (source : String) : Scanner := ⟨source.toList, 0⟩

/-- The scanner behind the blanks that stand next. -/
def skipBlanks (s : Scanner) : Scanner :=
  ⟨s.unread.dropWhile Text.isBlank, s.offset + byteLength (s.unread.takeWhile Text.isBlank)⟩

/-- The next token and the scanner behind it; none at the end of the source. -/
def next? (s : Scanner) : Option (Token × Scanner) :=
  match s.skipBlanks with
  | ⟨[], _⟩ => none
  | ⟨c :: cs, start⟩ =>
    let found := lexeme c cs
    let text := c :: found.tail
    some (⟨found.kind, String.ofList text, start⟩, ⟨found.rest, start + byteLength text⟩)

/-- The next token, which at the end of the source is `eof` however often it is asked for. -/
def next (s : Scanner) : Token × Scanner :=
  s.next?.getD (Token.eof s.skipBlanks.offset, s.skipBlanks)

theorem length_skipBlanks_le (s : Scanner) : s.skipBlanks.unread.length ≤ s.unread.length :=
  (List.dropWhile_suffix Text.isBlank).length_le

/-- A token takes at least one character. -/
theorem length_unread_lt_of_next? {s s' : Scanner} {t : Token} (h : s.next? = some (t, s')) :
    s'.unread.length < s.unread.length := by
  have hle := s.length_skipBlanks_le
  unfold next? at h
  split at h
  · cases h
  · next c cs start hskip =>
    simp only [Option.some.injEq, Prod.mk.injEq] at h
    have hlen := congrArg List.length (lexeme_tail_append_rest c cs)
    simp only [hskip, List.length_cons] at hle
    simp only [List.length_append] at hlen
    rw [← h.2]
    show (lexeme c cs).rest.length < s.unread.length
    omega

/-- The tokens that remain, without the end of the source. -/
def tokens (s : Scanner) : List Token :=
  match _h : s.next? with
  | none => []
  | some (t, s') => t :: s'.tokens
termination_by s.unread.length
decreasing_by exact length_unread_lt_of_next? _h

/-- The scanner at the end of the source. -/
def atEnd (s : Scanner) : Scanner := ⟨[], s.offset + byteLength s.unread⟩

end Scanner

/-- The tokens of a source, without its end. -/
def scan (source : String) : List Token := (Scanner.ofSource source).tokens

end LetLang
