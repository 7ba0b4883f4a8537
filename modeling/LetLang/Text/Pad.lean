/-!
# Columns

Texts set in columns of a given width, counted in characters. A text wider than its column
is kept whole; only `cut` shortens one.
-/

namespace LetLang.Text

/-- `n` copies of the fill character. -/
def fill (c : Char) (n : Nat) : String := String.ofList (List.replicate n c)

/-- The text at the left of its column. -/
def padRight (c : Char) (width : Nat) (s : String) : String :=
  s ++ fill c (width - s.length)

/-- The text at the right of its column. -/
def padLeft (c : Char) (width : Nat) (s : String) : String :=
  fill c (width - s.length) ++ s

/-- The text in the middle of its column; the odd fill character goes to the right. -/
def padBoth (c : Char) (width : Nat) (s : String) : String :=
  let gap := width - s.length
  fill c (gap / 2) ++ s ++ fill c (gap - gap / 2)

/-- The first `n` characters of the text. -/
def cut (n : Nat) (s : String) : String := String.ofList (s.toList.take n)

end LetLang.Text
