/-!
# Numerals

Decimal texts of 64-bit integers. A source holds only digit runs, which have no sign; a host
that hands over an integer may sign it.
-/

namespace LetLang.Numeral

/-- The least number that is too large for an integer of the language, which is the 63rd power of
two. -/
def limit : Nat := 0x8000000000000000

/-- The integer written by a run of digits, if it is in range. -/
def ofDigits? (digits : String) : Option Int64 :=
  let n := Nat.ofDigitChars 10 digits.toList 0
  if n < limit then some (Int64.ofNat n) else none

/-- The decimal text of an integer, with a minus sign if it is negative. -/
def text (v : Int64) : String := v.toInt.repr

/-- Whether the text is a nonempty run of digits. -/
def isDigits (cs : List Char) : Bool := !cs.isEmpty && cs.all Char.isDigit

/-- The integer written by a text with an optional sign, if it is one and in range. -/
def ofText? (s : String) : Option Int64 :=
  let (negative, digits) := match s.toList with
    | '-' :: cs => (true, cs)
    | '+' :: cs => (false, cs)
    | cs => (false, cs)
  let n := Nat.ofDigitChars 10 digits 0
  if !isDigits digits then none
  else if negative && n ≤ limit then some (Int64.ofInt (-n))
  else if n < limit then some (Int64.ofNat n)
  else none

end LetLang.Numeral
