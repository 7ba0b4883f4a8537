import LetLang.Proofs.Parse.Words
import Mathlib

/-!
# The words of a text

Which words a text has does not depend on the place at which it starts. `wordsOf` are the words of a
text, and the lemmas below take it apart at its head: a blank is left out, a symbol is a word by
itself, and a run of letters or of digits is a word if the run ends there.
-/

set_option autoImplicit false

namespace LetLang

/-- The word at the head of a nonblank text `c :: cs`. -/
def headWord (c : Char) (cs : List Char) : Word :=
  ⟨(lexeme c cs).kind, String.ofList (c :: (lexeme c cs).tail)⟩

namespace Scanner

variable {s s' : Scanner} {t : Token} {c : Char} {cs : List Char}

theorem tokens_of_next?_eq_none (h : s.next? = none) : s.tokens = [] := by
  rw [tokens]
  split
  · rfl
  · next hsome =>
    rw [h] at hsome
    cases hsome

theorem tokens_of_next?_eq_some (h : s.next? = some (t, s')) : s.tokens = t :: s'.tokens := by
  rw [tokens]
  split
  · next hnone =>
    rw [h] at hnone
    cases hnone
  · next hsome =>
    rw [h, Option.some.injEq, Prod.mk.injEq] at hsome
    obtain ⟨rfl, rfl⟩ := hsome
    rfl

theorem tokens_of_nil (h : s.unread.dropWhile Text.isBlank = []) : s.tokens = [] := by
  apply tokens_of_next?_eq_none
  rw [next?, skipBlanks]
  rw [h]

theorem tokens_of_cons (h : s.unread.dropWhile Text.isBlank = c :: cs) :
    ∃ (t : Token) (s' : Scanner), s.tokens = t :: s'.tokens ∧ t.word = headWord c cs ∧
      s'.unread = (lexeme c cs).rest := by
  have hnext : ∃ (t : Token) (s' : Scanner), s.next? = some (t, s') ∧ t.word = headWord c cs ∧
      s'.unread = (lexeme c cs).rest := by
    rw [next?, skipBlanks]
    rw [h]
    exact ⟨_, _, rfl, rfl, rfl⟩
  obtain ⟨t, s', hnext, hword, hrest⟩ := hnext
  exact ⟨t, s', tokens_of_next?_eq_some hnext, hword, hrest⟩

/-- The place of a scanner moves its tokens, and leaves their words as they are. -/
theorem map_word_tokens_eq (s s' : Scanner) (h : s.unread = s'.unread) :
    s.tokens.map Token.word = s'.tokens.map Token.word := by
  induction hn : s.unread.length using Nat.strongRecOn generalizing s s' with
  | ind n ih =>
    -- The induction is on what is left of the text, which the first word makes shorter.
    subst hn
    cases hdrop : s.unread.dropWhile Text.isBlank with
    | nil => rw [tokens_of_nil hdrop, tokens_of_nil (h ▸ hdrop)]
    | cons c cs =>
      obtain ⟨t, r, htokens, hword, hrest⟩ := tokens_of_cons hdrop
      obtain ⟨t', r', htokens', hword', hrest'⟩ := tokens_of_cons (s := s') (h ▸ hdrop)
      have hshort : r.unread.length < s.unread.length := by
        have hlexeme := congrArg List.length (lexeme_tail_append_rest c cs)
        have hsuffix := (List.dropWhile_suffix (l := s.unread) Text.isBlank).length_le
        rw [List.length_append] at hlexeme
        rw [hdrop, List.length_cons] at hsuffix
        rw [hrest]
        omega
      rw [htokens, htokens', List.map_cons, List.map_cons, hword, hword',
        ih _ hshort r r' (hrest.trans hrest'.symm) rfl]

end Scanner

/-- The words of a text. -/
def wordsOf (cs : List Char) : List Word := (Scanner.tokens ⟨cs, 0⟩).map Token.word

theorem map_word_scan (source : String) : (scan source).map Token.word = wordsOf source.toList :=
  rfl

@[simp] theorem wordsOf_nil : wordsOf [] = [] := by
  rw [wordsOf, Scanner.tokens_of_nil rfl, List.map_nil]

/-- A blank stands between words. -/
theorem wordsOf_blank {c : Char} {cs : List Char} (h : Text.isBlank c = true) :
    wordsOf (c :: cs) = wordsOf cs := by
  have hdrop : (c :: cs).dropWhile Text.isBlank = cs.dropWhile Text.isBlank :=
    List.dropWhile_cons_of_pos h
  cases hcs : cs.dropWhile Text.isBlank with
  | nil =>
    rw [wordsOf, wordsOf, Scanner.tokens_of_nil (hdrop.trans hcs), Scanner.tokens_of_nil hcs]
  | cons d ds =>
    obtain ⟨t, r, htokens, hword, hrest⟩ :=
      Scanner.tokens_of_cons (s := ⟨c :: cs, 0⟩) (hdrop.trans hcs)
    obtain ⟨t', r', htokens', hword', hrest'⟩ := Scanner.tokens_of_cons (s := ⟨cs, 0⟩) hcs
    rw [wordsOf, wordsOf, htokens, htokens', List.map_cons, List.map_cons, hword, hword',
      Scanner.map_word_tokens_eq r r' (hrest.trans hrest'.symm)]

/-- The first word of a text that does not start with a blank. -/
theorem wordsOf_cons {c : Char} {cs : List Char} (h : Text.isBlank c = false) :
    wordsOf (c :: cs) = headWord c cs :: wordsOf (lexeme c cs).rest := by
  have hdrop : (c :: cs).dropWhile Text.isBlank = c :: cs :=
    List.dropWhile_cons_of_neg (by rw [h]; decide)
  obtain ⟨t, r, htokens, hword, hrest⟩ := Scanner.tokens_of_cons (s := ⟨c :: cs, 0⟩) hdrop
  rw [wordsOf, htokens, List.map_cons, hword, Scanner.map_word_tokens_eq r ⟨_, 0⟩ hrest, wordsOf]

/-! ## Characters -/

/-- Characters that can belong to the word before them: letters, digits and the second character of
the symbols of two. -/
def continuesWord (c : Char) : Bool := c.isAlpha || c.isDigit || c == '='

/-- A text whose first character belongs to no word before it. -/
def Apart : List Char → Prop
  | [] => True
  | c :: _ => continuesWord c = false

theorem apart_cons {c : Char} {cs : List Char} (h : continuesWord c = false) : Apart (c :: cs) := h

/-- No blank stands between the first digit and the last letter of the code. -/
theorem isBlank_eq_false {c : Char} (hlow : 48 ≤ c.toNat) (hhigh : c.toNat ≤ 122) :
    Text.isBlank c = false := by
  -- No range of blanks reaches into the interval.
  have hranges : ∀ range ∈ Text.blankRanges, range.2 < 48 ∨ 122 < range.1 := by decide
  rw [Bool.eq_false_iff]
  intro hblank
  obtain ⟨range, hrange, hle, hge⟩ := Text.Ranges.contains_iff.1 hblank
  rcases hranges range hrange with h | h
  · exact absurd (Nat.le_trans hlow hge) (by omega)
  · exact absurd (Nat.le_trans hle hhigh) (by omega)

theorem toNat_of_isAlpha {c : Char} (h : c.isAlpha = true) : 65 ≤ c.toNat ∧ c.toNat ≤ 122 := by
  simp only [Char.isAlpha, Char.isUpper, Char.isLower, Bool.or_eq_true, Bool.and_eq_true,
    decide_eq_true_eq, ge_iff_le, UInt32.le_iff_toNat_le] at h
  rcases h with ⟨hlow, hhigh⟩ | ⟨hlow, hhigh⟩
  · exact ⟨hlow, Nat.le_trans hhigh (by decide)⟩
  · exact ⟨Nat.le_trans (by decide) hlow, hhigh⟩

theorem toNat_of_isDigit {c : Char} (h : c.isDigit = true) : 48 ≤ c.toNat ∧ c.toNat ≤ 57 := by
  simp only [Char.isDigit, Bool.and_eq_true, decide_eq_true_eq, ge_iff_le,
    UInt32.le_iff_toNat_le] at h
  exact h

theorem digits_toDigits (n : Nat) :
    Nat.toDigits 10 n ≠ [] ∧ ∀ c ∈ Nat.toDigits 10 n, c.isDigit = true :=
  ⟨Nat.toDigits_ne_nil, fun _ hc => Nat.isDigit_of_mem_toDigits (by decide) (by decide) hc⟩

/-! ## Words at the head of a text -/

variable {c : Char} {cs rest : List Char}

theorem takeWhile_append_of_head {chosen : Char → Bool} (hcs : ∀ c ∈ cs, chosen c = true)
    (hrest : ∀ c ∈ rest.head?, chosen c = false) :
    (cs ++ rest).takeWhile chosen = cs ∧ (cs ++ rest).dropWhile chosen = rest := by
  rw [List.takeWhile_append_of_pos hcs, List.dropWhile_append_of_pos hcs]
  cases rest with
  | nil => simp
  | cons d ds =>
    have hd : ¬ chosen d = true := by
      rw [hrest d rfl]
      decide
    rw [List.takeWhile_cons_of_neg hd, List.dropWhile_cons_of_neg hd, List.append_nil]
    exact ⟨rfl, rfl⟩

theorem Apart.head {p : Char → Bool} (hp : ∀ c, p c = true → continuesWord c = true)
    (h : Apart rest) : ∀ c ∈ rest.head?, p c = false := by
  intro c hc
  cases rest with
  | nil => cases hc
  | cons d ds =>
    obtain rfl : d = c := Option.some.inj hc
    rw [Bool.eq_false_iff]
    intro hd
    exact absurd (h.symm.trans (hp _ hd)) (by decide)

/-- A run of letters up to a character that is none is read as one word. -/
theorem lexeme_of_letters (hcs : ∀ d ∈ c :: cs, d.isAlpha = true)
    (hrest : ∀ d ∈ rest.head?, d.isAlpha = false) :
    lexeme c (cs ++ rest) = ⟨wordKind (String.ofList (c :: cs)), cs, rest⟩ := by
  have hc := hcs c List.mem_cons_self
  obtain ⟨hlow, -⟩ := toNat_of_isAlpha hc
  -- Letters come after the two signs that the scanner tries before them.
  have hassign : c ≠ '=' := by
    rintro rfl
    exact absurd hlow (by decide)
  have hbang : c ≠ '!' := by
    rintro rfl
    exact absurd hlow (by decide)
  have hrun := takeWhile_append_of_head (fun d hd => hcs d (List.mem_cons_of_mem c hd)) hrest
  simp only [lexeme, if_neg hassign, if_neg hbang, if_pos hc, hrun]

/-- A run of digits up to a character that is none is read as one word. -/
theorem lexeme_of_digits (hcs : ∀ d ∈ c :: cs, d.isDigit = true)
    (hrest : ∀ d ∈ rest.head?, d.isDigit = false) :
    lexeme c (cs ++ rest) = ⟨.integer, cs, rest⟩ := by
  have hc := hcs c List.mem_cons_self
  obtain ⟨hlow, hhigh⟩ := toNat_of_isDigit hc
  -- Digits lie between the two signs, and before all letters.
  have hassign : c ≠ '=' := by
    rintro rfl
    exact absurd hhigh (by decide)
  have hbang : c ≠ '!' := by
    rintro rfl
    exact absurd hlow (by decide)
  have halpha : ¬ c.isAlpha = true := by
    intro h
    have hge := (toNat_of_isAlpha h).1
    omega
  have hrun := takeWhile_append_of_head (fun d hd => hcs d (List.mem_cons_of_mem c hd)) hrest
  simp only [lexeme, if_neg hassign, if_neg hbang, if_neg halpha, if_pos hc, hrun]

/-- A character of the table of symbols is no blank, and is read by itself. -/
theorem lexeme_of_mem_symbols {kind : TokenKind} (h : (c, kind) ∈ TokenKind.symbols) :
    Text.isBlank c = false ∧ lexeme c cs = ⟨kind, [], cs⟩ := by
  have htable : ∀ entry ∈ TokenKind.symbols, Text.isBlank entry.1 = false ∧
      lexeme entry.1 cs = ⟨entry.2, [], cs⟩ := by
    intro entry hentry
    simp only [TokenKind.symbols, List.mem_cons, List.not_mem_nil, or_false] at hentry
    rcases hentry with rfl | rfl | rfl | rfl | rfl | rfl | rfl | rfl | rfl | rfl | rfl | rfl <;>
      exact ⟨rfl, rfl⟩
  exact htable _ h

/-- A run of letters is a word if no other character continues it. -/
theorem wordsOf_letters (hne : cs ≠ []) (hcs : ∀ c ∈ cs, c.isAlpha = true) (hrest : Apart rest) :
    wordsOf (cs ++ rest) = ⟨wordKind (String.ofList cs), String.ofList cs⟩ :: wordsOf rest := by
  cases cs with
  | nil => exact absurd rfl hne
  | cons c cs =>
    obtain ⟨hlow, hhigh⟩ := toNat_of_isAlpha (hcs c List.mem_cons_self)
    have hlexeme := lexeme_of_letters hcs (hrest.head fun d hd => by simp [continuesWord, hd])
    rw [List.cons_append, wordsOf_cons (isBlank_eq_false (by omega) hhigh), headWord, hlexeme]

/-- A run of digits is a word if no other character continues it. -/
theorem wordsOf_digits (hne : cs ≠ []) (hcs : ∀ c ∈ cs, c.isDigit = true) (hrest : Apart rest) :
    wordsOf (cs ++ rest) = ⟨.integer, String.ofList cs⟩ :: wordsOf rest := by
  cases cs with
  | nil => exact absurd rfl hne
  | cons c cs =>
    obtain ⟨hlow, hhigh⟩ := toNat_of_isDigit (hcs c List.mem_cons_self)
    have hlexeme := lexeme_of_digits hcs (hrest.head fun d hd => by simp [continuesWord, hd])
    rw [List.cons_append, wordsOf_cons (isBlank_eq_false hlow (by omega)), headWord, hlexeme]

/-- A character of the table of symbols is a word by itself. -/
theorem wordsOf_symbol {kind : TokenKind} (h : (c, kind) ∈ TokenKind.symbols) :
    wordsOf (c :: cs) = ⟨kind, String.ofList [c]⟩ :: wordsOf cs := by
  obtain ⟨hblank, hlexeme⟩ := @lexeme_of_mem_symbols c cs kind h
  rw [wordsOf_cons hblank, headWord, hlexeme]

/-- A symbol before an equals sign takes it into the same word. -/
theorem wordsOf_equal : wordsOf ('=' :: '=' :: cs) = ⟨.equal, "=="⟩ :: wordsOf cs :=
  wordsOf_cons rfl

theorem wordsOf_notEqual : wordsOf ('!' :: '=' :: cs) = ⟨.notEqual, "!="⟩ :: wordsOf cs :=
  wordsOf_cons rfl

theorem assignable_of_head {long short : TokenKind} (h : cs.head? ≠ some '=') :
    assignable long short cs = ⟨short, [], cs⟩ := by
  unfold assignable
  split
  · exact absurd rfl h
  · rfl

theorem wordsOf_assign (h : cs.head? ≠ some '=') :
    wordsOf ('=' :: cs) = ⟨.assign, "="⟩ :: wordsOf cs := by
  have hlexeme : lexeme '=' cs = ⟨.assign, [], cs⟩ := assignable_of_head h
  rw [wordsOf_cons rfl, headWord, hlexeme]

theorem wordsOf_bang (h : cs.head? ≠ some '=') :
    wordsOf ('!' :: cs) = ⟨.bang, "!"⟩ :: wordsOf cs := by
  have hlexeme : lexeme '!' cs = ⟨.bang, [], cs⟩ := assignable_of_head h
  rw [wordsOf_cons rfl, headWord, hlexeme]

end LetLang
