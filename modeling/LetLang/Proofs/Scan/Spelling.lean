import LetLang.Proofs.Scan.Words

/-!
# Spellings

Which texts belong to which kind of tokens, and which character behind a token would belong to it as
well. Both are said here without the scanner. The token that the scanner takes at the head of a text
is spelled as its kind asks for and cannot be continued (`lexeme_spells`), and it is the only one of
that sort (`lexeme_of_spells`).
-/

set_option autoImplicit false

namespace LetLang

namespace TokenKind

/-- The one text of a keyword, an operator or a delimiter. -/
def spelling? : TokenKind → Option String
  | letWord => some "let"
  | functionWord => some "fn"
  | ifWord => some "if"
  | elseWord => some "else"
  | returnWord => some "return"
  | trueWord => some "true"
  | falseWord => some "false"
  | assign => some "="
  | plus => some "+"
  | minus => some "-"
  | bang => some "!"
  | slash => some "/"
  | asterisk => some "*"
  | lessThan => some "<"
  | greaterThan => some ">"
  | equal => some "=="
  | notEqual => some "!="
  | comma => some ","
  | semicolon => some ";"
  | leftParen => some "("
  | rightParen => some ")"
  | leftBrace => some "\x7b"
  | rightBrace => some "\x7d"
  | identifier | integer | illegal | eof => none

/-- The kinds of keywords. -/
def words : List TokenKind :=
  [letWord, functionWord, ifWord, elseWord, returnWord, trueWord, falseWord]

/-- The texts of a kind of tokens. -/
inductive Spells : TokenKind → String → Prop
  | fixed {kind : TokenKind} {text : String} : kind.spelling? = some text → Spells kind text
  | identifier {text : String} :
      text ≠ "" → (∀ c ∈ text.toList, c.isAlpha = true) →
      (∀ kind ∈ words, kind.spelling? ≠ some text) → Spells .identifier text
  | integer {text : String} :
      text ≠ "" → (∀ c ∈ text.toList, c.isDigit = true) → Spells .integer text
  -- A character with which no token of another kind starts.
  | illegal {c : Char} :
      c.isAlpha = false → c.isDigit = false →
      (∀ (kind : TokenKind) (text : String), kind.spelling? = some text →
        text.toList.head? ≠ some c) →
      Spells .illegal (String.singleton c)

/-- Whether a character behind a token of the kind makes it a longer token. -/
def takes (kind : TokenKind) (c : Char) : Bool :=
  if kind = identifier ∨ kind ∈ words then c.isAlpha
  else if kind = integer then c.isDigit
  else if kind = assign ∨ kind = bang then c == '='
  else false

/-- A letter, a digit or an equals sign, if any character, is taken by the token before it. -/
theorem continuesWord_of_takes {kind : TokenKind} {c : Char} (h : kind.takes c = true) :
    continuesWord c = true := by
  unfold takes at h
  simp only [continuesWord, Bool.or_eq_true]
  split at h
  · exact .inl (.inl h)
  · split at h
    · exact .inl (.inr h)
    · split at h
      · exact .inr h
      · cases h

/-- A character that makes a token longer: a letter behind a word, a digit behind an integer, an
equals sign behind one of the signs that take it. -/
theorem takes_iff {kind : TokenKind} {c : Char} : kind.takes c = true ↔
    (kind = .identifier ∨ kind ∈ words) ∧ c.isAlpha = true ∨
      kind = .integer ∧ c.isDigit = true ∨ (kind = .assign ∨ kind = .bang) ∧ c = '=' := by
  cases kind <;> simp [takes, words]

end TokenKind

open TokenKind

/-! ## The token at the head of a text is spelled as its kind asks for -/

theorem spelling?_of_mem_keywords {entry : String × TokenKind} (h : entry ∈ keywords) :
    entry.2 ∈ words ∧ entry.2.spelling? = some entry.1 := by
  have htable : ∀ entry ∈ keywords, entry.2 ∈ words ∧ entry.2.spelling? = some entry.1 := by
    decide
  exact htable entry h

theorem mem_keywords_of_spelling? {kind : TokenKind} {text : String} (hkind : kind ∈ words)
    (htext : kind.spelling? = some text) : (text, kind) ∈ keywords := by
  have htable : ∀ kind ∈ words, ∃ text ∈ kind.spelling?, (text, kind) ∈ keywords := by
    decide
  obtain ⟨text', htext', hmem⟩ := htable kind hkind
  rw [Option.mem_def, htext, Option.some.injEq] at htext'
  rwa [htext']

/-- The texts that are not in the table of keywords are those that spell none. -/
theorem keyword?_eq_none_iff {text : String} :
    keyword? text = none ↔ ∀ kind ∈ words, kind.spelling? ≠ some text := by
  constructor
  · intro h kind hkind hspelling
    -- A keyword would have been found in the table.
    have hmem := mem_keywords_of_spelling? hkind hspelling
    simpa using List.lookup_eq_none_iff.1 h (text, kind) hmem
  · intro h
    refine List.lookup_eq_none_iff.2 fun entry hentry => bne_iff_ne.2 ?_
    rintro rfl
    obtain ⟨hword, hspelling⟩ := spelling?_of_mem_keywords hentry
    exact h _ hword hspelling

/-- A run of letters is a keyword or an identifier. -/
theorem wordKind_spells {text : String} (hne : text ≠ "")
    (hletters : ∀ c ∈ text.toList, c.isAlpha = true) :
    (wordKind text).Spells text ∧ (wordKind text = .identifier ∨ wordKind text ∈ words) := by
  unfold wordKind
  cases hkeyword : keyword? text with
  | some kind =>
    obtain ⟨before, after, htable, -⟩ := List.lookup_eq_some_iff.1 hkeyword
    have hmem : (text, kind) ∈ keywords := by
      rw [htable]
      simp
    obtain ⟨hword, hspelling⟩ := spelling?_of_mem_keywords hmem
    exact ⟨.fixed hspelling, .inr hword⟩
  | none => exact ⟨.identifier hne hletters (keyword?_eq_none_iff.1 hkeyword), .inl rfl⟩

theorem symbol?_spells {c : Char} {kind : TokenKind} (h : symbol? c = some kind) :
    kind.spelling? = some (String.singleton c) ∧ ∀ d, kind.takes d = false := by
  have htable : ∀ entry ∈ symbols, entry.2.spelling? = some (String.singleton entry.1) ∧
      entry.2 ∉ [identifier, integer, assign, bang] ∧ entry.2 ∉ words := by
    decide
  obtain ⟨before, after, hsymbols, -⟩ := List.lookup_eq_some_iff.1 h
  obtain ⟨hspelling, hother, hwords⟩ := htable (c, kind) (by rw [hsymbols]; simp)
  refine ⟨hspelling, fun d => ?_⟩
  simp only [List.mem_cons, List.not_mem_nil, or_false, not_or] at hother
  simp [takes, hother, hwords]

/-- The first character of a symbol is in the table of symbols, or an equals or exclamation mark. -/
theorem head?_spelling_ne {c : Char} (halpha : c.isAlpha = false) (hassign : c ≠ '=')
    (hbang : c ≠ '!') (hsymbol : symbol? c = none) {kind : TokenKind} {text : String}
    (h : kind.spelling? = some text) : text.toList.head? ≠ some c := by
  have htable : ∀ kind ∈ all, ∀ text ∈ kind.spelling?, text.toList.head?.all (fun d =>
      d.isAlpha || d == '=' || d == '!' || (symbol? d).isSome) = true := by
    decide
  intro hhead
  have hstart := htable kind kind.mem_all text h
  rw [hhead, Option.all_some] at hstart
  simp [halpha, hassign, hbang, hsymbol] at hstart

/-- A sign takes an equals sign that stands behind it, and is a token of its own before any other
character. -/
theorem assignable_cases (long short : TokenKind) (cs : List Char) :
    (∃ ds, cs = '=' :: ds ∧ assignable long short cs = ⟨long, ['='], ds⟩) ∨
      (∀ d ∈ cs.head?, (d == '=') = false) ∧ assignable long short cs = ⟨short, [], cs⟩ := by
  unfold assignable
  split
  · next ds => exact .inl ⟨ds, rfl, rfl⟩
  · next hne =>
    refine .inr ⟨fun d hd => ?_, rfl⟩
    cases cs with
    | nil => cases hd
    | cons c cs =>
      obtain rfl : c = d := Option.some.inj hd
      rw [beq_eq_false_iff_ne]
      rintro rfl
      exact hne cs rfl

theorem head?_dropWhile {chosen : Char → Bool} (cs : List Char) :
    ∀ d ∈ (cs.dropWhile chosen).head?, chosen d = false := by
  intro d hd
  have hhead := List.head?_dropWhile_not chosen cs
  rw [Option.mem_def.1 hd] at hhead
  simpa using hhead

theorem all_takeWhile_cons {chosen : Char → Bool} {c : Char} (hc : chosen c = true)
    (cs : List Char) : ∀ d ∈ c :: cs.takeWhile chosen, chosen d = true := by
  intro d hd
  rcases List.mem_cons.1 hd with rfl | hd
  · exact hc
  · exact List.all_eq_true.1 List.all_takeWhile d hd

theorem ofList_cons_ne (c : Char) (cs : List Char) : String.ofList (c :: cs) ≠ "" := by
  simp

/-- The token at the head of a text is spelled as its kind asks for, and no character behind it
belongs to it. -/
theorem lexeme_spells (c : Char) (cs : List Char) :
    (lexeme c cs).kind.Spells (String.ofList (c :: (lexeme c cs).tail)) ∧
      ∀ d ∈ (lexeme c cs).rest.head?, (lexeme c cs).kind.takes d = false := by
  unfold lexeme
  split
  · -- An equals sign alone is taken only where no other one follows.
    next hc =>
    subst hc
    rcases assignable_cases .equal .assign cs with ⟨ds, -, heq⟩ | ⟨hhead, heq⟩
    · rw [heq]
      exact ⟨.fixed rfl, fun d _ => rfl⟩
    · rw [heq]
      exact ⟨.fixed rfl, hhead⟩
  split
  · next hc =>
    subst hc
    rcases assignable_cases .notEqual .bang cs with ⟨ds, -, heq⟩ | ⟨hhead, heq⟩
    · rw [heq]
      exact ⟨.fixed rfl, fun d _ => rfl⟩
    · rw [heq]
      exact ⟨.fixed rfl, hhead⟩
  split
  · next halpha =>
    obtain ⟨hspells, hkind⟩ := wordKind_spells (ofList_cons_ne c _) (by
      rw [String.toList_ofList]
      exact all_takeWhile_cons halpha cs)
    refine ⟨hspells, fun d hd => ?_⟩
    rw [takes, if_pos hkind]
    exact head?_dropWhile cs d hd
  · next hassign hbang halpha =>
    rw [Bool.not_eq_true] at halpha
    split
    · next hdigit =>
      refine ⟨.integer (ofList_cons_ne c _) ?_, head?_dropWhile cs⟩
      rw [String.toList_ofList]
      exact all_takeWhile_cons hdigit cs
    · next hdigit =>
      rw [Bool.not_eq_true] at hdigit
      cases hsymbol : symbol? c with
      | some kind =>
        obtain ⟨hspelling, htakes⟩ := symbol?_spells hsymbol
        exact ⟨.fixed hspelling, fun d _ => htakes d⟩
      | none =>
        refine ⟨.illegal halpha hdigit ?_, fun d _ => rfl⟩
        intro kind text htext
        exact head?_spelling_ne halpha hassign hbang hsymbol htext

/-! ## No other token stands at the head of a text -/

theorem spelling?_letters {kind : TokenKind} {text : String} (hkind : kind ∈ words)
    (htext : kind.spelling? = some text) :
    (∀ c ∈ text.toList, c.isAlpha = true) ∧ wordKind text = kind := by
  have htable : ∀ entry ∈ keywords,
      entry.1.toList.all Char.isAlpha = true ∧ wordKind entry.1 = entry.2 := by
    decide
  obtain ⟨hletters, hword⟩ := htable _ (mem_keywords_of_spelling? hkind htext)
  exact ⟨List.all_eq_true.1 hletters, hword⟩

/-- The texts that are no words are those of the table of symbols, and the signs before an equals
sign. -/
theorem mem_symbols_of_spelling? {kind : TokenKind} {text : String} (hkind : kind ∉ words)
    (hassign : kind ∉ [assign, equal, bang, notEqual]) (htext : kind.spelling? = some text) :
    ∃ c, text = String.singleton c ∧ (c, kind) ∈ symbols := by
  have htable : ∀ kind ∈ all, kind ∉ words → kind ∉ [assign, equal, bang, notEqual] →
      ∀ text ∈ kind.spelling?, ∃ entry ∈ symbols, text = String.singleton entry.1 ∧
        entry.2 = kind := by
    decide
  obtain ⟨⟨c, kind'⟩, hmem, heq, rfl⟩ := htable kind kind.mem_all hkind hassign text htext
  exact ⟨c, heq, hmem⟩

/-- The text of a keyword, an operator or a delimiter is read as such. -/
theorem lexeme_of_spelling? {kind : TokenKind} {text : String} {c : Char} {cs rest : List Char}
    (h : kind.spelling? = some text) (htext : text.toList = c :: cs)
    (hrest : ∀ d ∈ rest.head?, kind.takes d = false) :
    lexeme c (cs ++ rest) = ⟨kind, cs, rest⟩ := by
  by_cases hkind : kind ∈ words
  · obtain ⟨hletters, hword⟩ := spelling?_letters hkind h
    rw [htext] at hletters
    have halpha : ∀ d ∈ rest.head?, d.isAlpha = false := by
      intro d hd
      have htakes := hrest d hd
      rwa [takes, if_pos (.inr hkind)] at htakes
    rw [lexeme_of_letters hletters halpha, ← htext, String.ofList_toList, hword]
  -- The two signs that may stand alone must not have an equals sign behind them.
  by_cases hassign : kind ∈ [assign, equal, bang, notEqual]
  · simp only [List.mem_cons, List.not_mem_nil, or_false] at hassign
    have hhead : (∀ d ∈ rest.head?, (d == '=') = false) → rest.head? ≠ some '=' := by
      intro hne heq
      have hsign := hne '=' heq
      rw [beq_self_eq_true] at hsign
      cases hsign
    rcases hassign with rfl | rfl | rfl | rfl
    · obtain rfl : "=" = text := Option.some.inj h
      obtain ⟨rfl, rfl⟩ := List.cons.inj htext
      exact assignable_of_head (hhead hrest)
    · obtain rfl : "==" = text := Option.some.inj h
      obtain ⟨rfl, rfl⟩ := List.cons.inj htext
      rfl
    · obtain rfl : "!" = text := Option.some.inj h
      obtain ⟨rfl, rfl⟩ := List.cons.inj htext
      exact assignable_of_head (hhead hrest)
    · obtain rfl : "!=" = text := Option.some.inj h
      obtain ⟨rfl, rfl⟩ := List.cons.inj htext
      rfl
  · obtain ⟨d, rfl, hmem⟩ := mem_symbols_of_spelling? hkind hassign h
    rw [String.toList_singleton] at htext
    obtain ⟨rfl, rfl⟩ := List.cons.inj htext
    exact (lexeme_of_mem_symbols hmem).2

/-- A text that is spelled as a kind asks for is read as a token of that kind, if no character
behind it belongs to it. -/
theorem lexeme_of_spells {kind : TokenKind} {text : String} {c : Char} {cs rest : List Char}
    (h : kind.Spells text) (htext : text.toList = c :: cs)
    (hrest : ∀ d ∈ rest.head?, kind.takes d = false) :
    lexeme c (cs ++ rest) = ⟨kind, cs, rest⟩ := by
  cases h with
  | fixed hspelling => exact lexeme_of_spelling? hspelling htext hrest
  | identifier _ hletters hfree =>
    rw [htext] at hletters
    rw [lexeme_of_letters hletters hrest, ← htext, String.ofList_toList, wordKind,
      keyword?_eq_none_iff.2 hfree, Option.getD_none]
  | integer _ hdigits =>
    rw [htext] at hdigits
    exact lexeme_of_digits hdigits hrest
  | @illegal d halpha hdigit hstart =>
    rw [String.toList_singleton] at htext
    obtain ⟨rfl, rfl⟩ := List.cons.inj htext
    -- Each test of the scanner would make the character the start of another token.
    have hassign : d ≠ '=' := by
      rintro rfl
      exact hstart .assign "=" rfl rfl
    have hbang : d ≠ '!' := by
      rintro rfl
      exact hstart .bang "!" rfl rfl
    have hsymbol : symbol? d = none := by
      cases hlookup : symbol? d with
      | none => rfl
      | some kind =>
        obtain ⟨hspelling, -⟩ := symbol?_spells hlookup
        exact absurd (by simp) (hstart kind _ hspelling)
    simp [lexeme, hassign, hbang, halpha, hdigit, hsymbol]

/-- No character of a token is blank, if the token is none of a character that starts no other. -/
theorem TokenKind.Spells.solid {kind : TokenKind} {text : String} (h : kind.Spells text)
    (hkind : kind ≠ .illegal) : ∀ d ∈ text.toList, Text.isBlank d = false := by
  intro d hd
  cases h with
  | fixed hspelling =>
    have htable : ∀ kind ∈ all, ∀ text ∈ kind.spelling?,
        text.toList.all (fun d => !Text.isBlank d) = true := by
      decide
    have hsolid := List.all_eq_true.1 (htable kind kind.mem_all text hspelling) d hd
    rwa [Bool.not_eq_true'] at hsolid
  | identifier _ hletters _ =>
    obtain ⟨hlow, hhigh⟩ := toNat_of_isAlpha (hletters d hd)
    exact isBlank_eq_false (by omega) hhigh
  | integer _ hdigits =>
    obtain ⟨hlow, hhigh⟩ := toNat_of_isDigit (hdigits d hd)
    exact isBlank_eq_false hlow (by omega)
  | illegal _ _ _ => exact absurd rfl hkind

/-- Only a first character can be blank: the others of a token are letters, digits or an equals
sign. -/
theorem TokenKind.Spells.not_blank {kind : TokenKind} {text : String} {c : Char} {cs : List Char}
    (h : kind.Spells text) (htext : text.toList = c :: cs) (hc : Text.isBlank c = false) :
    ∀ d ∈ text.toList, Text.isBlank d = false := by
  by_cases hkind : kind = .illegal
  · subst hkind
    intro d hd
    cases h with
    | fixed hspelling => cases hspelling
    | illegal _ _ _ =>
      rw [htext] at hd
      rw [String.toList_singleton] at htext
      obtain ⟨rfl, rfl⟩ := List.cons.inj htext
      rw [List.mem_singleton.1 hd]
      exact hc
  · exact h.solid hkind

theorem TokenKind.Spells.ne_empty {kind : TokenKind} {text : String} (h : kind.Spells text) :
    text ≠ "" := by
  cases h with
  | fixed hspelling =>
    have htable : ∀ kind ∈ all, ∀ text ∈ kind.spelling?, text ≠ "" := by
      decide
    exact htable kind kind.mem_all text hspelling
  | identifier hne _ _ => exact hne
  | integer hne _ => exact hne
  | illegal _ _ _ => exact String.singleton_ne_empty

/-! ## Texts one after another -/

section Append

variable {c : Char} {rest : List Char}

/-- A text that continues no word leaves the token before it as it is. -/
theorem lexeme_append (cs : List Char) (hrest : Apart rest) :
    lexeme c (cs ++ rest) =
      ⟨(lexeme c cs).kind, (lexeme c cs).tail, (lexeme c cs).rest ++ rest⟩ := by
  obtain ⟨hspelled, hlongest⟩ := lexeme_spells c cs
  have hnext : ∀ d ∈ ((lexeme c cs).rest ++ rest).head?, (lexeme c cs).kind.takes d = false := by
    intro d hd
    cases hcs : (lexeme c cs).rest with
    | nil =>
      rw [hcs, List.nil_append] at hd
      exact hrest.head (fun d hd => continuesWord_of_takes hd) d hd
    | cons b bs =>
      rw [hcs] at hd hlongest
      exact hlongest d hd
  have hlexeme := lexeme_of_spells hspelled String.toList_ofList hnext
  rwa [← List.append_assoc, lexeme_tail_append_rest] at hlexeme

/-- The words of a text before one that continues no word. -/
theorem wordsOf_append (cs : List Char) (hrest : Apart rest) :
    wordsOf (cs ++ rest) = wordsOf cs ++ wordsOf rest := by
  induction hn : cs.length using Nat.strongRecOn generalizing cs with
  | ind n ih =>
    -- The induction is on the text that is left, since a word may be longer than a character.
    subst hn
    cases cs with
    | nil => rw [List.nil_append, wordsOf_nil, List.nil_append]
    | cons c cs =>
      cases hc : Text.isBlank c with
      | true =>
        rw [List.cons_append, wordsOf_blank hc, wordsOf_blank hc,
          ih cs.length (Nat.lt_succ_self _) cs rfl]
      | false =>
        have hlength := congrArg List.length (lexeme_tail_append_rest c cs)
        rw [List.length_append] at hlength
        have hshort : (lexeme c cs).rest.length < (c :: cs).length := by
          rw [List.length_cons]
          omega
        rw [List.cons_append, wordsOf_cons hc, wordsOf_cons hc, headWord, headWord,
          lexeme_append cs hrest, ih _ hshort _ rfl, List.cons_append]

end Append

end LetLang
