import LetLang.Proofs.Scan.Words
import LetLang.Syntax.Text

/-!
# The words of canonical texts

A tree that a source can hold has names that are words of the language and integers without a sign.
A tree that a host builds can have negative integers too: their texts are a minus sign and a
numeral, unless there is no such numeral. The canonical text of a tree is scanned into the words
that the printer has put there (`wordsOf_programText`): no two of them run together, and none falls
apart.
-/

set_option autoImplicit false

namespace LetLang

variable {α : Type}

/-! ## Trees that can be written -/

/-- Names that a source can hold: runs of letters that spell no keyword. -/
structure IsName (x : String) : Prop where
  nonempty : x ≠ ""
  letters : x.toList.all Char.isAlpha = true
  free : TokenKind.keyword? x = none

mutual

/-- Expressions whose names are names of the language and whose integers are not negative. -/
def Expr.WellFormed : Expr α → Prop
  | .callable c => c.WellFormed
  | .int v => 0 ≤ v.toInt
  | .bool _ => True
  | .unary _ e => e.WellFormed
  | .binary _ l r => l.WellFormed ∧ r.WellFormed
  | .ifThen c t => c.WellFormed ∧ StmtsWellFormed t
  | .ifElse c t u => c.WellFormed ∧ StmtsWellFormed t ∧ StmtsWellFormed u
  | .call f args => f.WellFormed ∧ ExprsWellFormed args

/-- A name, or a function literal with names for its parameters. -/
def Callable.WellFormed : Callable α → Prop
  | .name x => IsName x
  | .func _ parameters body => (∀ x ∈ parameters, IsName x) ∧ StmtsWellFormed body

def Stmt.WellFormed : Stmt α → Prop
  | .letDecl x e => IsName x ∧ e.WellFormed
  | .ret e => e.WellFormed
  | .expr e => e.WellFormed

def ExprsWellFormed : List (Expr α) → Prop
  | [] => True
  | e :: es => e.WellFormed ∧ ExprsWellFormed es

/-- Statements of a block or a program, each of them well-formed. -/
def StmtsWellFormed : List (Stmt α) → Prop
  | [] => True
  | s :: ss => s.WellFormed ∧ StmtsWellFormed ss

end

mutual

/-- Expressions whose names are names of the language and whose integers are those that a numeral
writes, with a minus sign or without. -/
def Expr.Writable : Expr α → Prop
  | .callable c => c.Writable
  | .int v => v ≠ Int64.minValue
  | .bool _ => True
  | .unary _ e => e.Writable
  | .binary _ l r => l.Writable ∧ r.Writable
  | .ifThen c t => c.Writable ∧ StmtsWritable t
  | .ifElse c t u => c.Writable ∧ StmtsWritable t ∧ StmtsWritable u
  | .call f args => f.Writable ∧ ExprsWritable args

def Callable.Writable : Callable α → Prop
  | .name x => IsName x
  | .func _ parameters body => (∀ x ∈ parameters, IsName x) ∧ StmtsWritable body

def Stmt.Writable : Stmt α → Prop
  | .letDecl x e => IsName x ∧ e.Writable
  | .ret e => e.Writable
  | .expr e => e.Writable

def ExprsWritable : List (Expr α) → Prop
  | [] => True
  | e :: es => e.Writable ∧ ExprsWritable es

/-- Statements of a block or a program, each of them writable. -/
def StmtsWritable : List (Stmt α) → Prop
  | [] => True
  | s :: ss => s.Writable ∧ StmtsWritable ss

end

/-- The one integer without a numeral has a sign. -/
theorem ne_minValue_of_nonneg {v : Int64} (h : 0 ≤ v.toInt) : v ≠ Int64.minValue := by
  rintro rfl
  exact absurd h (by decide)

mutual

/-- Trees that a source can hold are writable. -/
theorem Expr.writable : ∀ e : Expr α, e.WellFormed → e.Writable
  | .callable c, h => c.writable h
  | .int _, h => ne_minValue_of_nonneg h
  | .bool _, _ => trivial
  | .unary _ e, h => e.writable h
  | .binary _ l r, ⟨hl, hr⟩ => ⟨l.writable hl, r.writable hr⟩
  | .ifThen c t, ⟨hc, ht⟩ => ⟨c.writable hc, stmts_writable t ht⟩
  | .ifElse c t u, ⟨hc, ht, hu⟩ => ⟨c.writable hc, stmts_writable t ht, stmts_writable u hu⟩
  | .call f args, ⟨hf, hargs⟩ => ⟨f.writable hf, exprs_writable args hargs⟩

theorem Callable.writable : ∀ c : Callable α, c.WellFormed → c.Writable
  | .name _, h => h
  | .func _ _ body, ⟨hxs, hbody⟩ => ⟨hxs, stmts_writable body hbody⟩

theorem Stmt.writable : ∀ s : Stmt α, s.WellFormed → s.Writable
  | .letDecl _ e, ⟨hx, he⟩ => ⟨hx, e.writable he⟩
  | .ret e, h => e.writable h
  | .expr e, h => e.writable h

theorem exprs_writable : ∀ es : List (Expr α), ExprsWellFormed es → ExprsWritable es
  | [], _ => trivial
  | e :: es, ⟨he, hes⟩ => ⟨e.writable he, exprs_writable es hes⟩

/-- What a source can hold can be written. -/
theorem stmts_writable : ∀ ss : List (Stmt α), StmtsWellFormed ss → StmtsWritable ss
  | [], _ => trivial
  | s :: ss, ⟨hs, hss⟩ => ⟨s.writable hs, stmts_writable ss hss⟩

end

/-! ## The words that the printer writes -/

/-- The word of an operator before its operand. -/
def UnaryOp.word : UnaryOp → Word
  | not => ⟨.bang, "!"⟩
  | negate => ⟨.minus, "-"⟩

/-- The word of an operator between its operands. -/
def BinaryOp.word : BinaryOp → Word
  | equal => ⟨.equal, "=="⟩
  | notEqual => ⟨.notEqual, "!="⟩
  | lessThan => ⟨.lessThan, "<"⟩
  | greaterThan => ⟨.greaterThan, ">"⟩
  | add => ⟨.plus, "+"⟩
  | subtract => ⟨.minus, "-"⟩
  | multiply => ⟨.asterisk, "*"⟩
  | divide => ⟨.slash, "/"⟩

/-- Phrases behind a comma each, and the closing parenthesis. -/
def moreListedWords : List (List Word) → List Word
  | [] => [⟨.rightParen, ")"⟩]
  | ws :: wss => ⟨.comma, ","⟩ :: (ws ++ moreListedWords wss)

/-- Phrases with commas between them, and the closing parenthesis. -/
def listedWords : List (List Word) → List Word
  | [] => [⟨.rightParen, ")"⟩]
  | ws :: wss => ws ++ moreListedWords wss

/-- Words between braces. -/
def bracedWords (ws : List Word) : List Word :=
  ⟨.leftBrace, "\x7b"⟩ :: (ws ++ [⟨.rightBrace, "\x7d"⟩])

/-- The words of an integer: its numeral, or a minus sign and the numeral without it. -/
def Numeral.words (v : Int64) : List Word :=
  if v.toInt < 0 then [⟨.minus, "-"⟩, ⟨.integer, Numeral.text (-v)⟩]
  else [⟨.integer, Numeral.text v⟩]

mutual

/-- The words of the text of an expression. -/
def Expr.words : Expr α → List Word
  | .callable c => c.words
  | .int v => Numeral.words v
  | .bool true => [⟨.trueWord, "true"⟩]
  | .bool false => [⟨.falseWord, "false"⟩]
  | .unary op e => ⟨.leftParen, "("⟩ :: op.word :: (e.words ++ [⟨.rightParen, ")"⟩])
  | .binary op l r =>
      ⟨.leftParen, "("⟩ :: (l.words ++ op.word :: (r.words ++ [⟨.rightParen, ")"⟩]))
  | .ifThen c t => ⟨.ifWord, "if"⟩ :: (c.words ++ bracedWords (stmtsWords t))
  | .ifElse c t u =>
      ⟨.ifWord, "if"⟩ :: (c.words ++ (bracedWords (stmtsWords t) ++
        ⟨.elseWord, "else"⟩ :: bracedWords (stmtsWords u)))
  | .call f args => f.words ++ ⟨.leftParen, "("⟩ :: listedWords (exprsWords args)

/-- The words of the text of a callable expression. -/
def Callable.words : Callable α → List Word
  | .name x => [⟨.identifier, x⟩]
  | .func _ parameters body =>
      ⟨.functionWord, "fn"⟩ :: ⟨.leftParen, "("⟩ ::
        (listedWords (parameters.map fun x => [⟨.identifier, x⟩]) ++ bracedWords (stmtsWords body))

/-- The words of the text of a statement. -/
def Stmt.words : Stmt α → List Word
  | .letDecl x e =>
      ⟨.letWord, "let"⟩ :: ⟨.identifier, x⟩ :: ⟨.assign, "="⟩ :: (e.words ++ [⟨.semicolon, ";"⟩])
  | .ret e => ⟨.returnWord, "return"⟩ :: (e.words ++ [⟨.semicolon, ";"⟩])
  | .expr e => e.words ++ [⟨.semicolon, ";"⟩]

/-- The words of each of several expressions. -/
def exprsWords : List (Expr α) → List (List Word)
  | [] => []
  | e :: es => e.words :: exprsWords es

/-- The words of several statements. -/
def stmtsWords : List (Stmt α) → List Word
  | [] => []
  | s :: ss => s.words ++ stmtsWords ss

end

/-! ## Fixed texts -/

section Fixed

variable {cs rest : List Char}

@[simp] theorem wordsOf_space : wordsOf (' ' :: cs) = wordsOf cs := wordsOf_blank rfl

@[simp] theorem wordsOf_newline : wordsOf ('\n' :: cs) = wordsOf cs := wordsOf_blank rfl

@[simp] theorem wordsOf_leftParen : wordsOf ('(' :: cs) = ⟨.leftParen, "("⟩ :: wordsOf cs :=
  wordsOf_symbol (by decide)

@[simp] theorem wordsOf_rightParen : wordsOf (')' :: cs) = ⟨.rightParen, ")"⟩ :: wordsOf cs :=
  wordsOf_symbol (by decide)

@[simp] theorem wordsOf_leftBrace : wordsOf ('\x7b' :: cs) = ⟨.leftBrace, "\x7b"⟩ :: wordsOf cs :=
  wordsOf_symbol (by decide)

@[simp] theorem wordsOf_rightBrace : wordsOf ('\x7d' :: cs) = ⟨.rightBrace, "\x7d"⟩ :: wordsOf cs :=
  wordsOf_symbol (by decide)

@[simp] theorem wordsOf_comma : wordsOf (',' :: cs) = ⟨.comma, ","⟩ :: wordsOf cs :=
  wordsOf_symbol (by decide)

@[simp] theorem wordsOf_semicolon : wordsOf (';' :: cs) = ⟨.semicolon, ";"⟩ :: wordsOf cs :=
  wordsOf_symbol (by decide)

@[simp] theorem wordsOf_minus : wordsOf ('-' :: cs) = ⟨.minus, "-"⟩ :: wordsOf cs :=
  wordsOf_symbol (by decide)

/-- A keyword or a name is one word. -/
theorem wordsOf_word {text : String} (hne : text ≠ "") (htext : text.toList.all Char.isAlpha = true)
    (hrest : Apart rest) :
    wordsOf (text.toList ++ rest) = ⟨wordKind text, text⟩ :: wordsOf rest := by
  have hletters := wordsOf_letters (fun h => hne (String.toList_eq_nil_iff.1 h))
    (List.all_eq_true.1 htext) hrest
  rwa [String.ofList_toList] at hletters

/-- An operator before its operand is a word, unless an equals sign follows it. -/
theorem UnaryOp.wordsOf_symbol (op : UnaryOp) (h : cs.head? ≠ some '=') :
    wordsOf (op.symbol.toList ++ cs) = op.word :: wordsOf cs := by
  cases op with
  | not => exact wordsOf_bang h
  | negate => exact wordsOf_minus

/-- An operator between its operands stands before a space. -/
theorem BinaryOp.wordsOf_symbol (op : BinaryOp) :
    wordsOf (op.symbol.toList ++ ' ' :: cs) = op.word :: wordsOf cs := by
  have hspace : (' ' :: cs).head? ≠ some '=' := by simp
  cases op with
  | equal => exact wordsOf_equal.trans (congrArg _ wordsOf_space)
  | notEqual => exact wordsOf_notEqual.trans (congrArg _ wordsOf_space)
  | _ => exact (LetLang.wordsOf_symbol (by decide)).trans (congrArg _ wordsOf_space)

end Fixed

/-! ## Numerals -/

section Numeral

variable {v : Int64}

/-- An integer without a sign is written with its decimal digits. -/
theorem Numeral.toList_text (h : 0 ≤ v.toInt) :
    (Numeral.text v).toList = Nat.toDigits 10 v.toInt.toNat := by
  obtain ⟨n, hn⟩ := Int.eq_ofNat_of_zero_le h
  rw [Numeral.text, hn, Int.toNat_natCast]
  exact Nat.toList_repr

theorem Numeral.digits_text (h : 0 ≤ v.toInt) :
    (Numeral.text v).toList ≠ [] ∧ ∀ c ∈ (Numeral.text v).toList, c.isDigit = true := by
  rw [Numeral.toList_text h]
  exact digits_toDigits _

theorem Numeral.toInt_neg (hv : v ≠ Int64.minValue) : (-v).toInt = -v.toInt := by
  have hle := v.le_toInt
  have hge := v.toInt_le
  have hne : v.toInt ≠ Int64.minValue.toInt := fun h => hv (Int64.toInt_inj.1 h)
  have hmin : Int64.minValue.toInt = -2 ^ 63 := by decide
  have hmax : Int64.maxValue.toInt = 2 ^ 63 - 1 := by decide
  rw [Int64.toInt_neg]
  exact Int.bmod_eq_of_le (by omega) (by omega)

/-- Behind the sign stands the numeral of an integer that has none. -/
theorem Numeral.neg_nonneg (hneg : v.toInt < 0) (hv : v ≠ Int64.minValue) : 0 ≤ (-v).toInt := by
  rw [Numeral.toInt_neg hv]
  omega

/-- A negative integer is written with a sign before the digits of its opposite. -/
theorem Numeral.toList_text_of_neg (hneg : v.toInt < 0) (hv : v ≠ Int64.minValue) :
    (Numeral.text v).toList = '-' :: (Numeral.text (-v)).toList := by
  rw [Numeral.text, Numeral.text, Numeral.toInt_neg hv, Int.repr_eq_if, Int.repr_eq_if,
    if_neg (by omega), if_pos (by omega)]
  simp

end Numeral

/-! ## Texts of trees -/

/-- The text has the given words, before any text that does not continue its last word. -/
def Reads (text : String) (ws : List Word) : Prop :=
  ∀ rest, Apart rest → wordsOf (text.toList ++ rest) = ws ++ wordsOf rest

/-- A text that continues no word may stand behind it. -/
theorem Reads.before {text : String} {ws : List Word} (h : Reads text ws) (c : Char)
    (hc : continuesWord c = false) (rest : List Char) :
    wordsOf (text.toList ++ c :: rest) = ws ++ wordsOf (c :: rest) :=
  h (c :: rest) (apart_cons hc)

/-- A keyword is a word of its own kind. -/
theorem reads_keyword (text : String) (kind : TokenKind)
    (h : (text, kind) ∈ TokenKind.keywords) : Reads text [⟨kind, text⟩] := by
  intro rest hrest
  have htable : ∀ entry ∈ TokenKind.keywords, entry.1 ≠ "" ∧
      entry.1.toList.all Char.isAlpha = true ∧ wordKind entry.1 = entry.2 := by decide
  obtain ⟨hne, hletters, hkind⟩ := htable _ h
  rw [wordsOf_word hne hletters hrest, hkind, List.singleton_append]

/-- A name is an identifier. -/
theorem reads_name {x : String} (h : IsName x) : Reads x [⟨.identifier, x⟩] := by
  intro rest hrest
  have hkind : wordKind x = .identifier := by rw [wordKind, h.free, Option.getD_none]
  rw [wordsOf_word h.nonempty h.letters hrest, hkind, List.singleton_append]

theorem reads_digits {v : Int64} (h : 0 ≤ v.toInt) :
    Reads (Numeral.text v) [⟨.integer, Numeral.text v⟩] := by
  intro rest hrest
  obtain ⟨hne, hdigits⟩ := Numeral.digits_text h
  rw [wordsOf_digits hne hdigits hrest, String.ofList_toList, List.singleton_append]

/-- An integer is read as its numeral, behind a minus sign if it is negative. -/
theorem reads_numeral {v : Int64} (h : v ≠ Int64.minValue) :
    Reads (Numeral.text v) (Numeral.words v) := by
  intro rest hrest
  rw [Numeral.words]
  split
  · next hneg =>
    rw [Numeral.toList_text_of_neg hneg h, List.cons_append, wordsOf_minus,
      reads_digits (Numeral.neg_nonneg hneg h) rest hrest]
    rfl
  · next hnonneg => exact reads_digits (Int.not_lt.1 hnonneg) rest hrest

/-- Phrases separated by commas, before a closing parenthesis. -/
theorem wordsOf_commaSeparated {texts : List String} {wss : List (List Word)}
    (h : List.Forall₂ Reads texts wss) (rest : List Char) :
    wordsOf ((commaSeparated texts).toList ++ ')' :: rest) = listedWords wss ++ wordsOf rest := by
  cases h with
  | nil => simp [commaSeparated, listedWords]
  | @cons text ws texts wss htext htexts =>
    -- The text before the first comma changes along the list, so the induction is for all of them.
    rw [commaSeparated, listedWords]
    induction htexts generalizing text ws with
    | nil =>
      rw [String.intercalate_singleton, htext.before ')' rfl, wordsOf_rightParen]
      simp [moreListedWords]
    | @cons text' ws' texts wss htext' _ ih =>
      rw [String.intercalate_cons_cons]
      have hcomma : (text ++ ", " ++ ", ".intercalate (text' :: texts)).toList ++ ')' :: rest =
          text.toList ++ ',' :: ' ' ::
            ((", ".intercalate (text' :: texts)).toList ++ ')' :: rest) := by
        simp
      rw [hcomma, htext.before ',' rfl, wordsOf_comma, wordsOf_space, ih htext', moreListedWords]
      simp

/-- Characters of a class without the equals sign do not start with one. -/
theorem head?_append_ne {cs : List Char} {chosen : Char → Bool} (hne : cs ≠ [])
    (hcs : ∀ c ∈ cs, chosen c = true) (hassign : chosen '=' = false) (rest : List Char) :
    (cs ++ rest).head? ≠ some '=' := by
  cases cs with
  | nil => exact absurd rfl hne
  | cons c cs =>
    rintro heq
    obtain rfl : c = '=' := Option.some.inj heq
    rw [hcs _ List.mem_cons_self] at hassign
    cases hassign

theorem Callable.head?_text {c : Callable α} (h : c.Writable) (rest : List Char) :
    (c.text.toList ++ rest).head? ≠ some '=' := by
  cases c with
  | name x =>
    have hne : x.toList ≠ [] := fun hnil => h.nonempty (String.toList_eq_nil_iff.1 hnil)
    exact head?_append_ne hne (List.all_eq_true.1 h.letters) rfl rest
  | func l xs body => simp [Callable.text]

/-- The canonical text of an expression does not start with an equals sign. -/
theorem Expr.head?_text {e : Expr α} (h : e.Writable) (rest : List Char) :
    (e.text.toList ++ rest).head? ≠ some '=' := by
  cases e with
  | callable c => exact Callable.head?_text h rest
  | int v =>
    rw [Expr.text]
    by_cases hneg : v.toInt < 0
    · rw [Numeral.toList_text_of_neg hneg h]
      simp
    · obtain ⟨hne, hdigits⟩ := Numeral.digits_text (Int.not_lt.1 hneg)
      exact head?_append_ne hne hdigits rfl rest
  | bool b => cases b <;> simp [Expr.text]
  | unary op e => simp [Expr.text]
  | binary op l r => simp [Expr.text]
  | ifThen c t => simp [Expr.text]
  | ifElse c t u => simp [Expr.text]
  | call f args =>
    -- A call starts as its function does.
    have htext : (Expr.call f args).text.toList ++ rest = f.text.toList ++
        '(' :: ((commaSeparated (exprTexts args)).toList ++ ')' :: rest) := by
      simp [Expr.text]
    rw [htext]
    exact Callable.head?_text h.1 _

/-- The text of a block has the words of its statements between braces. -/
theorem wordsOf_blockText {ss : List (Stmt α)} {ws : List Word}
    (h : ∀ rest : List Char,
      wordsOf ((String.join (stmtTexts ss)).toList ++ rest) = ws ++ wordsOf rest)
    (rest : List Char) :
    wordsOf ((blockText ss).toList ++ rest) = bracedWords ws ++ wordsOf rest := by
  have htext : (blockText ss).toList ++ rest =
      '\x7b' :: ((String.join (stmtTexts ss)).toList ++ '\x7d' :: rest) := by
    simp [blockText, braced]
  rw [htext, wordsOf_leftBrace, h, wordsOf_rightBrace]
  simp [bracedWords]

mutual

/-- The text of an expression is read as its words, by induction on the tree. -/
theorem Expr.reads : ∀ e : Expr α, e.Writable → Reads e.text e.words
  | .callable c, h => c.reads h
  | .int v, h => reads_numeral h
  | .bool true, _ => reads_keyword "true" .trueWord (by decide)
  | .bool false, _ => reads_keyword "false" .falseWord (by decide)
  | .unary op e, (h : e.Writable) => by
    intro rest hrest
    have htext : (Expr.unary op e).text.toList ++ rest =
        '(' :: (op.symbol.toList ++ (e.text.toList ++ ')' :: rest)) := by simp [Expr.text]
    -- No blank stands between the operator and its operand, so `!` must not meet an `=`.
    rw [htext, wordsOf_leftParen, op.wordsOf_symbol (Expr.head?_text h _),
      (e.reads h).before ')' rfl, wordsOf_rightParen]
    simp [Expr.words]
  | .binary op l r, ⟨hl, hr⟩ => by
    intro rest hrest
    have htext : (Expr.binary op l r).text.toList ++ rest = '(' :: (l.text.toList ++
        ' ' :: (op.symbol.toList ++ ' ' :: (r.text.toList ++ ')' :: rest))) := by simp [Expr.text]
    rw [htext, wordsOf_leftParen, (l.reads hl).before ' ' rfl, wordsOf_space, op.wordsOf_symbol,
      (r.reads hr).before ')' rfl, wordsOf_rightParen]
    simp [Expr.words]
  | .ifThen c t, ⟨hc, ht⟩ => by
    intro rest hrest
    have htext : (Expr.ifThen c t).text.toList ++ rest = "if".toList ++ ' ' :: (c.text.toList ++
        ' ' :: ((blockText t).toList ++ rest)) := by
      simp [Expr.text, blockText]
    rw [htext, (reads_keyword "if" .ifWord (by decide)).before ' ' rfl, wordsOf_space,
      (c.reads hc).before ' ' rfl, wordsOf_space, wordsOf_blockText (wordsOf_stmtTexts t ht)]
    simp [Expr.words]
  | .ifElse c t u, ⟨hc, ht, hu⟩ => by
    intro rest hrest
    have htext : (Expr.ifElse c t u).text.toList ++ rest = "if".toList ++ ' ' :: (c.text.toList ++
        ' ' :: ((blockText t).toList ++ ' ' :: ("else".toList ++ ' ' ::
          ((blockText u).toList ++ rest)))) := by
      simp [Expr.text, blockText]
    rw [htext, (reads_keyword "if" .ifWord (by decide)).before ' ' rfl, wordsOf_space,
      (c.reads hc).before ' ' rfl, wordsOf_space, wordsOf_blockText (wordsOf_stmtTexts t ht),
      wordsOf_space, (reads_keyword "else" .elseWord (by decide)).before ' ' rfl, wordsOf_space,
      wordsOf_blockText (wordsOf_stmtTexts u hu)]
    simp [Expr.words]
  | .call f args, ⟨hf, hargs⟩ => by
    intro rest hrest
    have htext : (Expr.call f args).text.toList ++ rest = f.text.toList ++
        '(' :: ((commaSeparated (exprTexts args)).toList ++ ')' :: rest) := by
      simp [Expr.text]
    rw [htext, (f.reads hf).before '(' rfl, wordsOf_leftParen,
      wordsOf_commaSeparated (exprs_reads args hargs)]
    simp [Expr.words]

theorem Callable.reads : ∀ c : Callable α, c.Writable → Reads c.text c.words
  | .name x, h => reads_name h
  | .func l xs body, ⟨hxs, hbody⟩ => by
    intro rest hrest
    have htext : (Callable.func l xs body).text.toList ++ rest = "fn".toList ++
        '(' :: ((commaSeparated xs).toList ++ ')' :: ' ' :: ((blockText body).toList ++ rest)) := by
      simp [Callable.text, blockText]
    -- The parameters are listed like arguments, with names for the phrases.
    have hnames : List.Forall₂ Reads xs (xs.map fun x => [⟨.identifier, x⟩]) :=
      List.forall₂_map_right_iff.2 (List.forall₂_same.2 fun x hx => reads_name (hxs x hx))
    rw [htext, (reads_keyword "fn" .functionWord (by decide)).before '(' rfl, wordsOf_leftParen,
      wordsOf_commaSeparated hnames, wordsOf_space,
      wordsOf_blockText (wordsOf_stmtTexts body hbody)]
    simp [Callable.words]

/-- The text of a statement ends with a semicolon, so anything may follow it. -/
theorem Stmt.wordsOf_text : ∀ s : Stmt α, s.Writable → ∀ rest : List Char,
    wordsOf (s.text.toList ++ rest) = s.words ++ wordsOf rest
  | .letDecl x e, ⟨hx, he⟩, rest => by
    have htext : (Stmt.letDecl x e).text.toList ++ rest = "let".toList ++ ' ' :: (x.toList ++
        ' ' :: '=' :: ' ' :: (e.text.toList ++ ';' :: rest)) := by simp [Stmt.text]
    rw [htext, (reads_keyword "let" .letWord (by decide)).before ' ' rfl, wordsOf_space,
      (reads_name hx).before ' ' rfl, wordsOf_space, wordsOf_assign (by simp), wordsOf_space,
      (e.reads he).before ';' rfl, wordsOf_semicolon]
    simp [Stmt.words]
  | .ret e, (h : e.Writable), rest => by
    have htext : (Stmt.ret e).text.toList ++ rest = "return".toList ++ ' ' :: (e.text.toList ++
        ';' :: rest) := by simp [Stmt.text]
    rw [htext, (reads_keyword "return" .returnWord (by decide)).before ' ' rfl, wordsOf_space,
      (e.reads h).before ';' rfl, wordsOf_semicolon]
    simp [Stmt.words]
  | .expr e, (h : e.Writable), rest => by
    have htext : (Stmt.expr e).text.toList ++ rest = e.text.toList ++ ';' :: rest := by
      simp [Stmt.text]
    rw [htext, (e.reads h).before ';' rfl, wordsOf_semicolon]
    simp [Stmt.words]

theorem exprs_reads : ∀ es : List (Expr α), ExprsWritable es →
    List.Forall₂ Reads (exprTexts es) (exprsWords es)
  | [], _ => .nil
  | e :: es, ⟨he, hes⟩ => .cons (e.reads he) (exprs_reads es hes)

/-- The texts of statements need nothing between them. -/
theorem wordsOf_stmtTexts : ∀ ss : List (Stmt α), StmtsWritable ss → ∀ rest : List Char,
    wordsOf ((String.join (stmtTexts ss)).toList ++ rest) = stmtsWords ss ++ wordsOf rest
  | [], _, rest => by simp [stmtTexts, stmtsWords]
  | s :: ss, ⟨hs, hss⟩, rest => by
    rw [stmtTexts, String.join_cons, String.toList_append, List.append_assoc,
      s.wordsOf_text hs, wordsOf_stmtTexts ss hss, stmtsWords, List.append_assoc]

end

/-- Scanning the canonical text of a program gives back the words of its tree. -/
theorem wordsOf_programText {p : Program α} (h : StmtsWritable p) :
    wordsOf (programText p).toList = stmtsWords p := by
  rw [programText]
  induction p with
  | nil => simp [stmtTexts, stmtsWords]
  | cons s ss ih =>
    obtain ⟨hs, hss⟩ := h
    have htext : (String.join ((stmtTexts (s :: ss)).map (· ++ "\n"))).toList = s.text.toList ++
        '\n' :: (String.join ((stmtTexts ss).map (· ++ "\n"))).toList := by
      simp [stmtTexts]
    rw [htext, s.wordsOf_text hs, wordsOf_newline, ih hss, stmtsWords]

end LetLang
