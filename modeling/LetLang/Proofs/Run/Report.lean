import LetLang.Proofs.Parse.Places
import LetLang.Proofs.Parse.WellFormed
import LetLang.Proofs.Run.Listing

/-!
# Reports of parse errors

The text of a tree stands on one line, however many lines of the source it was read from: names are
letters, numerals are digits, and what the printer puts between them has no blank but the space
(`Expr.oneLine_text`). So does the message of an error, since the token that it quotes has no blanks
(`ParseError.oneLine_message`). So a report has one line for each error
(`one_line_for_each_error`).
-/

set_option autoImplicit false

namespace LetLang

variable {α : Type}

/-! ## Texts on one line -/

namespace Text

/-- The characters that break a line. -/
def lineBreaks : List Char := ['\n', '\x0b', '\x0c', '\r', '\x85', '\u2028', '\u2029']

/-- Whether the text has no blanks but spaces, and so stands on one line. -/
def isOneLine (s : String) : Bool := s.toList.all fun c => !isBlank c || c == ' '

/-- The text stands on one line. -/
abbrev OneLine (s : String) : Prop := isOneLine s = true

variable {s t : String} {texts : List String}

/-- A text on one line has no blank but the space. -/
theorem oneLine_iff : OneLine s ↔ ∀ c ∈ s.toList, isBlank c = true → c = ' ' := by
  rw [OneLine, isOneLine, List.all_eq_true]
  refine forall₂_congr fun c _ => ?_
  rw [Bool.or_eq_true, Bool.not_eq_true', beq_iff_eq]
  cases isBlank c <;> simp

/-- All line breaks are blank. -/
theorem OneLine.not_mem (h : OneLine s) {c : Char} (hc : c ∈ lineBreaks) : c ∉ s.toList := by
  have htable : (lineBreaks.all fun c => isBlank c && c != ' ') = true := by decide
  obtain ⟨hblank, hne⟩ := Bool.and_eq_true_iff.1 (List.all_eq_true.1 htable c hc)
  exact fun hmem => bne_iff_ne.1 hne (oneLine_iff.1 h c hmem hblank)

/-- A text without blanks stands on one line. -/
theorem oneLine_of_solid (h : ∀ c ∈ s.toList, isBlank c = false) : OneLine s := by
  refine oneLine_iff.2 fun c hc hblank => ?_
  rw [h c hc] at hblank
  cases hblank

theorem oneLine_of_digits (h : ∀ c ∈ s.toList, c.isDigit = true) : OneLine s := by
  refine oneLine_of_solid fun c hc => ?_
  have hcode := toNat_of_isDigit (h c hc)
  exact isBlank_eq_false hcode.1 (by omega)

/-- Two texts one behind the other stand on one line if both do. -/
theorem oneLine_append : OneLine (s ++ t) ↔ OneLine s ∧ OneLine t := by
  rw [OneLine, isOneLine, String.toList_append, List.all_append, Bool.and_eq_true]
  rfl

theorem oneLine_join (h : ∀ text ∈ texts, OneLine text) : OneLine (String.join texts) := by
  induction texts with
  | nil => decide
  | cons text texts ih =>
    obtain ⟨htext, htexts⟩ := List.forall_mem_cons.1 h
    rw [String.join_cons]
    exact oneLine_append.2 ⟨htext, ih htexts⟩

end Text

open Text

/-- The separator is a comma and a space. -/
theorem oneLine_commaSeparated {texts : List String} (h : ∀ text ∈ texts, OneLine text) :
    OneLine (commaSeparated texts) := by
  rw [commaSeparated]
  induction texts with
  | nil => decide
  | cons text texts ih =>
    obtain ⟨htext, htexts⟩ := List.forall_mem_cons.1 h
    cases texts with
    | nil => rwa [String.intercalate_singleton]
    | cons text' texts =>
      rw [String.intercalate_cons_cons, oneLine_append, oneLine_append]
      exact ⟨⟨htext, by decide⟩, ih htexts⟩

/-- Texts between braces, with nothing between them. -/
theorem oneLine_braced {texts : List String} (h : ∀ text ∈ texts, OneLine text) :
    OneLine (braced (String.join texts)) := by
  rw [braced, oneLine_append, oneLine_append]
  exact ⟨⟨by decide, oneLine_join h⟩, by decide⟩

/-! ## Texts of trees -/

theorem IsName.oneLine {x : String} (h : IsName x) : OneLine x :=
  oneLine_of_solid ((isName_iff_spells.1 h).solid TokenKind.noConfusion)

theorem UnaryOp.oneLine_symbol (op : UnaryOp) : OneLine op.symbol := by
  cases op <;> decide

theorem BinaryOp.oneLine_symbol (op : BinaryOp) : OneLine op.symbol := by
  cases op <;> decide

mutual

/-- The text of a well-formed tree stands on one line, by induction on the tree. -/
theorem Expr.oneLine_text : ∀ e : Expr α, e.WellFormed → OneLine e.text
  | .callable c, h => c.oneLine_text h
  | .int _, h => oneLine_of_digits (Numeral.digits_text h).2
  | .bool b, _ => by
    rw [Expr.text]
    cases b <;> decide
  | .unary op e, (h : e.WellFormed) => by
    simp only [Expr.text, oneLine_append, and_assoc]
    exact ⟨by decide, op.oneLine_symbol, e.oneLine_text h, by decide⟩
  | .binary op l r, ⟨hl, hr⟩ => by
    simp only [Expr.text, oneLine_append, and_assoc]
    exact ⟨by decide, l.oneLine_text hl, by decide, op.oneLine_symbol, by decide,
      r.oneLine_text hr, by decide⟩
  | .ifThen c t, ⟨hc, ht⟩ => by
    simp only [Expr.text, oneLine_append, and_assoc]
    exact ⟨by decide, c.oneLine_text hc, by decide, oneLine_braced (oneLine_stmtTexts t ht)⟩
  | .ifElse c t u, ⟨hc, ht, hu⟩ => by
    simp only [Expr.text, oneLine_append, and_assoc]
    exact ⟨by decide, c.oneLine_text hc, by decide, oneLine_braced (oneLine_stmtTexts t ht),
      by decide, oneLine_braced (oneLine_stmtTexts u hu)⟩
  | .call f args, ⟨hf, hargs⟩ => by
    simp only [Expr.text, oneLine_append, and_assoc]
    exact ⟨f.oneLine_text hf, by decide, oneLine_commaSeparated (oneLine_exprTexts args hargs),
      by decide⟩

theorem Callable.oneLine_text : ∀ c : Callable α, c.WellFormed → OneLine c.text
  | .name _, h => IsName.oneLine h
  | .func _ _ body, ⟨hxs, hbody⟩ => by
    simp only [Callable.text, oneLine_append, and_assoc]
    exact ⟨by decide, oneLine_commaSeparated fun x hx => (hxs x hx).oneLine, by decide,
      oneLine_braced (oneLine_stmtTexts body hbody)⟩

theorem Stmt.oneLine_text : ∀ s : Stmt α, s.WellFormed → OneLine s.text
  | .letDecl _ e, ⟨hx, he⟩ => by
    simp only [Stmt.text, oneLine_append, and_assoc]
    exact ⟨by decide, hx.oneLine, by decide, e.oneLine_text he, by decide⟩
  | .ret e, (h : e.WellFormed) => by
    simp only [Stmt.text, oneLine_append, and_assoc]
    exact ⟨by decide, e.oneLine_text h, by decide⟩
  | .expr e, (h : e.WellFormed) => by
    simp only [Stmt.text, oneLine_append]
    exact ⟨e.oneLine_text h, by decide⟩

theorem oneLine_exprTexts : ∀ es : List (Expr α), ExprsWellFormed es →
    ∀ text ∈ exprTexts es, OneLine text
  | [], _ => List.forall_mem_nil _
  | e :: es, ⟨he, hes⟩ => List.forall_mem_cons.2 ⟨e.oneLine_text he, oneLine_exprTexts es hes⟩

theorem oneLine_stmtTexts : ∀ ss : List (Stmt α), StmtsWellFormed ss →
    ∀ text ∈ stmtTexts ss, OneLine text
  | [], _ => List.forall_mem_nil _
  | s :: ss, ⟨hs, hss⟩ => List.forall_mem_cons.2 ⟨s.oneLine_text hs, oneLine_stmtTexts ss hss⟩

end

/-! ## Messages -/

theorem TokenKind.oneLine_name (kind : TokenKind) : OneLine kind.name := by
  have htable : ∀ kind ∈ all, OneLine kind.name := by decide
  exact htable kind kind.mem_all

/-- A token of a source has no blanks, and the end of a source has no characters. -/
theorem oneLine_text_of_mem {source : String} {t : Token}
    (ht : t ∈ scan source ++ [Token.eof source.utf8ByteSize]) : OneLine t.text := by
  rcases List.mem_append.1 ht with ht | ht
  · exact oneLine_of_solid ((Scanner.ofSource source).tokenizes_tokens.solid t ht)
  · rw [List.mem_singleton.1 ht]
    exact oneLine_of_solid (List.forall_mem_nil _)

namespace ParseError

variable {source : String} {e : ParseError}

/-- The message of an error that points into a source, and that carries a tree which a source can
hold if it carries one. -/
theorem oneLine_message (hpoints : e.PointsInto source) (hwf : e.WellFormed) :
    OneLine e.message := by
  cases e with
  | unexpectedToken expected got =>
    have hexpected : OneLine ("expected next token to be " ++ expected.name) :=
      oneLine_append.2 ⟨by decide, expected.oneLine_name⟩
    have hgot : OneLine ("expected next token to be " ++ expected.name ++ ", got " ++
        got.kind.name) :=
      oneLine_append.2 ⟨oneLine_append.2 ⟨hexpected, by decide⟩, got.kind.oneLine_name⟩
    exact oneLine_append.2 ⟨hgot, by decide⟩
  | noOperand token => exact oneLine_append.2 ⟨by decide, token.kind.oneLine_name⟩
  | invalidInteger token =>
    exact oneLine_append.2 ⟨oneLine_append.2 ⟨by decide, oneLine_text_of_mem hpoints⟩, by decide⟩
  | invalidCallee callee start =>
    exact oneLine_append.2 ⟨oneLine_append.2 ⟨by decide, callee.oneLine_text hwf⟩, by decide⟩

/-- The place of an error is a number, and the rest of its line is its message. -/
theorem oneLine_line (h : OneLine e.message) : OneLine e.line := by
  have hplace : OneLine (toString e.start) := by
    refine oneLine_of_digits ?_
    rw [Nat.toString_eq_repr, Nat.toList_repr]
    exact (digits_toDigits e.start).2
  have hhead : OneLine ("parse error at " ++ toString e.start ++ ": ") :=
    oneLine_append.2 ⟨oneLine_append.2 ⟨by decide, hplace⟩, by decide⟩
  exact oneLine_append.2 ⟨hhead, h⟩

theorem line_ne_empty : e.line ≠ "" := by
  intro hempty
  have hhead : "parse error at " ++ toString e.start ++ ": " = "" :=
    (String.append_eq_empty_iff.1 hempty).1
  exact absurd (String.append_eq_empty_iff.1 hhead).2 (by decide)

/-- The lines of a report are those of its errors. -/
theorem lines_report {errors : List ParseError} (h : ∀ e ∈ errors, OneLine e.message) :
    Text.lines (report errors) = errors.map line := by
  refine Text.lines_intercalate fun text htext => ?_
  obtain ⟨e, he, rfl⟩ := List.mem_map.1 htext
  exact ⟨line_ne_empty, (oneLine_line (h e he)).not_mem (by decide)⟩

end ParseError

/-! ## Reports -/

/-- Every error that is found in a source has a message of one line. -/
theorem oneLine_message_of_mem_errors {source : String} {e : ParseError}
    (he : e ∈ (parse source).errors) : OneLine e.message := by
  have hstart : (Cursor.ofSource source).In source := ⟨List.suffix_refl _, rfl⟩
  obtain ⟨-, hlocated⟩ :=
    (Parser.located_invariant source).program_run (Cursor.ofSource source).parse_run hstart
  exact ParseError.oneLine_message (hlocated.pointing e he) ((parse_wellFormed source).2 e he)

/-- A source with parse errors is not shown, and leaves the world as it is. -/
theorem World.execute_of_errors {source : String} (hbroken : (parse source).errors ≠ [])
    {emit : Emit} (hemit : emit ≠ .tokens) (depth : Nat) (w : World) :
    w.execute depth emit source = some (.error (.parse (parse source).errors), w) := by
  have hparse : parse? source = .error (parse source).errors := by
    rw [parse?, Parsed.result, if_neg fun h => hbroken (List.isEmpty_iff.1 h)]
  cases emit with
  | value =>
    rw [World.execute, World.run, hparse]
    rfl
  | ast =>
    rw [World.execute, canonicalText, hparse]
  | tokens => exact absurd rfl hemit

/-- A source with errors is neither evaluated nor shown, and the failure has one line for each error
in order, which says where the error stands and what is wrong there. No message breaks its line, not
even one that shows a whole tree. -/
theorem one_line_for_each_error (source : String) (hbroken : (parse source).errors ≠ []) :
    (∀ emit, emit = .value ∨ emit = .ast → ∀ (depth : Nat) (w : World), ∃ failure : RunError,
      w.execute depth emit source = some (.error failure, w) ∧
      Text.lines failure.message = (parse source).errors.map fun e =>
        "parse error at " ++ toString e.start ++ ": " ++ e.message) ∧
    ∀ e ∈ (parse source).errors, ∀ c ∈ Text.lineBreaks, c ∉ e.message.toList := by
  have honeLine : ∀ e ∈ (parse source).errors, OneLine e.message :=
    fun _ he => oneLine_message_of_mem_errors he
  refine ⟨fun emit hemit depth w => ?_, fun e he c hc => (honeLine e he).not_mem hc⟩
  have htokens : emit ≠ .tokens := by
    rcases hemit with rfl | rfl <;> decide
  exact ⟨_, World.execute_of_errors hbroken htokens depth w, ParseError.lines_report honeLine⟩

/-- The sum of a function literal and a number is called, over five lines of the source, and behind
that an operand is missing. -/
theorem one_line_for_each_error_call :
    let source := "(fn(a) \x7b\n  let b = a;\n  b\n\x7d\n+ 1)(2); *"
    (parse source).errors ≠ [] ∧ ∃ failure : RunError,
      World.fresh.execute 0 .value source = some (.error failure, World.fresh) ∧
      Text.lines failure.message =
        ["parse error at 32: cannot call (fn(a) \x7blet b = a;b;\x7d + 1): " ++
            "only identifiers and function literals are callable",
          "parse error at 37: No unary parse function for asterisk"] := by
  intro source
  have herrors : (parse source).errors =
      [.invalidCallee (.binary .add (.callable (.func () ["a"]
          [.letDecl "b" (.callable (.name "a")), .expr (.callable (.name "b"))])) (.int 1)) 32,
        .noOperand ⟨.asterisk, "*", 37⟩] := by
    cbv
  obtain ⟨hfails, -⟩ := one_line_for_each_error source (by rw [herrors]; exact List.cons_ne_nil _ _)
  obtain ⟨failure, hrun, hlines⟩ := hfails .value (.inl rfl) 0 World.fresh
  rw [herrors] at hlines ⊢
  exact ⟨List.cons_ne_nil _ _, failure, hrun, hlines.trans (by decide +kernel)⟩

end LetLang
