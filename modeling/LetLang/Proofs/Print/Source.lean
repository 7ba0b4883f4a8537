import LetLang.Proofs.Parse.WellFormed
import LetLang.Proofs.Print.Phrases

/-!
# Sources of all well-formed trees

The canonical text of a tree is in the grammar only if the condition of every `if` is an operation.
The sources below put every condition in parentheses, and a blank behind every word. Any words with
a blank behind each are scanned back as they are (`wordsOf_spacedText`), and the words of a
well-formed tree are derived as that tree, so that every well-formed program has a source
(`parse_sourceText`). Since nothing else is ever made of a source, the well-formed programs are what
the parser can return (`wellFormed_iff_parsed`).
-/

set_option autoImplicit false

namespace LetLang

open Grammar

/-! ## Words with a blank behind each -/

/-- A word of the language: its text is spelled as its kind asks for. -/
structure Word.Proper (w : Word) : Prop where
  spells : w.kind.Spells w.text
  legal : w.kind ≠ .illegal

/-- The words, with a blank behind each. -/
def spacedText (ws : List Word) : String := String.join (ws.map fun w => w.text ++ " ")

/-- A word before a blank is the first word of the text. -/
theorem Word.Proper.wordsOf_cons {w : Word} (h : w.Proper) (rest : List Char) :
    wordsOf (w.text.toList ++ ' ' :: rest) = w :: wordsOf rest := by
  cases htext : w.text.toList with
  | nil => exact absurd (String.toList_eq_nil_iff.1 htext) h.spells.ne_empty
  | cons c cs =>
    have hblank : Text.isBlank c = false :=
      h.spells.solid h.legal c (by rw [htext]; exact List.mem_cons_self)
    have hspace : ∀ d ∈ (' ' :: rest).head?, w.kind.takes d = false :=
      (apart_cons rfl).head fun _ hd => TokenKind.continuesWord_of_takes hd
    rw [List.cons_append, LetLang.wordsOf_cons hblank, headWord,
      lexeme_of_spells h.spells htext hspace, ← htext, String.ofList_toList, wordsOf_space]

/-- Words with a blank behind each are scanned back. -/
theorem wordsOf_spacedText {ws : List Word} (h : ∀ w ∈ ws, w.Proper) :
    wordsOf (spacedText ws).toList = ws := by
  induction ws with
  | nil => exact wordsOf_nil
  | cons w ws ih =>
    have htext : (spacedText (w :: ws)).toList =
        w.text.toList ++ ' ' :: (spacedText ws).toList := by
      simp [spacedText]
    obtain ⟨hw, hws⟩ := List.forall_mem_cons.1 h
    rw [htext, hw.wordsOf_cons, ih hws]

/-! ## The words of a source -/

section Source

variable {α : Type}

mutual

/-- The words of an expression, with every condition in parentheses. -/
def Expr.sourceWords : Expr α → List Word
  | .callable c => c.sourceWords
  | .int v => [⟨.integer, Numeral.text v⟩]
  | .bool b => [if b then ⟨.trueWord, "true"⟩ else ⟨.falseWord, "false"⟩]
  | .unary op e => parenthesizedWords (op.word :: e.sourceWords)
  | .binary op l r =>
      ⟨.leftParen, "("⟩ :: (l.sourceWords ++ op.word :: (r.sourceWords ++ [⟨.rightParen, ")"⟩]))
  | .ifThen c t =>
      ⟨.ifWord, "if"⟩ :: (parenthesizedWords c.sourceWords ++ bracedWords (stmtsSourceWords t))
  | .ifElse c t u =>
      ⟨.ifWord, "if"⟩ :: (parenthesizedWords c.sourceWords ++ (bracedWords (stmtsSourceWords t) ++
        ⟨.elseWord, "else"⟩ :: bracedWords (stmtsSourceWords u)))
  | .call f args => f.sourceWords ++ ⟨.leftParen, "("⟩ :: listedWords (exprsSourceWords args)

/-- The words of a callable expression. -/
def Callable.sourceWords : Callable α → List Word
  | .name x => [⟨.identifier, x⟩]
  | .func _ parameters body =>
      ⟨.functionWord, "fn"⟩ :: ⟨.leftParen, "("⟩ ::
        (listedWords (parameters.map fun x => [⟨.identifier, x⟩]) ++
          bracedWords (stmtsSourceWords body))

/-- The words of a statement. -/
def Stmt.sourceWords : Stmt α → List Word
  | .letDecl x e =>
      ⟨.letWord, "let"⟩ :: ⟨.identifier, x⟩ :: ⟨.assign, "="⟩ ::
        (e.sourceWords ++ [⟨.semicolon, ";"⟩])
  | .ret e => ⟨.returnWord, "return"⟩ :: (e.sourceWords ++ [⟨.semicolon, ";"⟩])
  | .expr e => e.sourceWords ++ [⟨.semicolon, ";"⟩]

/-- The words of each of several expressions. -/
def exprsSourceWords : List (Expr α) → List (List Word)
  | [] => []
  | e :: es => e.sourceWords :: exprsSourceWords es

/-- The words of several statements. -/
def stmtsSourceWords : List (Stmt α) → List Word
  | [] => []
  | s :: ss => s.sourceWords ++ stmtsSourceWords ss

end

/-- A source of a program. -/
def sourceText (p : Program α) : String := spacedText (stmtsSourceWords p)

end Source

/-! ## The words of a well-formed tree can be scanned back -/

/-- All the words are words of the language. -/
def AllProper (ws : List Word) : Prop := ∀ w ∈ ws, w.Proper

section AllProper

variable {α : Type} {w : Word} {ws ws' : List Word} {wss : List (List Word)}

/-- A fixed spelling is a word of its kind. -/
theorem proper_of_spelling? {kind : TokenKind} {text : String} (h : kind.spelling? = some text) :
    Word.Proper ⟨kind, text⟩ where
  spells := .fixed h
  legal := by
    rintro rfl
    cases h

/-- A name is an identifier. -/
theorem proper_name {x : String} (h : IsName x) : Word.Proper ⟨.identifier, x⟩ :=
  ⟨isName_iff_spells.1 h, TokenKind.noConfusion⟩

/-- A numeral is a run of digits. -/
theorem proper_numeral {v : Int64} (h : 0 ≤ v.toInt) :
    Word.Proper ⟨.integer, Numeral.text v⟩ := by
  obtain ⟨hne, hdigits⟩ := Numeral.digits_text h
  exact ⟨.integer (fun h => hne (String.toList_eq_nil_iff.2 h)) hdigits, TokenKind.noConfusion⟩

theorem UnaryOp.proper_word (op : UnaryOp) : op.word.Proper := by
  cases op <;> exact proper_of_spelling? rfl

theorem BinaryOp.proper_word (op : BinaryOp) : op.word.Proper := by
  cases op <;> exact proper_of_spelling? rfl

theorem allProper_nil : AllProper [] := List.forall_mem_nil _

theorem AllProper.cons (hw : w.Proper) (hws : AllProper ws) : AllProper (w :: ws) :=
  List.forall_mem_cons.2 ⟨hw, hws⟩

/-- Proper words stay proper one behind the other. -/
theorem AllProper.append (hws : AllProper ws) (hws' : AllProper ws') : AllProper (ws ++ ws') :=
  List.forall_mem_append.2 ⟨hws, hws'⟩

/-- A fixed word at the end. -/
theorem AllProper.before {kind : TokenKind} {text : String} (hws : AllProper ws)
    (h : kind.spelling? = some text) : AllProper (ws ++ [⟨kind, text⟩]) :=
  hws.append (allProper_nil.cons (proper_of_spelling? h))

theorem AllProper.parenthesized (h : AllProper ws) : AllProper (parenthesizedWords ws) :=
  .cons (proper_of_spelling? rfl) (h.before rfl)

theorem AllProper.braced (h : AllProper ws) : AllProper (bracedWords ws) :=
  .cons (proper_of_spelling? rfl) (h.before rfl)

/-- Commas and parentheses are words of the language. -/
theorem allProper_listedWords (h : ∀ ws ∈ wss, AllProper ws) : AllProper (listedWords wss) := by
  have hmore : ∀ wss : List (List Word), (∀ ws ∈ wss, AllProper ws) →
      AllProper (moreListedWords wss) := by
    intro wss hwss
    induction wss with
    | nil => exact .cons (proper_of_spelling? rfl) allProper_nil
    | cons ws wss ih =>
      obtain ⟨hws, hrest⟩ := List.forall_mem_cons.1 hwss
      exact .cons (proper_of_spelling? rfl) (hws.append (ih hrest))
  cases wss with
  | nil => exact .cons (proper_of_spelling? rfl) allProper_nil
  | cons ws wss =>
    obtain ⟨hws, hrest⟩ := List.forall_mem_cons.1 h
    exact hws.append (hmore wss hrest)

mutual

/-- The words of a source are words of the language, by induction on the tree. -/
theorem Expr.allProper : ∀ e : Expr α, e.WellFormed → AllProper e.sourceWords
  | .callable c, h => c.allProper h
  | .int _, h => .cons (proper_numeral h) allProper_nil
  | .bool true, _ => .cons (proper_of_spelling? rfl) allProper_nil
  | .bool false, _ => .cons (proper_of_spelling? rfl) allProper_nil
  | .unary op e, h => (AllProper.cons op.proper_word (e.allProper h)).parenthesized
  | .binary op l r, ⟨hl, hr⟩ =>
    .cons (proper_of_spelling? rfl)
      ((l.allProper hl).append (.cons op.proper_word ((r.allProper hr).before rfl)))
  | .ifThen c t, ⟨hc, ht⟩ =>
    .cons (proper_of_spelling? rfl)
      ((c.allProper hc).parenthesized.append (stmts_allProper t ht).braced)
  | .ifElse c t u, ⟨hc, ht, hu⟩ =>
    .cons (proper_of_spelling? rfl)
      ((c.allProper hc).parenthesized.append ((stmts_allProper t ht).braced.append
        (.cons (proper_of_spelling? rfl) (stmts_allProper u hu).braced)))
  | .call f args, ⟨hf, hargs⟩ =>
    (f.allProper hf).append (.cons (proper_of_spelling? rfl)
      (allProper_listedWords (exprs_allProper args hargs)))

theorem Callable.allProper : ∀ c : Callable α, c.WellFormed → AllProper c.sourceWords
  | .name _, h => .cons (proper_name h) allProper_nil
  | .func _ xs body, ⟨hxs, hbody⟩ => by
    have hnames : ∀ ws ∈ xs.map fun x => [(⟨.identifier, x⟩ : Word)], AllProper ws := by
      intro ws hws
      obtain ⟨x, hx, rfl⟩ := List.mem_map.1 hws
      exact .cons (proper_name (hxs x hx)) allProper_nil
    exact .cons (proper_of_spelling? rfl) (.cons (proper_of_spelling? rfl)
      ((allProper_listedWords hnames).append (stmts_allProper body hbody).braced))

theorem Stmt.allProper : ∀ s : Stmt α, s.WellFormed → AllProper s.sourceWords
  | .letDecl _ e, ⟨hx, he⟩ =>
    .cons (proper_of_spelling? rfl) (.cons (proper_name hx)
      (.cons (proper_of_spelling? rfl) ((e.allProper he).before rfl)))
  | .ret e, h => .cons (proper_of_spelling? rfl) ((Expr.allProper e h).before rfl)
  | .expr e, h => (Expr.allProper e h).before rfl

theorem exprs_allProper : ∀ es : List (Expr α), ExprsWellFormed es →
    ∀ ws ∈ exprsSourceWords es, AllProper ws
  | [], _ => List.forall_mem_nil _
  | e :: es, ⟨he, hes⟩ => List.forall_mem_cons.2 ⟨e.allProper he, exprs_allProper es hes⟩

theorem stmts_allProper : ∀ ss : List (Stmt α), StmtsWellFormed ss →
    AllProper (stmtsSourceWords ss)
  | [], _ => allProper_nil
  | s :: ss, ⟨hs, hss⟩ => (s.allProper hs).append (stmts_allProper ss hss)

end

end AllProper

/-! ## The words of a well-formed tree are derived as that tree -/

mutual

/-- With every condition in parentheses, the words of an expression are derived as that expression.
-/
theorem Expr.source_derives : ∀ e : Expr Unit, e.WellFormed → Phrase e.sourceWords e
  | .callable c, h => (c.source_derives h).phrase
  | .int _, h => phrase_int h
  | .bool b, _ => phrase_bool b
  | .unary op e, h => (Expr.source_derives e h).unary op
  | .binary op l r, ⟨hl, hr⟩ => (l.source_derives hl).binary op (r.source_derives hr)
  | .ifThen c t, ⟨hc, ht⟩ => (c.source_derives hc).tested.ifThen (stmts_source_derive t ht)
  | .ifElse c t u, ⟨hc, ht, hu⟩ =>
    (c.source_derives hc).tested.ifElse (stmts_source_derive t ht) (stmts_source_derive u hu)
  | .call f args, ⟨hf, hargs⟩ => (f.source_derives hf).call (exprs_source_derive args hargs)

/-- The body of a function literal is derived between its braces. -/
theorem Callable.source_derives : ∀ c : Callable Unit, c.WellFormed → Callee c.sourceWords c
  | .name x, _ => callee_name x
  | .func _ _ body, ⟨_, hbody⟩ => callee_func (stmts_source_derive body hbody)

theorem exprs_source_derive : ∀ es : List (Expr Unit), ExprsWellFormed es →
    List.Forall₂ Phrase (exprsSourceWords es) es
  | [], _ => .nil
  | e :: es, ⟨he, hes⟩ => .cons (e.source_derives he) (exprs_source_derive es hes)

/-- Every statement ends with a semicolon, and is derived up to it. -/
theorem Stmt.source_derives : ∀ s : Stmt Unit, s.WellFormed → Line s.sourceWords s
  | .letDecl x e, ⟨_, he⟩ => (e.source_derives he).letDecl x
  | .ret e, h => (Expr.source_derives e h).ret
  | .expr e, h => (Expr.source_derives e h).expr

/-- Statements are derived one after the other. -/
theorem stmts_source_derive : ∀ ss : List (Stmt Unit), StmtsWellFormed ss →
    Lines (stmtsSourceWords ss) ss
  | [], _ => lines_nil
  | s :: ss, ⟨hs, hss⟩ => (s.source_derives hs).cons (stmts_source_derive ss hss)

end

/-- A well-formed program is read from its source. -/
theorem parse_sourceText {p : Program Unit} (h : StmtsWellFormed p) :
    parse? (sourceText p) = .ok p := by
  rw [parse?_eq_ok, parse_eq_iff_derives, map_word_scan, sourceText,
    wordsOf_spacedText (stmts_allProper p h)]
  have hderives := stmts_source_derive p h []
  rwa [List.append_nil] at hderives

/-- The condition has parentheses of its own, whatever it is. -/
example : sourceText ([.ret (.ifThen (.callable (.name "x")) [.expr (.int 1)])] : Program Unit) =
    "return if ( x ) \x7b 1 ; \x7d ; " := by
  decide +kernel

/-! ## What the parser can return -/

/-- The well-formed programs are those that the parser can return. Of a source with errors, too, it
makes a well-formed program, and what its errors carry is well-formed. -/
theorem wellFormed_iff_parsed :
    (∀ source : String, StmtsWellFormed (parse source).program ∧
      ∀ (callee : Expr Unit) (start : Nat),
        ParseError.invalidCallee callee start ∈ (parse source).errors → callee.WellFormed) ∧
    ∀ p : Program Unit, StmtsWellFormed p ↔ ∃ source : String, parse? source = .ok p := by
  refine ⟨fun source => ?_, fun p => ⟨fun h => ⟨sourceText p, parse_sourceText h⟩, ?_⟩⟩
  · obtain ⟨hprogram, herrors⟩ := parse_wellFormed source
    exact ⟨hprogram, fun callee start hmem => herrors _ hmem⟩
  · rintro ⟨source, hsource⟩
    obtain ⟨-, rfl⟩ := parse?_eq_ok.1 hsource
    exact (parse_wellFormed source).1

/-- The result of a call cannot be called, and the error carries that call. A condition that is no
operation is read from some source. -/
theorem wellFormed_iff_parsed_call :
    (parse "f(2)(3); let x = 4;").program = [.letDecl "x" (.int 4)] ∧
    StmtsWellFormed (parse "f(2)(3); let x = 4;").program ∧
    (Expr.call (.name "f") [.int 2] : Expr Unit).WellFormed ∧
    ∃ source, parse? source = .ok [.expr (.ifThen (.bool true) [.expr (.bool false)])] := by
  have hcarried : ParseError.invalidCallee (.call (.name "f") [.int 2]) 4 ∈
      (parse "f(2)(3); let x = 4;").errors := by
    cbv
    exact List.mem_cons_self
  have hbools : StmtsWellFormed
      ([.expr (.ifThen (.bool true) [.expr (.bool false)])] : Program Unit) :=
    ⟨⟨trivial, trivial, trivial⟩, trivial⟩
  obtain ⟨hprogram, hcallees⟩ := wellFormed_iff_parsed.1 "f(2)(3); let x = 4;"
  exact ⟨by cbv, hprogram, hcallees _ _ hcarried, (wellFormed_iff_parsed.2 _).1 hbools⟩

end LetLang
