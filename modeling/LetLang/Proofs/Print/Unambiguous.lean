import LetLang.Proofs.Print.Phrases

/-!
# Canonical texts are unambiguous

Two programs that a source can hold have one canonical text only if they are one program
(`programText_eq_iff`), whatever their conditions are. The parser does not read every canonical text
back, so it cannot serve as the inverse. Instead the words of a tree are shown to tell in any longer
run of words which tree they write and where they end (`Unambiguous`): the first word leaves few
kinds of trees, the parts are told apart in turn, and the word behind the last part decides between
a name and a call of it, or whether a conditional has an alternative.
-/

set_option autoImplicit false

namespace LetLang

/-! ## The first word of a tree -/

/-- The kind of the first word of a callable expression. -/
def Callable.firstKind : Callable Unit → TokenKind
  | .name _ => .identifier
  | .func _ _ _ => .functionWord

/-- The kind of the first word of an expression that has no sign before an integer. -/
def Expr.firstKind : Expr Unit → TokenKind
  | .callable c => c.firstKind
  | .int _ => .integer
  | .bool true => .trueWord
  | .bool false => .falseWord
  | .unary _ _ => .leftParen
  | .binary _ _ _ => .leftParen
  | .ifThen _ _ => .ifWord
  | .ifElse _ _ _ => .ifWord
  | .call f _ => f.firstKind

section First

variable {e : Expr Unit} {ws rest : List Word}

theorem Callable.firstKind_eq {c : Callable Unit} (heq : ws = c.words ++ rest) :
    c.firstKind = nextKind ws := by
  subst heq
  cases c <;> rfl

theorem Numeral.words_of_nonneg {v : Int64} (h : 0 ≤ v.toInt) :
    Numeral.words v = [⟨.integer, Numeral.text v⟩] :=
  if_neg (Int.not_lt.2 h)

/-- The first word of the words of an expression is of the first kind of the expression. -/
theorem Expr.firstKind_eq (he : e.WellFormed) (heq : ws = e.words ++ rest) :
    e.firstKind = nextKind ws := by
  cases e with
  | callable c => exact Callable.firstKind_eq heq
  | call f args =>
    rw [Expr.words, List.append_assoc] at heq
    exact Callable.firstKind_eq heq
  | int v =>
    rw [heq, Expr.words, Numeral.words_of_nonneg he]
    rfl
  | bool b =>
    subst heq
    cases b <;> rfl
  | _ =>
    subst heq
    rfl

/-! A kind of first words leaves one or two kinds of expressions. -/

theorem Expr.of_firstKind_integer (h : e.firstKind = .integer) : ∃ v, e = .int v := by
  cases e with
  | int v => exact ⟨v, rfl⟩
  | callable c | call c => cases c <;> cases h
  | bool b => cases b <;> cases h
  | _ => cases h

theorem Expr.of_firstKind_bool {b : Bool} (h : e.firstKind = (Expr.bool b).firstKind) :
    e = .bool b := by
  cases e with
  | bool b' => cases b <;> cases b' <;> first | rfl | cases h
  | callable c | call c => cases b <;> cases c <;> cases h
  | _ => cases b <;> cases h

/-- An expression that starts with a parenthesis is an operation. -/
theorem Expr.of_firstKind_leftParen (h : e.firstKind = .leftParen) :
    (∃ op x, e = .unary op x) ∨ ∃ op l r, e = .binary op l r := by
  cases e with
  | unary op x => exact .inl ⟨op, x, rfl⟩
  | binary op l r => exact .inr ⟨op, l, r, rfl⟩
  | callable c | call c => cases c <;> cases h
  | bool b => cases b <;> cases h
  | _ => cases h

/-- An expression that starts with `if` is a conditional, with or without an alternative. -/
theorem Expr.of_firstKind_ifWord (h : e.firstKind = .ifWord) :
    (∃ c t, e = .ifThen c t) ∨ ∃ c t u, e = .ifElse c t u := by
  cases e with
  | ifThen c t => exact .inl ⟨c, t, rfl⟩
  | ifElse c t u => exact .inr ⟨c, t, u, rfl⟩
  | callable c | call c => cases c <;> cases h
  | bool b => cases b <;> cases h
  | _ => cases h

/-- What starts like a callable expression is one, or a call of one. -/
theorem Expr.of_firstKind_callable {c : Callable Unit} (h : e.firstKind = c.firstKind) :
    (∃ f, e = .callable f) ∨ ∃ f args, e = .call f args := by
  cases e with
  | callable f => exact .inl ⟨f, rfl⟩
  | call f args => exact .inr ⟨f, args, rfl⟩
  | bool b => cases b <;> cases c <;> cases h
  | _ => cases c <;> cases h

/-- Kinds of words that start no expression without signs. -/
def neverFirst : List TokenKind :=
  [.bang, .minus, .rightParen, .letWord, .returnWord, .rightBrace, .eof]

theorem Expr.nextKind_not_mem (he : e.WellFormed) (heq : ws = e.words ++ rest) :
    nextKind ws ∉ neverFirst := by
  rw [← Expr.firstKind_eq he heq]
  cases e with
  | callable c | call c => cases c <;> simp [Expr.firstKind, Callable.firstKind, neverFirst]
  | bool b => cases b <;> simp [Expr.firstKind, neverFirst]
  | _ => simp [Expr.firstKind, neverFirst]

/-- The words of an expression do not start with a word that starts none. -/
theorem Expr.cons_ne_words {w : Word} (hw : w.kind ∈ neverFirst) (he : e.WellFormed)
    (ws rest : List Word) : w :: ws ≠ e.words ++ rest :=
  fun heq => Expr.nextKind_not_mem he heq hw

/-- What may stand behind the statements of a block or a program. -/
def EndsBlock (rest : List Word) : Prop := nextKind rest ∈ [TokenKind.rightBrace, .eof]

theorem not_endsBlock_of_stmt {s : Stmt Unit} (hs : s.WellFormed) (heq : ws = s.words ++ rest) :
    ¬ EndsBlock ws := by
  cases s with
  | letDecl x e => simp [heq, EndsBlock, Stmt.words]
  | ret e => simp [heq, EndsBlock, Stmt.words]
  | expr e =>
    rw [Stmt.words, List.append_assoc] at heq
    have hkinds : ∀ kind ∈ [TokenKind.rightBrace, .eof], kind ∈ neverFirst := by simp [neverFirst]
    exact fun hends => Expr.nextKind_not_mem hs heq (hkinds _ hends)

end First

/-! ## Words that tell what they write -/

/-- In a longer run of words, the words of `b` show what they write and where they end: if the same
run starts with the words of a good item, and what stands behind either of them is one of `Ends`,
then the item is `b`, and ends where `b` does. -/
def Unambiguous {β : Type} (words : β → List Word) (Good : β → Prop) (Ends : List Word → Prop)
    (b : β) : Prop :=
  ∀ b' rest rest', Good b' → Ends rest → Ends rest' → words b ++ rest = words b' ++ rest' →
    b = b' ∧ rest = rest'

/-- Behind an expression there must be no call of it and no alternative. -/
abbrev Expr.Readable (e : Expr Unit) : Prop := Unambiguous Expr.words Expr.WellFormed Follows e

abbrev Callable.Readable (c : Callable Unit) : Prop :=
  Unambiguous Callable.words Callable.WellFormed (fun _ => True) c

abbrev Stmt.Readable (s : Stmt Unit) : Prop :=
  Unambiguous Stmt.words Stmt.WellFormed (fun _ => True) s

/-- Behind the statements of a block there must be no further statement. -/
abbrev StmtsReadable (ss : List (Stmt Unit)) : Prop :=
  Unambiguous stmtsWords StmtsWellFormed EndsBlock ss

section Parts

/-- Between braces it does not matter what follows. -/
theorem StmtsReadable.braced {ss : List (Stmt Unit)} (h : StmtsReadable ss) :
    Unambiguous (fun ss => bracedWords (stmtsWords ss)) StmtsWellFormed (fun _ => True) ss := by
  intro ss' rest rest' hss' _ _ heq
  simp only [bracedWords, List.cons_append, List.append_assoc, List.nil_append, List.cons.injEq,
    true_and] at heq
  obtain ⟨rfl, hrest⟩ := h ss' _ _ hss' List.mem_cons_self List.mem_cons_self heq
  exact ⟨rfl, (List.cons.inj hrest).2⟩

section Lists

variable {β : Type} {words : β → List Word} {Good : β → Prop}

/-- The comma or the parenthesis behind each item tells whether another one follows. -/
theorem unambiguous_moreListedWords {xs : List β} (h : ∀ x ∈ xs, Unambiguous words Good Follows x) :
    Unambiguous (fun xs => moreListedWords (xs.map words)) (fun xs => ∀ x ∈ xs, Good x)
      (fun _ => True) xs := by
  intro xs'
  -- Each item is followed by a comma or the parenthesis, so the lists are read in step.
  induction xs generalizing xs' with
  | nil =>
    intro rest rest' _ _ _ heq
    cases xs' with
    | nil => exact ⟨rfl, (List.cons.inj heq).2⟩
    | cons x' xs' => simp [moreListedWords] at heq
  | cons x xs ih =>
    intro rest rest' hxs' _ _ heq
    rw [List.forall_mem_cons] at h
    cases xs' with
    | nil => simp [moreListedWords] at heq
    | cons x' xs' =>
      rw [List.forall_mem_cons] at hxs'
      simp only [List.map_cons, moreListedWords, List.cons_append, List.append_assoc,
        List.cons.injEq, true_and] at heq
      obtain ⟨rfl, hmore⟩ := h.1 x' _ _ hxs'.1 (follows_of_closing closing_moreListedWords)
        (follows_of_closing closing_moreListedWords) heq
      obtain ⟨rfl, hrest⟩ := ih h.2 xs' rest rest' hxs'.2 trivial trivial hmore
      exact ⟨rfl, hrest⟩

/-- No item starts with the parenthesis that closes the list. -/
theorem unambiguous_listedWords {xs : List β} (hxs : ∀ x ∈ xs, Good x)
    (hfirst : ∀ x ws rest, Good x → ⟨.rightParen, ")"⟩ :: ws ≠ words x ++ rest)
    (h : ∀ x ∈ xs, Unambiguous words Good Follows x) :
    Unambiguous (fun xs => listedWords (xs.map words)) (fun xs => ∀ x ∈ xs, Good x)
      (fun _ => True) xs := by
  intro xs' rest rest' hxs' _ _ heq
  cases xs with
  | nil =>
    cases xs' with
    | nil => exact ⟨rfl, (List.cons.inj heq).2⟩
    | cons x' xs' =>
      simp only [List.map_cons, listedWords, List.append_assoc] at heq
      exact absurd heq (hfirst x' _ _ (hxs' x' List.mem_cons_self))
  | cons x xs =>
    rw [List.forall_mem_cons] at hxs h
    cases xs' with
    | nil =>
      simp only [List.map_cons, listedWords, List.append_assoc] at heq
      exact absurd heq.symm (hfirst x _ _ hxs.1)
    | cons x' xs' =>
      rw [List.forall_mem_cons] at hxs'
      simp only [List.map_cons, listedWords, List.append_assoc] at heq
      obtain ⟨rfl, hmore⟩ := h.1 x' _ _ hxs'.1 (follows_of_closing closing_moreListedWords)
        (follows_of_closing closing_moreListedWords) heq
      obtain ⟨rfl, hrest⟩ :=
        unambiguous_moreListedWords h.2 xs' rest rest' hxs'.2 trivial trivial hmore
      exact ⟨rfl, hrest⟩

end Lists

theorem exprsWellFormed_iff {α : Type} {es : List (Expr α)} :
    ExprsWellFormed es ↔ ∀ e ∈ es, e.WellFormed := by
  induction es with
  | nil => simp [ExprsWellFormed]
  | cons e es ih => simp [ExprsWellFormed, ih]

theorem exprsWords_eq_map {α : Type} (es : List (Expr α)) : exprsWords es = es.map Expr.words := by
  induction es with
  | nil => rfl
  | cons e es ih => simp [exprsWords, ih]

/-- Arguments are listed, and no argument starts with a closing parenthesis. -/
theorem unambiguous_arguments {args : List (Expr Unit)} (hargs : ∀ e ∈ args, e.WellFormed)
    (h : ∀ e ∈ args, e.Readable) :
    Unambiguous (fun args => listedWords (exprsWords args)) ExprsWellFormed (fun _ => True)
      args := by
  intro args' rest rest' hargs' _ _ heq
  simp only [exprsWords_eq_map] at heq
  exact unambiguous_listedWords hargs
    (fun e ws rest he => Expr.cons_ne_words (by decide) he ws rest) h args' rest rest'
    (exprsWellFormed_iff.1 hargs') trivial trivial heq

/-- Parameters are listed, each as one word. -/
theorem unambiguous_parameters (xs : List String) :
    Unambiguous (fun xs : List String => listedWords (xs.map fun x => [⟨.identifier, x⟩]))
      (fun _ => True) (fun _ => True) xs := by
  intro xs' rest rest' _ _ _ heq
  have hname : ∀ x ∈ xs, Unambiguous (fun x => [⟨.identifier, x⟩]) (fun _ => True) Follows x := by
    intro x _ x' rest rest' _ _ _ heq
    simpa using heq
  exact unambiguous_listedWords (fun _ _ => trivial) (fun x ws rest _ => by simp) hname xs'
    rest rest' (fun _ _ => trivial) trivial trivial heq

end Parts

/-! ## Callable expressions -/

section Callable

/-- A name is one word, and the word behind it tells that it is not called. -/
theorem readable_name (x : String) : (Callable.name x).Readable := by
  intro c rest rest' _ _ _ heq
  cases c with
  | name y => simpa [Callable.words] using heq
  | func l xs body => simp [Callable.words] at heq

/-- A function literal is told by its parameters and its body. -/
theorem readable_func {xs : List String} {body : List (Stmt Unit)} (h : StmtsReadable body) :
    (Callable.func () xs body).Readable := by
  intro c rest rest' hc _ _ heq
  cases c with
  | name y => simp [Callable.words] at heq
  | func l xs' body' =>
    simp only [Callable.words, List.cons_append, List.append_assoc, List.cons.injEq,
      true_and] at heq
    obtain ⟨rfl, hbody⟩ := unambiguous_parameters xs xs' _ _ trivial trivial trivial heq
    obtain ⟨rfl, hrest⟩ := h.braced body' rest rest' hc.2 trivial trivial hbody
    exact ⟨rfl, hrest⟩

/-- The words of a call of `f`, and what is behind them. -/
theorem call_words_append (f : Callable Unit) (args : List (Expr Unit)) (rest : List Word) :
    (Expr.call f args).words ++ rest =
      f.words ++ ⟨.leftParen, "("⟩ :: (listedWords (exprsWords args) ++ rest) := by
  simp [Expr.words]

theorem not_follows_leftParen {rest : List Word} : ¬ Follows (⟨.leftParen, "("⟩ :: rest) :=
  fun h => h.leftParen rfl

/-- What stands behind a callable expression tells whether it is called. -/
theorem Callable.Readable.callable {c : Callable Unit} (h : c.Readable) :
    (Expr.callable c).Readable := by
  intro e rest rest' he hends _ heq
  rw [Expr.words] at heq
  have hkind := Expr.firstKind_eq he heq
  rw [← Callable.firstKind_eq rfl] at hkind
  obtain ⟨f, rfl⟩ | ⟨f, args, rfl⟩ := Expr.of_firstKind_callable hkind
  · obtain ⟨rfl, hrest⟩ := h f rest rest' he trivial trivial heq
    exact ⟨rfl, hrest⟩
  · rw [call_words_append] at heq
    obtain ⟨-, hrest⟩ := h f _ _ he.1 trivial trivial heq
    exact absurd (hrest ▸ hends) not_follows_leftParen

/-- A call is told by its callee, the parenthesis behind that, and its arguments. -/
theorem Callable.Readable.call {f : Callable Unit} {args : List (Expr Unit)} (h : f.Readable)
    (hwf : ∀ e ∈ args, e.WellFormed) (hargs : ∀ e ∈ args, e.Readable) :
    (Expr.call f args).Readable := by
  intro e rest rest' he _ hends' heq
  rw [call_words_append] at heq
  have hkind := Expr.firstKind_eq he heq
  rw [← Callable.firstKind_eq rfl] at hkind
  obtain ⟨g, rfl⟩ | ⟨g, args', rfl⟩ := Expr.of_firstKind_callable hkind
  · obtain ⟨-, hrest⟩ := h g _ _ he trivial trivial heq
    exact absurd (hrest ▸ hends') not_follows_leftParen
  · rw [call_words_append] at heq
    obtain ⟨rfl, hlist⟩ := h g _ _ he.1 trivial trivial heq
    obtain ⟨rfl, hrest⟩ := unambiguous_arguments hwf hargs args' rest rest' he.2 trivial trivial
      (List.cons.inj hlist).2
    exact ⟨rfl, hrest⟩

end Callable

/-! ## Expressions -/

section Expressions

variable {c e l r : Expr Unit} {t u : List (Stmt Unit)}

theorem readable_int {v : Int64} (hv : 0 ≤ v.toInt) : (Expr.int v).Readable := by
  intro e rest rest' he _ _ heq
  rw [Expr.words, Numeral.words_of_nonneg hv] at heq
  obtain ⟨w, rfl⟩ := Expr.of_firstKind_integer (Expr.firstKind_eq he heq)
  have hw : 0 ≤ w.toInt := he
  rw [Expr.words, Numeral.words_of_nonneg hw] at heq
  simp only [List.cons_append, List.nil_append, List.cons.injEq, Word.mk.injEq, true_and] at heq
  obtain ⟨htext, hrest⟩ := heq
  -- Both integers are what their one numeral says.
  have hnat : v.toInt.toNat = w.toInt.toNat := by
    rw [← Numeral.decimal_text hv, ← Numeral.decimal_text hw, htext]
  have hvalue : v = w := Int64.toInt_inj.1 (by omega)
  exact ⟨congrArg Expr.int hvalue, hrest⟩

theorem readable_bool (b : Bool) : (Expr.bool b).Readable := by
  intro e rest rest' he _ _ heq
  have hkind := Expr.firstKind_eq he heq
  rw [← Expr.firstKind_eq (e := .bool b) trivial rfl] at hkind
  obtain rfl := Expr.of_firstKind_bool hkind
  exact ⟨rfl, List.append_cancel_left heq⟩

/-- Operators before an operand have different words. -/
theorem UnaryOp.word_injective {op op' : UnaryOp} (h : op.word = op'.word) : op = op' := by
  cases op <;> cases op' <;> first | rfl | cases h

/-- Operators between operands have different words. -/
theorem BinaryOp.word_injective {op op' : BinaryOp} (h : op.word = op'.word) : op = op' := by
  cases op <;> cases op' <;> first | rfl | cases h

theorem unary_words_append (op : UnaryOp) (e : Expr Unit) (rest : List Word) :
    (Expr.unary op e).words ++ rest =
      ⟨.leftParen, "("⟩ :: op.word :: (e.words ++ ⟨.rightParen, ")"⟩ :: rest) := by
  simp [Expr.words]

theorem binary_words_append (op : BinaryOp) (l r : Expr Unit) (rest : List Word) :
    (Expr.binary op l r).words ++ rest =
      ⟨.leftParen, "("⟩ :: (l.words ++ op.word :: (r.words ++ ⟨.rightParen, ")"⟩ :: rest)) := by
  simp [Expr.words]

theorem follows_rightParen {rest : List Word} : Follows (⟨.rightParen, ")"⟩ :: rest) :=
  follows_of_closing (closing_cons (by decide))

/-- No operand starts with an operator, so a parenthesis before one opens a unary operation. -/
theorem UnaryOp.kind_word_mem (op : UnaryOp) : op.word.kind ∈ neverFirst := by
  cases op <;> simp [UnaryOp.word, neverFirst]

/-- An operation in parentheses starts with its operator, which starts no expression. -/
theorem Expr.Readable.unary (op : UnaryOp) (h : e.Readable) : (Expr.unary op e).Readable := by
  intro e' rest rest' he' _ _ heq
  rw [unary_words_append] at heq
  obtain ⟨op', x, rfl⟩ | ⟨op', l, r, rfl⟩ := Expr.of_firstKind_leftParen (Expr.firstKind_eq he' heq)
  · rw [unary_words_append, List.cons.injEq, List.cons.injEq] at heq
    obtain ⟨-, hop, heq⟩ := heq
    obtain ⟨rfl, hrest⟩ := h x _ _ he' follows_rightParen follows_rightParen heq
    rw [UnaryOp.word_injective hop]
    exact ⟨rfl, (List.cons.inj hrest).2⟩
  · rw [binary_words_append] at heq
    exact absurd (List.cons.inj heq).2 (Expr.cons_ne_words op.kind_word_mem he'.1 _ _)

/-- Of an operation in parentheses the left operand is told first, and the operator behind it. -/
theorem Expr.Readable.binary (op : BinaryOp) (hwf : l.WellFormed) (hl : l.Readable)
    (hr : r.Readable) : (Expr.binary op l r).Readable := by
  intro e rest rest' he _ _ heq
  rw [binary_words_append] at heq
  obtain ⟨op', x, rfl⟩ | ⟨op', l', r', rfl⟩ :=
    Expr.of_firstKind_leftParen (Expr.firstKind_eq he heq)
  · rw [unary_words_append] at heq
    exact absurd (List.cons.inj heq).2.symm (Expr.cons_ne_words op'.kind_word_mem hwf _ _)
  · rw [binary_words_append, List.cons.injEq] at heq
    obtain ⟨rfl, hright⟩ := hl l' _ _ he.1 (follows_word op) (follows_word op') heq.2
    rw [List.cons.injEq] at hright
    obtain ⟨rfl, hrest⟩ := hr r' _ _ he.2 follows_rightParen follows_rightParen hright.2
    rw [BinaryOp.word_injective hright.1]
    exact ⟨rfl, (List.cons.inj hrest).2⟩

theorem ifThen_words_append (c : Expr Unit) (t : List (Stmt Unit)) (rest : List Word) :
    (Expr.ifThen c t).words ++ rest =
      ⟨.ifWord, "if"⟩ :: (c.words ++ (bracedWords (stmtsWords t) ++ rest)) := by
  simp [Expr.words]

theorem ifElse_words_append (c : Expr Unit) (t u : List (Stmt Unit)) (rest : List Word) :
    (Expr.ifElse c t u).words ++ rest =
      ⟨.ifWord, "if"⟩ :: (c.words ++ (bracedWords (stmtsWords t) ++
        ⟨.elseWord, "else"⟩ :: (bracedWords (stmtsWords u) ++ rest))) := by
  simp [Expr.words]

/-- An `else` does not stand behind an expression, so it belongs to a conditional. -/
theorem not_follows_elseWord {rest : List Word} : ¬ Follows (⟨.elseWord, "else"⟩ :: rest) :=
  fun h => h.elseWord rfl

/-- The condition ends where its block begins, so condition and block are told apart from what is
behind them, also when the condition ends in blocks of its own. -/
theorem Expr.Readable.conditional (hc : c.Readable) (ht : StmtsReadable t) {c' : Expr Unit}
    {t' : List (Stmt Unit)} {rest rest' : List Word} (hc' : c'.WellFormed)
    (ht' : StmtsWellFormed t')
    (heq : ⟨.ifWord, "if"⟩ :: (c.words ++ (bracedWords (stmtsWords t) ++ rest)) =
      ⟨.ifWord, "if"⟩ :: (c'.words ++ (bracedWords (stmtsWords t') ++ rest'))) :
    c = c' ∧ t = t' ∧ rest = rest' := by
  rw [List.cons.injEq] at heq
  obtain ⟨rfl, hblock⟩ := hc c' _ _ hc' follows_bracedWords follows_bracedWords heq.2
  obtain ⟨rfl, hrest⟩ := ht.braced t' _ _ ht' trivial trivial hblock
  exact ⟨rfl, rfl, hrest⟩

/-- What stands behind the block tells whether the conditional has an alternative. -/
theorem Expr.Readable.ifThen (hc : c.Readable) (ht : StmtsReadable t) :
    (Expr.ifThen c t).Readable := by
  intro e rest rest' he hends _ heq
  rw [ifThen_words_append] at heq
  obtain ⟨c', t', rfl⟩ | ⟨c', t', u', rfl⟩ := Expr.of_firstKind_ifWord (Expr.firstKind_eq he heq)
  · rw [ifThen_words_append] at heq
    obtain ⟨rfl, rfl, hrest⟩ := hc.conditional ht he.1 he.2 heq
    exact ⟨rfl, hrest⟩
  · rw [ifElse_words_append] at heq
    obtain ⟨-, -, hrest⟩ := hc.conditional ht he.1 he.2.1 heq
    exact absurd (hrest ▸ hends) not_follows_elseWord

/-- The `else` behind the first block shows that there is a second one. -/
theorem Expr.Readable.ifElse (hc : c.Readable) (ht : StmtsReadable t) (hu : StmtsReadable u) :
    (Expr.ifElse c t u).Readable := by
  intro e rest rest' he _ hends' heq
  rw [ifElse_words_append] at heq
  obtain ⟨c', t', rfl⟩ | ⟨c', t', u', rfl⟩ := Expr.of_firstKind_ifWord (Expr.firstKind_eq he heq)
  · rw [ifThen_words_append] at heq
    obtain ⟨-, -, hrest⟩ := hc.conditional ht he.1 he.2 heq
    exact absurd (hrest ▸ hends') not_follows_elseWord
  · rw [ifElse_words_append] at heq
    obtain ⟨rfl, rfl, halternative⟩ := hc.conditional ht he.1 he.2.1 heq
    obtain ⟨rfl, hrest⟩ :=
      hu.braced u' rest rest' he.2.2 trivial trivial (List.cons.inj halternative).2
    exact ⟨rfl, hrest⟩

end Expressions

/-! ## Statements -/

section Statements

variable {e : Expr Unit} {s : Stmt Unit} {ss : List (Stmt Unit)}

theorem follows_semicolon {rest : List Word} : Follows (⟨.semicolon, ";"⟩ :: rest) :=
  follows_of_closing (closing_cons (by decide))

/-- The semicolon ends the expression of a statement. -/
theorem Expr.Readable.semicolon (h : e.Readable) {e' : Expr Unit} {rest rest' : List Word}
    (he' : e'.WellFormed)
    (heq : e.words ++ ⟨.semicolon, ";"⟩ :: rest = e'.words ++ ⟨.semicolon, ";"⟩ :: rest') :
    e = e' ∧ rest = rest' := by
  obtain ⟨rfl, hrest⟩ := h e' _ _ he' follows_semicolon follows_semicolon heq
  exact ⟨rfl, (List.cons.inj hrest).2⟩

theorem Expr.Readable.letDecl (x : String) (h : e.Readable) : (Stmt.letDecl x e).Readable := by
  intro s rest rest' hs _ _ heq
  cases s with
  | letDecl y e' =>
    simp only [Stmt.words, List.cons_append, List.append_assoc, List.nil_append, List.cons.injEq,
      Word.mk.injEq, true_and] at heq
    obtain ⟨rfl, heq⟩ := heq
    obtain ⟨rfl, hrest⟩ := h.semicolon hs.2 heq
    exact ⟨rfl, hrest⟩
  | ret e' => simp [Stmt.words] at heq
  | expr e' =>
    rw [Stmt.words, Stmt.words, List.append_assoc] at heq
    exact absurd heq (Expr.cons_ne_words (by decide) hs _ _)

theorem Expr.Readable.ret (h : e.Readable) : (Stmt.ret e).Readable := by
  intro s rest rest' hs _ _ heq
  cases s with
  | letDecl y e' => simp [Stmt.words] at heq
  | ret e' =>
    simp only [Stmt.words, List.cons_append, List.append_assoc, List.nil_append, List.cons.injEq,
      true_and] at heq
    obtain ⟨rfl, hrest⟩ := h.semicolon hs heq
    exact ⟨rfl, hrest⟩
  | expr e' =>
    rw [Stmt.words, Stmt.words, List.append_assoc] at heq
    exact absurd heq (Expr.cons_ne_words (by decide) hs _ _)

theorem Expr.Readable.expr (hwf : e.WellFormed) (h : e.Readable) : (Stmt.expr e).Readable := by
  intro s rest rest' hs _ _ heq
  rw [Stmt.words, List.append_assoc] at heq
  cases s with
  | letDecl y e' => exact absurd heq.symm (Expr.cons_ne_words (by decide) hwf _ _)
  | ret e' => exact absurd heq.symm (Expr.cons_ne_words (by decide) hwf _ _)
  | expr e' =>
    rw [Stmt.words, List.append_assoc] at heq
    obtain ⟨rfl, hrest⟩ := h.semicolon hs heq
    exact ⟨rfl, hrest⟩

theorem stmtsReadable_nil : StmtsReadable [] := by
  intro ss rest rest' hss hends _ heq
  cases ss with
  | nil => exact ⟨rfl, heq⟩
  | cons s ss =>
    rw [stmtsWords, stmtsWords, List.append_assoc] at heq
    exact absurd hends (not_endsBlock_of_stmt hss.1 heq)

/-- A statement is told from the end of a block by its first word. -/
theorem Stmt.Readable.cons (hwf : s.WellFormed) (hs : s.Readable) (hss : StmtsReadable ss) :
    StmtsReadable (s :: ss) := by
  intro ss' rest rest' hss' hends hends' heq
  rw [stmtsWords, List.append_assoc] at heq
  cases ss' with
  | nil => exact absurd hends' (not_endsBlock_of_stmt hwf heq.symm)
  | cons s' ss' =>
    rw [stmtsWords, List.append_assoc] at heq
    obtain ⟨rfl, hmore⟩ := hs s' _ _ hss'.1 trivial trivial heq
    obtain ⟨rfl, hrest⟩ := hss ss' rest rest' hss'.2 hends hends' hmore
    exact ⟨rfl, hrest⟩

end Statements

/-! ## Trees -/

mutual

/-- Every expression that a source can hold is readable, by induction on the tree. -/
theorem Expr.readable : ∀ e : Expr Unit, e.WellFormed → e.Readable
  | .callable c, h => (c.readable h).callable
  | .int _, h => readable_int h
  | .bool b, _ => readable_bool b
  | .unary op e, h => (e.readable h).unary op
  | .binary op l r, ⟨hl, hr⟩ => (l.readable hl).binary op hl (r.readable hr)
  | .ifThen c t, ⟨hc, ht⟩ => (c.readable hc).ifThen (stmts_readable t ht)
  | .ifElse c t u, ⟨hc, ht, hu⟩ =>
    (c.readable hc).ifElse (stmts_readable t ht) (stmts_readable u hu)
  | .call f args, ⟨hf, hargs⟩ =>
    (f.readable hf).call (exprsWellFormed_iff.1 hargs) (exprs_readable args hargs)

theorem Callable.readable : ∀ c : Callable Unit, c.WellFormed → c.Readable
  | .name x, _ => readable_name x
  | .func () _ body, ⟨_, hbody⟩ => readable_func (stmts_readable body hbody)

theorem Stmt.readable : ∀ s : Stmt Unit, s.WellFormed → s.Readable
  | .letDecl x e, ⟨_, he⟩ => (e.readable he).letDecl x
  | .ret e, h => (e.readable h).ret
  | .expr e, h => (e.readable h).expr h

theorem exprs_readable : ∀ es : List (Expr Unit), ExprsWellFormed es → ∀ e ∈ es, e.Readable
  | [], _ => List.forall_mem_nil _
  | e :: es, ⟨he, hes⟩ => List.forall_mem_cons.2 ⟨e.readable he, exprs_readable es hes⟩

/-- So are its statements, of which the first one is told first. -/
theorem stmts_readable : ∀ ss : List (Stmt Unit), StmtsWellFormed ss → StmtsReadable ss
  | [], _ => stmtsReadable_nil
  | s :: ss, ⟨hs, hss⟩ => (s.readable hs).cons hs (stmts_readable ss hss)

end

/-- Two programs whose names are names of the language and whose integers have no sign have one
canonical text only if they are one program. -/
theorem programText_eq_iff {p q : Program Unit} (hp : StmtsWellFormed p) (hq : StmtsWellFormed q) :
    programText p = programText q ↔ p = q := by
  constructor
  · intro htext
    have hwords : stmtsWords p ++ [] = stmtsWords q ++ [] := by
      rw [List.append_nil, List.append_nil, ← wordsOf_programText (stmts_writable p hp), htext,
        wordsOf_programText (stmts_writable q hq)]
    have hend : EndsBlock [] := by simp [EndsBlock]
    exact (stmts_readable p hp q [] [] hq hend hend hwords).1
  · exact congrArg programText

/-- The statement `x;`. -/
def mention (x : String) : Stmt Unit := .expr (.callable (.name x))

/-- The program `if if a {b;} {c;} else {d;};`. -/
def innerWithout : Program Unit :=
  [.expr (.ifElse (.ifThen (.callable (.name "a")) [mention "b"]) [mention "c"] [mention "d"])]

/-- The program `if if a {b;} else {c;} {d;};`. -/
def innerWith : Program Unit :=
  [.expr (.ifThen (.ifElse (.callable (.name "a")) [mention "b"] [mention "c"]) [mention "d"])]

/-- A condition is a conditional itself, and one `else` stands behind the second block or behind the
first one. -/
theorem programText_eq_iff_nested : StmtsWellFormed innerWithout ∧ StmtsWellFormed innerWith ∧
    programText innerWithout ≠ programText innerWith := by
  have hname : ∀ x ∈ ["a", "b", "c", "d"], IsName x := by
    intro x hx
    simp only [List.mem_cons, List.not_mem_nil, or_false] at hx
    rcases hx with rfl | rfl | rfl | rfl <;> exact ⟨by decide, by decide, by decide⟩
  have hp : StmtsWellFormed innerWithout := by
    simp [innerWithout, mention, StmtsWellFormed, Stmt.WellFormed, Expr.WellFormed,
      Callable.WellFormed, hname]
  have hq : StmtsWellFormed innerWith := by
    simp [innerWith, mention, StmtsWellFormed, Stmt.WellFormed, Expr.WellFormed,
      Callable.WellFormed, hname]
  have hne : innerWithout ≠ innerWith := by simp [innerWithout, innerWith]
  exact ⟨hp, hq, fun htext => hne ((programText_eq_iff hp hq).1 htext)⟩

end LetLang
