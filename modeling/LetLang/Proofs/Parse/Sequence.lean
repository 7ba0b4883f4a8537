import LetLang.Proofs.Parse.Derivation

/-!
# Programs one after another

A phrase that ends before the end of the source stays the same phrase when more words follow, since
the grammar looks ahead by one word at most; at the end of the source it does so if the first of
these words is not what the grammar looks for (`Joins`). A program that ends with a semicolon ends
there whatever follows, because no expression takes a semicolon. So the words of two programs, of
which the first ends with a semicolon, are words of the program of all their statements
(`Statements.append`).
-/

set_option autoImplicit false

namespace LetLang.Grammar

/-! ## More words behind a phrase -/

section More

variable {rest more : List Word}

/-- The next word is the same if there is one. -/
theorem nextKind_append (h : rest ≠ []) : nextKind (rest ++ more) = nextKind rest := by
  cases rest with
  | nil => exact absurd rfl h
  | cons w ws => rfl

/-- More words can stand behind `rest`: if nothing is left there, the first of them is of no kind
that the grammar looks for behind a phrase. -/
def Joins (rest more : List Word) : Prop := rest = [] → nextKind more ∉ .elseWord :: continuing

theorem joins_of_ne_nil (h : rest ≠ []) : Joins rest more := fun hnil => absurd hnil h

theorem joins_cons {w : Word} : Joins (w :: rest) more := joins_of_ne_nil (List.cons_ne_nil _ _)

/-- Behind a phrase, the grammar does not find what it did not find before. -/
theorem Joins.nextKind_ne (h : Joins rest more) {kind : TokenKind}
    (hkind : kind ∈ .elseWord :: continuing) (hne : nextKind rest ≠ kind) :
    nextKind (rest ++ more) ≠ kind := by
  by_cases hrest : rest = []
  · intro heq
    have hmore := h hrest
    subst hrest
    exact hmore (heq ▸ hkind)
  · rwa [nextKind_append hrest]

theorem ne_nil_of_suffix {ws : List Word} (hrest : rest ≠ []) (h : rest <:+ ws) : ws ≠ [] := by
  rintro rfl
  exact hrest (List.suffix_nil.1 h)

/-- What is skipped up to a semicolon is skipped before more words. -/
theorem Skipped.append {ws : List Word} (h : Skipped ws rest) (hrest : rest ≠ []) :
    Skipped (ws ++ more) (rest ++ more) := by
  obtain ⟨junk, hjunk, ⟨w, hw, rfl⟩ | ⟨-, hnil⟩⟩ := h
  · exact ⟨junk, hjunk, .inl ⟨w, hw, by simp⟩⟩
  · exact absurd hnil hrest

/-- Semicolons are semicolons before more words, which may start with further ones. -/
theorem Semicolons.append {ws : List Word} (h : Semicolons ws rest) :
    Semicolons (ws ++ more) (rest ++ more) := by
  obtain ⟨run, hrun, rfl⟩ := h
  exact ⟨run, hrun, List.append_assoc _ _ _⟩

/-- The parenthesis that ends parameters ends them before more words. -/
theorem MoreParameters.append {ws : List Word} {xs : List String} (h : MoreParameters ws xs rest) :
    MoreParameters (ws ++ more) xs (rest ++ more) := by
  induction h with
  | close hc => exact .close hc
  | comma hc hx _ ih => exact .comma hc hx ih

theorem Parameters.append {ws : List Word} {xs : List String} (h : Parameters ws xs rest) :
    Parameters (ws ++ more) xs (rest ++ more) := by
  cases h with
  | none hc => exact .none hc
  | some hx hxs => exact .some hx hxs.append

theorem MoreArguments.ne_nil {ws : List Word} {es : List (Expr Unit)}
    (h : MoreArguments ws es rest) : ws ≠ [] := by
  cases h <;> exact List.cons_ne_nil _ _

end More

mutual

/-- By induction on the derivation: the word behind each part stays what it was. -/
theorem Tier.append : ∀ {k : Precedence} {ws rest more : List Word} {e : Expr Unit},
    Tier k ws e rest → Joins rest more → Tier k (ws ++ more) e (rest ++ more)
  | _, _, _, _, _, .tighter hlt h, hrest => .tighter hlt (h.append hrest)
  | _, _, _, _, _, .binary hop hlt hl hr, hrest =>
    .binary hop hlt (hl.append joins_cons) (hr.append hrest)
  | _, _, _, _, _, .unary hop h, hrest => .unary hop (h.append hrest)
  | _, _, _, _, _, .call hf ho hargs hnext, hrest =>
    .call (hf.append joins_cons) ho hargs.append (hrest.nextKind_ne (by decide) hnext)
  | _, _, _, _, _, .primary h, hrest => .primary (h.append hrest)

/-- Of all primaries only a conditional without an alternative looks at the word behind it. -/
theorem Primary.append : ∀ {ws rest more : List Word} {e : Expr Unit},
    Primary ws e rest → Joins rest more → Primary (ws ++ more) e (rest ++ more)
  | _, _, _, _, .name hx, _ => .name hx
  | _, _, _, _, .int hn hle, _ => .int hn hle
  | _, _, _, _, .true hb, _ => .true hb
  | _, _, _, _, .false hb, _ => .false hb
  | _, _, _, _, .group ho he hc, _ => .group ho (he.append joins_cons) hc
  | _, _, _, _, .ifThen hi ho he hc ht hnext, hrest =>
    .ifThen hi ho (he.append joins_cons) hc ht.append (hrest.nextKind_ne (by decide) hnext)
  | _, _, _, _, .ifElse hi ho he hc ht hl hu, _ =>
    .ifElse hi ho (he.append joins_cons) hc ht.append hl hu.append
  | _, _, _, _, .func hf ho hxs hbody, _ => .func hf ho hxs.append hbody.append

/-- The word behind an expression must still be one that continues none. -/
theorem Expression.append : ∀ {ws rest more : List Word} {e : Expr Unit},
    Expression ws e rest → Joins rest more → Expression (ws ++ more) e (rest ++ more)
  | _, _, _, _, .complete h hnext, hrest =>
    .complete (h.append hrest) fun hmem =>
      hrest.nextKind_ne (List.mem_cons_of_mem _ hmem) (fun heq => hnext (heq ▸ hmem)) rfl

theorem Arguments.append : ∀ {ws rest more : List Word} {es : List (Expr Unit)},
    Arguments ws es rest → Arguments (ws ++ more) es (rest ++ more)
  | _, _, _, _, .none hc => .none hc
  | _, _, _, _, .some he hes => .some (he.append (joins_of_ne_nil hes.ne_nil)) hes.append

theorem MoreArguments.append : ∀ {ws rest more : List Word} {es : List (Expr Unit)},
    MoreArguments ws es rest → MoreArguments (ws ++ more) es (rest ++ more)
  | _, _, _, _, .close hc => .close hc
  | _, _, _, _, .comma hc he hes =>
    .comma hc (he.append (joins_of_ne_nil hes.ne_nil)) hes.append

/-- A block ends with its closing brace before any words. -/
theorem Braces.append : ∀ {ws rest more : List Word} {ss : List (Stmt Unit)},
    Braces ws ss rest → Braces (ws ++ more) ss (rest ++ more)
  | _, _, _, _, .block ho hss hc => .block ho (hss.append_of_ne_nil (List.cons_ne_nil _ _)) hc

/-- A statement that does not end with the source has its end behind it. -/
theorem Statement.append : ∀ {ws rest more : List Word} {s : Stmt Unit},
    Statement ws s rest → rest ≠ [] → Statement (ws ++ more) s (rest ++ more)
  | _, _, _, _, .letDecl hl hx ha he hskip, hrest =>
    .letDecl hl hx ha (he.append (joins_of_ne_nil (ne_nil_of_suffix hrest hskip.suffix)))
      (hskip.append hrest)
  | _, _, _, _, .ret hr he hskip, hrest =>
    .ret hr (he.append (joins_of_ne_nil (ne_nil_of_suffix hrest hskip.suffix)))
      (hskip.append hrest)
  | _, _, _, _, .expr he hskip, hrest =>
    .expr (he.append (joins_of_ne_nil (ne_nil_of_suffix hrest hskip.suffix))) hskip.append

/-- By induction on the statements, none of which ends with the source. -/
theorem Statements.append_of_ne_nil : ∀ {ws rest more : List Word} {ss : List (Stmt Unit)},
    Statements ws ss rest → rest ≠ [] → Statements (ws ++ more) ss (rest ++ more)
  | _, _, _, _, .nil, _ => .nil
  | _, _, _, _, .cons hs hss, hrest =>
    .cons (hs.append (ne_nil_of_suffix hrest hss.suffix)) (hss.append_of_ne_nil hrest)

end

/-! ## The last word of a phrase -/

/-- The last word before `rest` is no semicolon. -/
def EndsOpen (ws rest : List Word) : Prop := ∃ w, w :: rest <:+ ws ∧ w.kind ≠ .semicolon

section Last

variable {w : Word} {ws ws' rest : List Word}

/-- The last word of a part that comes last is the last word of the whole. -/
theorem EndsOpen.of_suffix (h : EndsOpen ws rest) (hsuffix : ws <:+ ws') : EndsOpen ws' rest := by
  obtain ⟨w, hw, hkind⟩ := h
  exact ⟨w, hw.trans hsuffix, hkind⟩

theorem endsOpen_of_kind {kind : TokenKind} (hw : w.kind = kind) (hkind : kind ≠ .semicolon)
    (hsuffix : w :: rest <:+ ws) : EndsOpen ws rest :=
  ⟨w, hsuffix, by rwa [hw]⟩

end Last

mutual

/-- No expression ends with a semicolon. -/
theorem Tier.endsOpen : ∀ {k : Precedence} {ws rest : List Word} {e : Expr Unit},
    Tier k ws e rest → EndsOpen ws rest
  | _, _, _, _, .tighter _ h => h.endsOpen
  | _, _, _, _, .binary _ _ hl hr => hr.endsOpen.of_suffix (suffix_of_cons hl.suffix)
  | _, _, _, _, .unary _ h => h.endsOpen.of_suffix (List.suffix_cons _ _)
  | _, _, _, _, .call hf _ hargs _ => hargs.endsOpen.of_suffix (suffix_of_cons hf.suffix)
  | _, _, _, _, .primary h => h.endsOpen

/-- A primary ends with a word of its own or with a block, so not with a semicolon. -/
theorem Primary.endsOpen : ∀ {ws rest : List Word} {e : Expr Unit},
    Primary ws e rest → EndsOpen ws rest
  | _, _, _, .name hx => endsOpen_of_kind hx (by decide) (List.suffix_refl _)
  | _, _, _, .int hn _ => endsOpen_of_kind hn (by decide) (List.suffix_refl _)
  | _, _, _, .true hb => endsOpen_of_kind hb (by decide) (List.suffix_refl _)
  | _, _, _, .false hb => endsOpen_of_kind hb (by decide) (List.suffix_refl _)
  | _, _, _, .group _ he hc => endsOpen_of_kind hc (by decide) (suffix_cons_of he.suffix)
  | _, _, _, .ifThen _ _ he _ ht _ =>
    ht.endsOpen.of_suffix (suffix_cons_of (suffix_cons_of (suffix_of_cons he.suffix)))
  | _, _, _, .ifElse _ _ he _ ht _ hu =>
    hu.endsOpen.of_suffix (suffix_cons_of (suffix_cons_of
      ((suffix_of_cons ht.suffix).trans (suffix_of_cons he.suffix))))
  | _, _, _, .func _ _ hxs hbody =>
    hbody.endsOpen.of_suffix (suffix_cons_of (suffix_cons_of hxs.suffix))

theorem Expression.endsOpen : ∀ {ws rest : List Word} {e : Expr Unit},
    Expression ws e rest → EndsOpen ws rest
  | _, _, _, .complete h _ => h.endsOpen

theorem Arguments.endsOpen : ∀ {ws rest : List Word} {es : List (Expr Unit)},
    Arguments ws es rest → EndsOpen ws rest
  | _, _, _, .none hc => endsOpen_of_kind hc (by decide) (List.suffix_refl _)
  | _, _, _, .some he hes => hes.endsOpen.of_suffix he.suffix

theorem MoreArguments.endsOpen : ∀ {ws rest : List Word} {es : List (Expr Unit)},
    MoreArguments ws es rest → EndsOpen ws rest
  | _, _, _, .close hc => endsOpen_of_kind hc (by decide) (List.suffix_refl _)
  | _, _, _, .comma _ he hes => hes.endsOpen.of_suffix (suffix_cons_of he.suffix)

theorem Braces.endsOpen : ∀ {ws rest : List Word} {ss : List (Stmt Unit)},
    Braces ws ss rest → EndsOpen ws rest
  | _, _, _, .block _ hss hc => endsOpen_of_kind hc (by decide) (suffix_cons_of hss.suffix)

end

/-! ## Programs that end with a semicolon -/

/-- The last of the words is a semicolon. -/
def Closed (ws : List Word) : Prop := ∃ w ∈ ws.getLast?, w.kind = .semicolon

namespace Closed

variable {w : Word} {ws rest : List Word}

/-- The end of closed words is closed. -/
theorem of_suffix (h : Closed ws) (hsuffix : rest <:+ ws) (hrest : rest ≠ []) : Closed rest := by
  obtain ⟨front, rfl⟩ := hsuffix
  obtain ⟨w, hw, hkind⟩ := h
  rw [List.getLast?_append, List.getLast?_eq_some_getLast hrest, Option.some_or] at hw
  exact ⟨w, by rwa [List.getLast?_eq_some_getLast hrest], hkind⟩

theorem kind_of_suffix (h : Closed ws) (hsuffix : [w] <:+ ws) : w.kind = .semicolon := by
  obtain ⟨v, hv, hkind⟩ := h.of_suffix hsuffix (List.cons_ne_nil _ _)
  obtain rfl : w = v := Option.some.inj hv
  exact hkind

/-- A phrase without a semicolon at its end is not the end of such a program. -/
theorem ne_nil (h : Closed ws) (hopen : EndsOpen ws rest) : rest ≠ [] := by
  rintro rfl
  obtain ⟨w, hsuffix, hkind⟩ := hopen
  exact hkind (h.kind_of_suffix hsuffix)

end Closed

/-- The words of tokens whose last one is a semicolon. -/
theorem closed_map_word {ts : List Token} {t : Token} (ht : ts.getLast? = some t)
    (hkind : t.kind = .semicolon) : Closed (ts.map Token.word) := by
  refine ⟨t.word, ?_, hkind⟩
  rw [List.getLast?_map, ht]
  rfl

/-- Tokens of which none but a semicolon can be the last one have closed words, if there are any. -/
theorem closed_of_getLast? {ts : List Token} (hend : ∀ t ∈ ts.getLast?, t.kind = .semicolon)
    (hne : ts.map Token.word ≠ []) : Closed (ts.map Token.word) := by
  have hlast := List.getLast?_eq_some_getLast (mt (List.map_eq_nil_iff (f := Token.word)).2 hne)
  exact closed_map_word hlast (hend _ hlast)

section Closed

variable {ws more : List Word}

/-- The semicolon at the end is the one to which the words are skipped. -/
theorem Skipped.append_of_closed (h : Skipped ws []) (hclosed : Closed ws) :
    Skipped (ws ++ more) more := by
  obtain ⟨junk, hjunk, ⟨w, hw, rfl⟩ | ⟨rfl, -⟩⟩ := h
  · exact ⟨junk, hjunk, .inl ⟨w, hw, by simp⟩⟩
  · obtain ⟨w, hw, hkind⟩ := hclosed
    exact absurd hkind (hjunk w (List.mem_of_getLast? hw))

theorem Expression.ne_nil {rest : List Word} {e : Expr Unit} (he : Expression ws e rest) :
    ws ≠ [] := by
  rintro rfl
  exact absurd he.starts (by decide)

/-- Behind the value of a statement, at least the semicolon at the end is left. -/
theorem Expression.append_of_closed {mid : List Word} {e : Expr Unit} (he : Expression ws e mid)
    (hclosed : Closed ws) : Expression (ws ++ more) e (mid ++ more) ∧ Closed mid := by
  have hmid := hclosed.ne_nil he.endsOpen
  exact ⟨he.append (joins_of_ne_nil hmid), hclosed.of_suffix he.suffix hmid⟩

/-- A statement that ends with the source at a semicolon ends there before more words. -/
theorem Statement.append_of_closed {s : Stmt Unit} (h : Statement ws s []) (hclosed : Closed ws) :
    Statement (ws ++ more) s more := by
  cases h with
  | letDecl hl hx ha he hskip =>
    have hvalue := hclosed.of_suffix (suffix_cons_of (suffix_cons_of (List.suffix_cons _ _)))
      he.ne_nil
    obtain ⟨he, hmid⟩ := he.append_of_closed hvalue
    exact .letDecl hl hx ha he (hskip.append_of_closed hmid)
  | ret hr he hskip =>
    have hvalue := hclosed.of_suffix (List.suffix_cons _ _) he.ne_nil
    obtain ⟨he, hmid⟩ := he.append_of_closed hvalue
    exact .ret hr he (hskip.append_of_closed hmid)
  | expr he hskip =>
    exact .expr (he.append_of_closed hclosed).1 hskip.append

end Closed

theorem Statements.eq_nil {ss : List (Stmt Unit)} {rest : List Word} (h : Statements [] ss rest) :
    ss = [] := by
  cases h with
  | nil => rfl
  | cons hs _ => exact absurd rfl (hs.nextKind_ne (by decide))

/-- The words of a program that ends with a semicolon and the words of other statements are words of
all of them. -/
theorem Statements.append : ∀ {ws ws' rest : List Word} {p p' : Program Unit},
    Statements ws p [] → Closed ws → Statements ws' p' rest →
      Statements (ws ++ ws') (p ++ p') rest
  | _, _, _, _, _, .nil, hclosed, _ => by
    obtain ⟨w, hw, -⟩ := hclosed
    cases hw
  | _, ws', _, _, p', @Statements.cons _ mid _ _ _ hs hss, hclosed, h' => by
    by_cases hmid : mid = []
    · -- The last statement takes the semicolon.
      subst hmid
      rw [hss.eq_nil]
      exact .cons (hs.append_of_closed hclosed) h'
    · exact .cons (hs.append hmid) (hss.append (hclosed.of_suffix hs.suffix hmid) h')

end LetLang.Grammar
