import LetLang.Proofs.Parse.Words

/-!
# Outcomes of parsers

Two ways to speak of the outcome of a parser. `Parser.Clean` says that it ends with a value and
records no error; it is taken apart step by step, from the end of a successful run to its beginning.
`Parser.Ensures` says what holds of the outcome if there is one; it is put together step by step,
and says nothing of the depth that is granted. `Parser.Yields` is the case of it that matters most:
the outcome is a given value, without errors, with given words behind it.
-/

set_option autoImplicit false

namespace LetLang

variable {β γ : Type}

/-- The errors of an outcome: those recorded, and the one that ended it. -/
def Outcome.faults {β : Type} (out : Outcome β) : List ParseError :=
  match out.value with
  | .ok _ => out.errors
  | .error e => out.errors ++ [e]

namespace Parser

/-! ## Runs of two parts -/

section Runs

variable {p : Parser β} {f : β → Parser γ} {c : Cursor} {out : Outcome γ}

/-- The first part ends with an error, or the second goes on where it stops. -/
theorem bind_eq_some (hout : (p >>= f) c = some out) :
    (∃ e es m, p c = some ⟨.error e, es, m⟩ ∧ out = ⟨.error e, es, m⟩) ∨
      ∃ b es m out', p c = some ⟨.ok b, es, m⟩ ∧ f b m = some out' ∧ out = out'.after es := by
  cases hrun : p c with
  | none =>
    rw [bind_none hrun] at hout
    cases hout
  | some mid =>
    obtain ⟨value, es, m⟩ := mid
    cases value with
    | error e =>
      rw [bind_error hrun, Option.some.injEq] at hout
      exact .inl ⟨e, es, m, rfl, hout.symm⟩
    | ok b =>
      rw [bind_ok hrun, Option.map_eq_some_iff] at hout
      obtain ⟨out', hout', rfl⟩ := hout
      exact .inr ⟨b, es, m, out', rfl, hout', rfl⟩

/-- Behind an attempt, the second part goes on whether the first ended with an error or not. -/
theorem attempt_bind_eq_some {f : Except ParseError β → Parser γ}
    (hout : (attempt p >>= f) c = some out) :
    ∃ value es m out', p c = some ⟨value, es, m⟩ ∧ f value m = some out' ∧
      out = out'.after es := by
  obtain ⟨e, es, m, hrun, -⟩ | ⟨value, es, m, out', hrun, hout', rfl⟩ := bind_eq_some hout
  · rw [attempt, Option.map_eq_some_iff] at hrun
    obtain ⟨mid, -, hmid⟩ := hrun
    cases hmid
  · rw [attempt, Option.map_eq_some_iff] at hrun
    obtain ⟨mid, hmid, heq⟩ := hrun
    cases heq
    exact ⟨mid.value, mid.errors, mid.cursor, out', hmid, hout', rfl⟩

theorem record_bind_eq_some {e : ParseError} {f : Unit → Parser γ}
    (hout : (record e >>= f) c = some out) : ∃ out', f () c = some out' ∧ out = out'.after [e] := by
  obtain ⟨e', es, m, hrun, -⟩ | ⟨_, es, m, out', hrun, hout', rfl⟩ := bind_eq_some hout
  · cases hrun
  · cases hrun
    exact ⟨out', hout', rfl⟩

end Runs

/-! ## Runs without errors -/

/-- From `c`, the parser ends at `c'` with the value `b` and records no error. -/
def Clean (p : Parser β) (c : Cursor) (b : β) (c' : Cursor) : Prop :=
  p c = some ⟨.ok b, [], c'⟩

section Clean

variable {p : Parser β} {f : β → Parser γ} {c c' : Cursor} {b : β} {d : γ}

@[simp] theorem clean_pure {b' : β} : (Pure.pure b : Parser β).Clean c b' c' ↔ b = b' ∧ c = c' := by
  simp [Clean, pure_apply]

@[simp] theorem not_clean_exhausted : ¬ (exhausted : Parser β).Clean c b c' := by
  intro h
  cases h

@[simp] theorem not_clean_fail {e : ParseError} : ¬ (fail e : Parser β).Clean c b c' := by
  simp [Clean, fail]

/-- Both parts of a run without errors are runs without errors. -/
theorem clean_bind : (p >>= f).Clean c d c' ↔ ∃ b m, p.Clean c b m ∧ (f b).Clean m d c' := by
  constructor
  · intro h
    obtain ⟨e, es, m, -, hout⟩ | ⟨b, es, m, out, hp, hf, hout⟩ := bind_eq_some h
    · -- An error of the first part would end both.
      cases hout
    · obtain ⟨value, errors, m'⟩ := out
      simp only [Outcome.after, Outcome.mk.injEq, List.nil_eq_append_iff] at hout
      obtain ⟨rfl, ⟨rfl, rfl⟩, rfl⟩ := hout
      exact ⟨b, m, hp, hf⟩
  · rintro ⟨b, m, hp, hf⟩
    unfold Clean at hp hf ⊢
    rw [bind_ok_nil hp, hf]

@[simp] theorem clean_peek_bind {f : Token → Parser γ} :
    (peek >>= f).Clean c d c' ↔ (f c.peek).Clean c d c' := by
  simp only [Clean, peek_bind]

@[simp] theorem clean_next_bind {f : Token → Parser γ} :
    (next >>= f).Clean c d c' ↔ (f c.peek).Clean c.advance d c' := by
  simp only [Clean, next_bind]

@[simp] theorem clean_move_bind {g : Cursor → Cursor} {f : Unit → Parser γ} :
    (move g >>= f).Clean c d c' ↔ (f ()).Clean (g c) d c' := by
  simp only [Clean, move_bind]

@[simp] theorem clean_expect_bind {kind : TokenKind} {f : Token → Parser γ} :
    (expect kind >>= f).Clean c d c' ↔ c.peek.kind = kind ∧ (f c.peek).Clean c.advance d c' := by
  unfold Clean
  rw [expect_bind]
  split
  · next h => simp [h]
  · next h => simp [h]

/-- A run that records an error is not clean. -/
@[simp] theorem not_clean_record_bind {e : ParseError} {f : Unit → Parser γ} :
    ¬ (record e >>= f).Clean c d c' := by
  intro h
  obtain ⟨b, m, hrecord, -⟩ := clean_bind.1 h
  simp [Clean, record] at hrecord

/-- What a caller does behind a parser whose error it takes as a value. -/
theorem clean_attempt_bind {f : Except ParseError β → Parser γ}
    (h : (attempt p >>= f).Clean c d c') :
    (∃ b m, p.Clean c b m ∧ (f (.ok b)).Clean m d c') ∨
      ∃ e m, (f (.error e)).Clean m d c' := by
  obtain ⟨r, m, hp, hf⟩ := clean_bind.1 h
  simp only [Clean, attempt, Option.map_eq_some_iff, Outcome.mk.injEq, Except.ok.injEq] at hp
  obtain ⟨⟨value, errors, m'⟩, hp, rfl, rfl, rfl⟩ := hp
  cases value with
  | ok b => exact .inl ⟨b, _, hp, hf⟩
  | error e => exact .inr ⟨e, _, hf⟩

end Clean

/-! ## What holds of every outcome -/

/-- If the parser has an outcome at `c`, then `Q` holds of it. -/
def Ensures (p : Parser β) (c : Cursor) (Q : Outcome β → Prop) : Prop :=
  ∀ out, p c = some out → Q out

/-- The value is `b`, no error was recorded, and the words `ws` are left. -/
structure Gives (b : β) (ws : List Word) (out : Outcome β) : Prop where
  value : out.value = .ok b
  errors : out.errors = []
  words : out.cursor.words = ws

/-- If the parser has an outcome at `c`, it is the value `b` without errors, and the words `ws` are
left. -/
abbrev Yields (p : Parser β) (c : Cursor) (b : β) (ws : List Word) : Prop :=
  p.Ensures c (Gives b ws)

namespace Ensures

variable {p : Parser β} {f : β → Parser γ} {c : Cursor} {b : β} {ws : List Word} {w : Word}
  {Q : Outcome γ → Prop}

theorem exhausted : (Parser.exhausted : Parser γ).Ensures c Q := by
  intro out h
  cases h

theorem pure {d : γ} (h : Q ⟨.ok d, [], c⟩) : (Pure.pure d : Parser γ).Ensures c Q := by
  intro out hout
  cases hout
  exact h

theorem bind (hp : p.Yields c b ws) (hf : ∀ m : Cursor, m.words = ws → (f b).Ensures m Q) :
    (p >>= f).Ensures c Q := by
  intro out hout
  obtain ⟨e, es, m, hrun, -⟩ | ⟨b', es, m, out', hrun, hout', rfl⟩ := bind_eq_some hout
  · cases (hp _ hrun).value
  · obtain ⟨hvalue, herrors, hwords⟩ := hp _ hrun
    obtain rfl : b' = b := Except.ok.inj hvalue
    obtain rfl : es = [] := herrors
    exact hf m hwords out' hout'

/-- An error ends what would go on behind it. -/
theorem bind_error {e : ParseError} {es : List ParseError} {m : Cursor}
    (hp : p.Ensures c (· = ⟨.error e, es, m⟩)) : (p >>= f).Ensures c (· = ⟨.error e, es, m⟩) := by
  intro out hout
  obtain ⟨e', es', m', hrun, rfl⟩ | ⟨b, es', m', out', hrun, -, -⟩ := bind_eq_some hout
  · cases hp _ hrun
    rfl
  · cases hp _ hrun

theorem peek {f : Token → Parser γ} (h : (f c.peek).Ensures c Q) :
    (Parser.peek >>= f).Ensures c Q := by
  intro out hout
  rw [peek_bind] at hout
  exact h out hout

/-- Reading the first word. -/
theorem next {f : Token → Parser γ} (hc : c.words = w :: ws)
    (h : ∀ (t : Token) (m : Cursor), t.word = w → m.words = ws → (f t).Ensures m Q) :
    (Parser.next >>= f).Ensures c Q := by
  intro out hout
  rw [next_bind] at hout
  refine h c.peek c.advance (Cursor.peek_word hc) ?_ out hout
  rw [Cursor.words_advance, hc, List.tail_cons]

/-- Reading the first word, which is of the expected kind. -/
theorem expect {f : Token → Parser γ} {kind : TokenKind} (hc : c.words = w :: ws)
    (hkind : w.kind = kind)
    (h : ∀ (t : Token) (m : Cursor), t.word = w → m.words = ws → (f t).Ensures m Q) :
    (Parser.expect kind >>= f).Ensures c Q := by
  intro out hout
  have hpeek : c.peek.kind = kind := by rw [Cursor.peek_kind, hc, nextKind_cons, hkind]
  rw [expect_bind, if_pos hpeek] at hout
  refine h c.peek c.advance (Cursor.peek_word hc) ?_ out hout
  rw [Cursor.words_advance, hc, List.tail_cons]

theorem move {g : Cursor → Cursor} {f : Unit → Parser γ} (h : (f ()).Ensures (g c) Q) :
    (Parser.move g >>= f).Ensures c Q := by
  intro out hout
  rw [move_bind] at hout
  exact h out hout

theorem attempt (hp : p.Yields c b ws) : (Parser.attempt p).Yields c (.ok b) ws := by
  intro out hout
  simp only [Parser.attempt, Option.map_eq_some_iff] at hout
  obtain ⟨mid, hmid, rfl⟩ := hout
  obtain ⟨hvalue, herrors, hwords⟩ := hp mid hmid
  exact ⟨by rw [hvalue], herrors, hwords⟩

end Ensures

end Parser

end LetLang
