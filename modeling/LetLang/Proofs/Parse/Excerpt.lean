import LetLang.Proofs.Parse.Steps

/-!
# A source and an excerpt of it

Two sources are compared of which the second is an excerpt of the first that ends with a semicolon,
with tokens behind it that continue nothing (`Sequel`). As long as a parser stays in the excerpt it
cannot tell the two apart: it reads the same words, breaks off at the same ones and recovers at the
same ones. The parser of a block is the one that goes on behind the semicolon; in the excerpt it
then finds the end of the source, reads it and breaks off (`Outcome.Lost`), and no recovery leads
back from there. In all other cases both runs end alike (`Sequel.agrees_all`), so they always do if
there are no braces in the excerpt.
-/

set_option autoImplicit false

namespace LetLang

variable {β γ : Type}

/-! ## Skipping token by token -/

namespace Cursor

theorem peek_kind_of_words_nil {c : Cursor} (h : c.words = []) : c.peek.kind = .eof := by
  rw [peek_kind, h, nextKind_nil]

/-- Skipping reads a token, and goes on behind it unless it was chosen. -/
theorem skipPast_eq {chosen : TokenKind → Bool} {c : Cursor} (h : c.words ≠ []) :
    c.skipPast chosen = if chosen c.peek.kind then c.advance else c.advance.skipPast chosen := by
  obtain ⟨last, unread, stop⟩ := c
  -- Of the cursor where it starts, skipping takes only where the source ends.
  have hgo : ∀ (last' : TokenKind) (unread' ts : List Token),
      skipPast.go chosen ⟨last, unread, stop⟩ ts = skipPast.go chosen ⟨last', unread', stop⟩ ts := by
    intro last' unread' ts
    induction ts with
    | nil => rfl
    | cons t ts ih => rw [skipPast.go, skipPast.go, ih]
  cases unread with
  | nil => exact absurd rfl h
  | cons t ts => rw [skipPast, skipPast.go, hgo t.kind ts]; rfl

/-- A run goes on as long as the next token is of the kind. -/
theorem skipRun_eq {kind : TokenKind} (hkind : kind ≠ .eof) (c : Cursor) :
    c.skipRun kind = if c.peek.kind = kind then c.advance.skipRun kind else c := by
  obtain ⟨last, unread, stop⟩ := c
  have hgo : ∀ (ts : List Token) (l last' : TokenKind) (unread' : List Token),
      skipRun.go kind ⟨last, unread, stop⟩ l ts = skipRun.go kind ⟨last', unread', stop⟩ l ts := by
    intro ts
    induction ts with
    | nil => exact fun _ _ _ => rfl
    | cons t ts ih =>
      intro l last' unread'
      rw [skipRun.go, skipRun.go, ih t.kind last' unread']
  cases unread with
  | nil => exact (if_neg (Ne.symm hkind)).symm
  | cons t ts => rw [skipRun, skipRun.go, hgo ts t.kind t.kind ts]; rfl

/-- The kinds of the token read last and of those that are left. -/
def kinds (c : Cursor) : List TokenKind := c.last :: c.words.map Word.kind

theorem kinds_of_words_nil {c : Cursor} (h : c.words = []) : c.kinds = [c.last] := by
  rw [kinds, h, List.map_nil]

theorem kinds_advance {c : Cursor} (h : c.words ≠ []) : c.kinds = c.last :: c.advance.kinds := by
  obtain ⟨w, ws, hws⟩ := List.exists_cons_of_ne_nil h
  have hlast : c.advance.last = w.kind := by
    show c.peek.kind = w.kind
    rw [peek_kind, hws, nextKind_cons]
  rw [kinds, kinds, hlast, words_advance, hws, List.map_cons, List.tail_cons]

/-- The end of the source has been read. -/
def Lost (c : Cursor) : Prop := c.words = [] ∧ c.last = .eof

/-- Recovery does not lead back from the end of the source. -/
theorem Lost.recover {c : Cursor} (h : c.Lost) : c.recover.Lost := by
  obtain ⟨last, unread, stop⟩ := c
  obtain ⟨hwords, rfl⟩ := h
  obtain rfl : unread = [] := List.map_eq_nil_iff.1 hwords
  exact ⟨rfl, rfl⟩

end Cursor

/-- The parser broke off at the end of the source, and has read the end. -/
structure Outcome.Lost (out : Outcome β) : Prop where
  broken : ∃ e, out.value = .error e
  cursor : out.cursor.Lost

theorem Outcome.Lost.after {out : Outcome β} (h : out.Lost) (es : List ParseError) :
    (out.after es).Lost := ⟨h.broken, h.cursor⟩

/-! ## Places in a source and in an excerpt of it -/

/-- What stands behind an excerpt of a source: words of which the first continues neither a run of
semicolons nor the arguments of a call. -/
structure Sequel where
  words : List Word
  fresh : nextKind words ∉ [TokenKind.semicolon, .comma, .rightParen]
  /-- Whether there may be braces in the excerpt. -/
  braces : Bool

namespace Sequel

variable (g : Sequel)

/-- The same place in the source and in the excerpt, whose last word is a semicolon. -/
structure Near (c c' : Cursor) : Prop where
  words : c.words = c'.words ++ g.words
  last : c.last = c'.last
  bounded : ∀ w ∈ c'.words, w.kind ≠ .eof
  closed : c'.kinds.getLast? = some .semicolon
  braces : g.braces = false → ∀ kind ∈ c'.kinds, kind ∉ [TokenKind.leftBrace, .rightBrace]

/-- A place before the end of the excerpt. -/
def Before (c c' : Cursor) : Prop := g.Near c c' ∧ c'.words ≠ []

/-- The end of the excerpt. -/
def Behind (c c' : Cursor) : Prop := g.Near c c' ∧ c'.words = []

/-- A place before a token of the kind. -/
def At (kind : TokenKind) (c c' : Cursor) : Prop := g.Before c c' ∧ c.peek.kind = kind

variable {g} {c c' : Cursor}

/-- A place in the excerpt is its end, or before it. -/
theorem Near.before_or_behind (h : g.Near c c') : g.Before c c' ∨ g.Behind c c' :=
  (Classical.em (c'.words = [])).symm.imp (⟨h, ·⟩) (⟨h, ·⟩)

/-- At the end of the excerpt, the semicolon that ends it has just been read. -/
theorem Behind.last (h : g.Behind c c') : c'.last = .semicolon := by
  have hclosed := h.1.closed
  rw [Cursor.kinds_of_words_nil h.2] at hclosed
  exact Option.some.inj hclosed

theorem Near.before_of_ne_eof (h : g.Near c c') (hne : c'.peek.kind ≠ .eof) : g.Before c c' :=
  ⟨h, fun hnil => hne (Cursor.peek_kind_of_words_nil hnil)⟩

/-- Both runs read the same word, -/
theorem Before.peek_word (h : g.Before c c') : c.peek.word = c'.peek.word := by
  obtain ⟨hnear, hne⟩ := h
  obtain ⟨w, ws, hws⟩ := List.exists_cons_of_ne_nil hne
  have hwords : c.words = w :: (ws ++ g.words) := by rw [hnear.words, hws, List.cons_append]
  rw [Cursor.peek_word hws, Cursor.peek_word hwords]

theorem Before.peek_kind (h : g.Before c c') : c.peek.kind = c'.peek.kind :=
  congrArg Word.kind h.peek_word

/-- Before the end of the excerpt there is a token in it. -/
theorem Before.peek_kind_ne_eof (h : g.Before c c') : c'.peek.kind ≠ .eof := by
  obtain ⟨w, ws, hws⟩ := List.exists_cons_of_ne_nil h.2
  rw [Cursor.peek_kind, hws]
  exact h.1.bounded w (by rw [hws]; exact List.mem_cons_self)

/-- and are at the same place behind it. -/
theorem Before.advance (h : g.Before c c') : g.Near c.advance c'.advance := by
  have hkind := h.peek_kind
  obtain ⟨⟨hwords, -, hbounded, hclosed, hbraces⟩, hne⟩ := h
  have hkinds := Cursor.kinds_advance hne
  refine ⟨?_, hkind, fun w hw => ?_, ?_, fun hfree k hk => ?_⟩
  · rw [Cursor.words_advance, Cursor.words_advance, hwords, List.tail_append_of_ne_nil hne]
  · rw [Cursor.words_advance] at hw
    exact hbounded w (List.mem_of_mem_tail hw)
  · rwa [hkinds, Cursor.kinds, List.getLast?_cons_cons] at hclosed
  · refine hbraces hfree k ?_
    rw [hkinds]
    exact List.mem_cons_of_mem _ hk

/-- The excerpt does not end with any other word than a semicolon. -/
theorem Before.advance_of_ne (h : g.Before c c') (hkind : c.peek.kind ≠ .semicolon) :
    g.Before c.advance c'.advance := by
  refine ⟨h.advance, fun hnil => hkind ?_⟩
  rw [h.peek_kind]
  exact Behind.last ⟨h.advance, hnil⟩

/-- What stands next behind the excerpt. -/
theorem Behind.peek (h : g.Behind c c') :
    c.peek.kind ∉ [TokenKind.semicolon, .comma, .rightParen] ∧ c'.peek.kind = .eof := by
  obtain ⟨hnear, hnil⟩ := h
  refine ⟨?_, Cursor.peek_kind_of_words_nil hnil⟩
  rw [Cursor.peek_kind, hnear.words, hnil, List.nil_append]
  exact g.fresh

/-- Tokens are skipped to the same one, if a semicolon ends that. -/
theorem Before.skipPast {chosen : TokenKind → Bool} (hchosen : chosen .semicolon = true)
    (h : g.Before c c') : g.Near (c.skipPast chosen) (c'.skipPast chosen) ∧
      chosen (c'.skipPast chosen).last = true := by
  induction hn : c'.words.length generalizing c c' with
  | zero => exact absurd (List.length_eq_zero_iff.1 hn) h.2
  | succ n ih =>
    have hne : c.words ≠ [] := by
      rw [h.1.words]
      exact List.append_ne_nil_of_left_ne_nil h.2 _
    rw [Cursor.skipPast_eq hne, Cursor.skipPast_eq h.2, ← h.peek_kind]
    split
    · next hstop => exact ⟨h.advance, (congrArg chosen h.peek_kind).symm.trans hstop⟩
    · next hskip =>
      refine ih (h.advance_of_ne ?_) ?_
      · intro hkind
        exact hskip (by rw [hkind, hchosen])
      · rw [Cursor.words_advance, List.length_tail, hn, Nat.add_sub_cancel]

/-- A run of semicolons ends at the same place. -/
theorem Near.skipRun (h : g.Near c c') : g.Near (c.skipRun .semicolon) (c'.skipRun .semicolon) := by
  have hbehind : ∀ {c c' : Cursor}, g.Behind c c' →
      g.Near (c.skipRun .semicolon) (c'.skipRun .semicolon) := by
    intro c c' h
    obtain ⟨hfresh, heof⟩ := h.peek
    have hne : c.peek.kind ≠ .semicolon := by
      intro hkind
      rw [hkind] at hfresh
      exact hfresh List.mem_cons_self
    rw [Cursor.skipRun_eq (by decide) c, Cursor.skipRun_eq (by decide) c', if_neg hne,
      if_neg (by rw [heof]; decide)]
    exact h.1
  induction hn : c'.words.length generalizing c c' with
  | zero => exact hbehind ⟨h, List.length_eq_zero_iff.1 hn⟩
  | succ n ih =>
    rcases h.before_or_behind with h | h
    · rw [Cursor.skipRun_eq (by decide) c, Cursor.skipRun_eq (by decide) c', ← h.peek_kind]
      split
      · refine ih h.advance ?_
        rw [Cursor.words_advance, List.length_tail, hn, Nat.add_sub_cancel]
      · exact h.1
    · exact hbehind h

/-- Wherever both runs broke off, they recover at the same place. -/
theorem Near.recover (h : g.Near c c') : g.Near c.recover c'.recover := by
  rw [Cursor.recover, Cursor.recover, ← h.last]
  split
  · exact h
  · next hends =>
    rcases h.before_or_behind with h | h
    · exact (h.skipPast rfl).1
    · rw [h.1.last, h.last] at hends
      exact absurd rfl hends

/-- Without braces, recovery stops at a semicolon. -/
theorem Near.recover_last (h : g.Near c c') (hfree : g.braces = false) :
    c'.recover.last = .semicolon := by
  have hends : Cursor.endsStatement c'.recover.last = true := by
    rw [Cursor.recover]
    split
    · assumption
    · next hends =>
      rcases h.before_or_behind with h | h
      · exact (h.skipPast rfl).2
      · rw [h.last] at hends
        exact absurd rfl hends
  have hbrace : c'.recover.last ≠ .rightBrace := fun hbrace =>
    h.recover.braces hfree _ List.mem_cons_self (by rw [hbrace]; decide)
  simpa [Cursor.endsStatement, hbrace] using hends

/-! ## Outcomes of two runs -/

/-- Two outcomes with as many errors: the same value at cursors of `K`, or both broken off at the
same place. Or the run in the excerpt is lost, if there may be braces. -/
inductive Tracks (g : Sequel) (K : Cursor → Cursor → Prop) : Outcome β → Outcome β → Prop
  | value {b : β} {es es' : List ParseError} {c c' : Cursor} :
      es.length = es'.length → K c c' → Tracks g K ⟨.ok b, es, c⟩ ⟨.ok b, es', c'⟩
  | error {e e' : ParseError} {es es' : List ParseError} {c c' : Cursor} :
      es.length = es'.length → g.Near c c' → Tracks g K ⟨.error e, es, c⟩ ⟨.error e', es', c'⟩
  | lost {out out' : Outcome β} : g.braces = true → out'.Lost → Tracks g K out out'

/-- From cursors of `J`, the outcome of the first parser tracks that of the second. -/
def Agrees (g : Sequel) (J K : Cursor → Cursor → Prop) (p q : Parser β) : Prop :=
  ∀ c c' out out', J c c' → p c = some out → q c' = some out' → g.Tracks K out out'

/-- Errors recorded before both runs must be as many. -/
theorem Tracks.after {K : Cursor → Cursor → Prop} {out out' : Outcome β} {es es' : List ParseError}
    (h : g.Tracks K out out') (hes : es.length = es'.length) :
    g.Tracks K (out.after es) (out'.after es') := by
  cases h with
  | value hlength hc =>
    exact .value (by rw [List.length_append, List.length_append, hes, hlength]) hc
  | error hlength hc =>
    exact .error (by rw [List.length_append, List.length_append, hes, hlength]) hc
  | lost hbraces hlost => exact .lost hbraces (hlost.after es')

/-- The parser does not come back from the end of the source. -/
def Dooms (q : Parser β) : Prop := ∀ c : Cursor, c.Lost → q.Ensures c Outcome.Lost

namespace Agrees

open LetLang.Parser

variable {J J' K L : Cursor → Cursor → Prop} {p q : Parser β} {f f' : β → Parser γ}
  {kind : TokenKind}

theorem exhausted_left : g.Agrees J K exhausted q := by
  intro c c' out out' _ hout
  cases hout

theorem exhausted_right : g.Agrees J K p exhausted := by
  intro c c' out out' _ _ hout'
  cases hout'

theorem mono (h : g.Agrees J K p q) (hJ : ∀ c c', J' c c' → J c c') : g.Agrees J' K p q :=
  fun c c' out out' hc => h c c' out out' (hJ c c' hc)

theorem of_at (h : g.Agrees g.Before K p q) : g.Agrees (g.At kind) K p q :=
  h.mono fun _ _ hc => hc.1

theorem of_near (h : g.Agrees g.Near K p q) : g.Agrees g.Before K p q := h.mono fun _ _ hc => hc.1

/-- Places in the excerpt are before its end or at it. -/
theorem near (h : g.Agrees g.Before K p q) (h' : g.Agrees g.Behind K p q) :
    g.Agrees g.Near K p q := by
  intro c c' out out' hc
  rcases hc.before_or_behind with hc | hc
  · exact h c c' out out' hc
  · exact h' c c' out out' hc

theorem pure {b : β} (hJ : ∀ c c', J c c' → K c c') :
    g.Agrees J K (Pure.pure b) (Pure.pure b) := by
  intro c c' out out' hc hout hout'
  cases hout
  cases hout'
  exact .value rfl (hJ c c' hc)

theorem fail {e e' : ParseError} (hJ : ∀ c c', J c c' → g.Near c c') :
    g.Agrees J K (fail e : Parser β) (fail e') := by
  intro c c' out out' hc hout hout'
  cases hout
  cases hout'
  exact .error rfl (hJ c c' hc)

/-- If the first parsers agree, and behind every value the second ones do, then so do the wholes. -/
theorem bind (hp : g.Agrees J L p q) (hf : ∀ b, g.Agrees L K (f b) (f' b)) :
    g.Agrees J K (p >>= f) (q >>= f') := by
  intro c c' out out' hc hout hout'
  have hlost : ∀ {o : Outcome β}, q c' = some o → g.braces = true → o.Lost →
      g.Tracks K out out' := by
    rintro o ho hbraces ⟨⟨e, he⟩, hend⟩
    obtain ⟨value, es, m⟩ := o
    obtain rfl : value = .error e := he
    rw [bind_error ho, Option.some.injEq] at hout'
    subst hout'
    exact .lost hbraces ⟨⟨e, rfl⟩, hend⟩
  obtain ⟨e, es, m, hrun, rfl⟩ | ⟨b, es, m, last, hrun, hlast, rfl⟩ := bind_eq_some hout <;>
    obtain ⟨e', es', m', hrun', rfl⟩ | ⟨b', es', m', last', hrun', hlast', rfl⟩ :=
      bind_eq_some hout' <;>
    cases hp c c' _ _ hc hrun hrun'
  · next hlength hm => exact .error hlength hm
  · next hbraces h => exact hlost hrun' hbraces h
  · next hbraces h => exact hlost hrun' hbraces h
  · next hbraces h => exact hlost hrun' hbraces h
  · next hlength hm => exact (hf b m m' last last' hm hlast hlast').after hlength
  · next hbraces h => exact hlost hrun' hbraces h

/-- A caller that takes up an error goes on from the same place, and is lost if the run was. -/
theorem attempt {f f' : Except ParseError β → Parser γ} (hp : g.Agrees J L p q)
    (hok : ∀ b, g.Agrees L K (f (.ok b)) (f' (.ok b)))
    (herror : ∀ e e', g.Agrees g.Near K (f (.error e)) (f' (.error e')))
    (hdooms : ∀ e, Dooms (f' (.error e))) :
    g.Agrees J K (attempt p >>= f) (attempt q >>= f') := by
  intro c c' out out' hc hout hout'
  obtain ⟨value, es, m, last, hrun, hlast, rfl⟩ := attempt_bind_eq_some hout
  obtain ⟨value', es', m', last', hrun', hlast', rfl⟩ := attempt_bind_eq_some hout'
  cases hp c c' _ _ hc hrun hrun' with
  | value hlength hm => exact (hok _ m m' last last' hm hlast hlast').after hlength
  | error hlength hm => exact (herror _ _ m m' last last' hm hlast hlast').after hlength
  | lost hbraces hlost =>
    obtain ⟨⟨e, he⟩, hend⟩ := hlost
    obtain rfl : value' = .error e := he
    exact .lost hbraces ((hdooms e m' hend last' hlast').after es')

/-- Errors are compared by their number, not by their places. -/
theorem record {e e' : ParseError} {f f' : Unit → Parser γ} (hf : g.Agrees J K (f ()) (f' ())) :
    g.Agrees J K (record e >>= f) (record e' >>= f') := by
  intro c c' out out' hc hout hout'
  obtain ⟨last, hlast, rfl⟩ := record_bind_eq_some hout
  obtain ⟨last', hlast', rfl⟩ := record_bind_eq_some hout'
  exact (hf c c' last last' hc hlast hlast').after rfl

/-- The tokens at the same place differ in where they start. -/
theorem peek {f f' : Token → Parser γ}
    (hf : ∀ kind text i j, g.Agrees (g.At kind) K (f ⟨kind, text, i⟩) (f' ⟨kind, text, j⟩)) :
    g.Agrees g.Before K (peek >>= f) (peek >>= f') := by
  intro c c' out out' hc hout hout'
  obtain ⟨hkind, htext⟩ := Word.mk.inj hc.peek_word
  have hagrees := hf c.peek.kind c.peek.text c.peek.start c'.peek.start
  rw [peek_bind] at hout hout'
  refine hagrees c c' out out' ⟨hc, rfl⟩ hout ?_
  rw [hkind, htext]
  exact hout'

/-- A token that is known not to be a semicolon is not the last one of the excerpt. -/
theorem next_at {f f' : Token → Parser γ} (hkind : kind ≠ .semicolon)
    (hf : ∀ text i j, g.Agrees g.Before K (f ⟨kind, text, i⟩) (f' ⟨kind, text, j⟩)) :
    g.Agrees (g.At kind) K (Parser.next >>= f) (Parser.next >>= f') := by
  rintro c c' out out' ⟨hc, rfl⟩ hout hout'
  obtain ⟨hkind', htext⟩ := Word.mk.inj hc.peek_word
  rw [next_bind] at hout hout'
  refine hf c.peek.text c.peek.start c'.peek.start _ _ out out' (hc.advance_of_ne hkind) hout ?_
  rw [hkind', htext]
  exact hout'

/-- A semicolon may lead to the end of the excerpt, and any other token leads to a place before it.
-/
theorem next {f f' : Token → Parser γ}
    (hf : ∀ kind text i j, kind ≠ .semicolon →
      g.Agrees g.Before K (f ⟨kind, text, i⟩) (f' ⟨kind, text, j⟩))
    (hsemicolon : ∀ text i j,
      g.Agrees g.Near K (f ⟨.semicolon, text, i⟩) (f' ⟨.semicolon, text, j⟩)) :
    g.Agrees g.Before K (Parser.next >>= f) (Parser.next >>= f') := by
  intro c c' out out' hc hout hout'
  by_cases hkind : c.peek.kind = .semicolon
  · obtain ⟨hkind', htext⟩ := Word.mk.inj hc.peek_word
    rw [next_bind] at hout hout'
    refine hsemicolon c.peek.text c.peek.start c'.peek.start _ _ out out' hc.advance ?_ ?_
    · rw [← hkind]
      exact hout
    · rw [← hkind, hkind', htext]
      exact hout'
  · exact next_at hkind (fun text i j => hf _ text i j hkind) c c' out out' ⟨hc, rfl⟩ hout hout'

/-- A token of the excerpt is missing in both runs or in none. -/
theorem expect {f f' : Token → Parser γ} (hkind : kind ≠ .semicolon)
    (hf : ∀ text i j, g.Agrees g.Before K (f ⟨kind, text, i⟩) (f' ⟨kind, text, j⟩)) :
    g.Agrees g.Before K (Parser.expect kind >>= f) (Parser.expect kind >>= f') := by
  intro c c' out out' hc hout hout'
  by_cases heq : c.peek.kind = kind
  · rw [expect_bind, if_pos heq] at hout
    rw [expect_bind, if_pos (hc.peek_kind.symm.trans heq)] at hout'
    exact next_at hkind hf c c' out out' ⟨hc, heq⟩ ((next_bind c f).trans hout)
      ((next_bind c' f').trans hout')
  · rw [expect_bind, if_neg heq] at hout
    rw [expect_bind, if_neg fun h => heq (hc.peek_kind.trans h)] at hout'
    cases hout
    cases hout'
    exact .error rfl hc.1

/-- Where no token can be of the expected kind, both parsers break off. -/
theorem expect_missing {f f' : Token → Parser γ}
    (hJ : ∀ c c', J c c' → g.Near c c' ∧ c.peek.kind ≠ kind ∧ c'.peek.kind ≠ kind) :
    g.Agrees J K (Parser.expect kind >>= f) (Parser.expect kind >>= f') := by
  intro c c' out out' hc hout hout'
  obtain ⟨hnear, hne, hne'⟩ := hJ c c' hc
  rw [expect_bind, if_neg hne] at hout
  rw [expect_bind, if_neg hne'] at hout'
  cases hout
  cases hout'
  exact .error rfl hnear

/-- Where there are no braces, both parsers break off. -/
theorem leftBrace {f f' : Token → Parser γ} (hf : g.braces = true → ∀ text i j,
      g.Agrees g.Before K (f ⟨.leftBrace, text, i⟩) (f' ⟨.leftBrace, text, j⟩)) :
    g.Agrees g.Before K (Parser.expect .leftBrace >>= f) (Parser.expect .leftBrace >>= f') := by
  cases hbraces : g.braces with
  | true => exact expect (by decide) (hf hbraces)
  | false =>
    refine expect_missing fun c c' hc => ?_
    have hne : c'.peek.kind ≠ .leftBrace := fun hbrace =>
      hc.advance.braces hbraces _ List.mem_cons_self (by
        rw [show c'.advance.last = c'.peek.kind from rfl, hbrace]
        decide)
    exact ⟨hc.1, by rwa [hc.peek_kind], hne⟩

theorem lastKind {f f' : TokenKind → Parser γ}
    (hf : ∀ kind, g.Agrees (fun c c' => g.Near c c' ∧ c'.last = kind) K (f kind) (f' kind)) :
    g.Agrees g.Near K (Parser.lastKind >>= f) (Parser.lastKind >>= f') := by
  intro c c' out out' hc hout hout'
  rw [lastKind_bind] at hout hout'
  rw [hc.last] at hout
  exact hf c'.last c c' out out' ⟨hc, rfl⟩ hout hout'

/-- A move of the cursors must lead to places that the rest can start from. -/
theorem move {step : Cursor → Cursor} {f f' : Unit → Parser γ}
    (hstep : ∀ c c', J c c' → L (step c) (step c')) (hf : g.Agrees L K (f ()) (f' ())) :
    g.Agrees J K (move step >>= f) (move step >>= f') := by
  intro c c' out out' hc hout hout'
  rw [move_bind] at hout hout'
  exact hf _ _ out out' (hstep c c' hc) hout hout'

end Agrees

/-! ## At the end of the source -/

section Dooms

open LetLang.Parser

variable {kind : TokenKind} {q : Parser β}

/-- At the end of the source no other token is found. -/
theorem dooms_expect {f : Token → Parser γ} (hkind : kind ≠ .eof) :
    Dooms (Parser.expect kind >>= f) := by
  intro c hc out hout
  have hother : c.peek.kind ≠ kind := fun h =>
    hkind (h.symm.trans (Cursor.peek_kind_of_words_nil hc.1))
  rw [expect_bind, if_neg hother] at hout
  cases hout
  exact ⟨⟨_, rfl⟩, hc⟩

theorem dooms_record {e : ParseError} {f : Unit → Parser γ} (hf : Dooms (f ())) :
    Dooms (record e >>= f) := by
  intro c hc out hout
  obtain ⟨last, hlast, rfl⟩ := record_bind_eq_some hout
  exact (hf c hc last hlast).after [e]

/-- No argument follows the end of the source. -/
theorem dooms_moreArguments (depth : Nat) : Dooms (moreArguments depth) := by
  cases depth with
  | zero =>
    rw [moreArguments]
    exact fun _ _ => .exhausted
  | succ depth =>
    rw [moreArguments]
    intro c hc
    have heof := Cursor.peek_kind_of_words_nil hc.1
    refine .peek ?_
    rw [if_neg (by rw [heof]; decide)]
    exact dooms_expect (by decide) c hc

/-- No block ends with the source. -/
theorem block_of_words_nil {depth : Nat} {c : Cursor} (h : c.words = []) :
    (block depth).Ensures c Outcome.Lost := by
  cases depth with
  | zero => exact .exhausted
  | succ depth =>
    have heof := Cursor.peek_kind_of_words_nil h
    rw [block]
    refine .peek ?_
    simp only [heof]
    intro out hout
    rw [next_bind] at hout
    cases hout
    exact ⟨⟨_, rfl⟩, by rw [Cursor.words_advance, h, List.tail_nil], heof⟩

end Dooms

/-! ## One lemma for each parser -/

open LetLang.Parser

/-- Parameters hold no semicolon, so they do not reach the end of the excerpt. -/
theorem agrees_moreParameters : ∀ depth depth' : Nat,
    g.Agrees g.Before g.Before (moreParameters depth) (moreParameters depth')
  | 0, _ => by rw [moreParameters]; exact .exhausted_left
  | _ + 1, 0 => by rw [moreParameters.eq_1]; exact .exhausted_right
  | depth + 1, depth' + 1 => by
    rw [moreParameters, moreParameters]
    refine .peek fun kind text i j => ?_
    dsimp only
    split
    · next hcomma =>
      refine .next_at (by rw [hcomma]; decide) fun _ _ _ => .expect (by decide) fun x _ _ => ?_
      exact .bind (agrees_moreParameters depth depth') fun xs => .pure fun _ _ => id
    · exact .of_at (.expect (by decide) fun _ _ _ => .pure fun _ _ => id)

theorem agrees_parameters (depth depth' : Nat) :
    g.Agrees g.Before g.Before (parameters depth) (parameters depth') := by
  rw [parameters, parameters]
  refine .peek fun kind text i j => ?_
  dsimp only
  split
  · next hclose => exact .next_at (by rw [hclose]; decide) fun _ _ _ => .pure fun _ _ => id
  · refine .of_at (.expect (by decide) fun x _ _ => ?_)
    exact .bind (agrees_moreParameters depth depth') fun xs => .pure fun _ _ => id

/-- The parsers of two depths read alike in the excerpt. No parser but that of a statement ends
behind it with a value, and only blocks and the arguments of a call may start there. -/
structure AgreesAll (g : Sequel) (depth depth' : Nat) : Prop where
  expression : ∀ level,
    g.Agrees g.Before g.Before (expression depth level) (expression depth' level)
  operand : g.Agrees g.Before g.Before (operand depth) (operand depth')
  conditional : g.Agrees g.Before g.Before (conditional depth) (conditional depth')
  functionLiteral : g.Agrees g.Before g.Before (functionLiteral depth) (functionLiteral depth')
  climb : ∀ level left,
    g.Agrees g.Before g.Before (climb depth level left) (climb depth' level left)
  arguments : g.Agrees g.Before g.Before (arguments depth) (arguments depth')
  moreArguments : g.Agrees g.Near g.Before (moreArguments depth) (moreArguments depth')
  block : g.braces = true → g.Agrees g.Near g.Before (block depth) (block depth')
  statement : g.Agrees g.Before g.Near (statement depth) (statement depth')

namespace AgreesAll

variable {depth depth' : Nat} (ih : g.AgreesAll depth depth')

include ih

/-- An expression does not end with a semicolon, and so ends before the end of the excerpt. -/
theorem expression_succ (level : Precedence) : g.Agrees g.Before g.Before
    (Parser.expression (depth + 1) level) (Parser.expression (depth' + 1) level) := by
  rw [Parser.expression, Parser.expression]
  exact .bind ih.operand fun left => ih.climb level left

theorem operand_succ : g.Agrees g.Before g.Before (Parser.operand (depth + 1))
    (Parser.operand (depth' + 1)) := by
  rw [Parser.operand, Parser.operand]
  refine .next (fun kind text i j _ => ?_) fun text i j => ?_
  · dsimp only
    split
    · exact .pure fun _ _ => id
    · split
      · exact .pure fun _ _ => id
      · exact .fail fun _ _ hc => hc.1
    · exact .pure fun _ _ => id
    · exact .pure fun _ _ => id
    · refine .bind (ih.expression .lowest) fun e => ?_
      exact .expect (by decide) fun _ _ _ => .pure fun _ _ => id
    · exact ih.conditional
    · exact ih.functionLiteral
    · split
      · exact .bind (ih.expression .unary) fun e => .pure fun _ _ => id
      · exact .fail fun _ _ hc => hc.1
  · -- No expression starts with a semicolon.
    simp only [TokenKind.unaryOp?]
    exact .fail fun _ _ => id

theorem conditional_succ : g.Agrees g.Before g.Before (Parser.conditional (depth + 1))
    (Parser.conditional (depth' + 1)) := by
  rw [Parser.conditional, Parser.conditional]
  refine .expect (by decide) fun _ _ _ => .bind (ih.expression .lowest) fun e => ?_
  refine .expect (by decide) fun _ _ _ => .leftBrace fun hbraces _ _ _ => ?_
  refine .bind (.of_near (ih.block hbraces)) fun t => .peek fun kind text i j => ?_
  dsimp only
  split
  · next helse =>
    refine .next_at (by rw [helse]; decide) fun _ _ _ => .leftBrace fun hbraces _ _ _ => ?_
    exact .bind (.of_near (ih.block hbraces)) fun u => .pure fun _ _ => id
  · exact .of_at (.pure fun _ _ => id)

theorem functionLiteral_succ : g.Agrees g.Before g.Before (Parser.functionLiteral (depth + 1))
    (Parser.functionLiteral (depth' + 1)) := by
  rw [Parser.functionLiteral, Parser.functionLiteral]
  refine .expect (by decide) fun _ _ _ => .bind (agrees_parameters depth depth') fun xs => ?_
  refine .leftBrace fun hbraces _ _ _ => ?_
  exact .bind (.of_near (ih.block hbraces)) fun body => .pure fun _ _ => id

/-- The loop stays before the end of the excerpt, so it never asks for the word behind it. -/
theorem climb_succ (level : Precedence) (left : Expr Unit) : g.Agrees g.Before g.Before
    (Parser.climb (depth + 1) level left) (Parser.climb (depth' + 1) level left) := by
  rw [Parser.climb, Parser.climb]
  refine .peek fun kind text i j => ?_
  dsimp only
  split
  · next hlevel =>
    have hkind : kind ≠ .semicolon := by
      rintro rfl
      exact absurd hlevel (Nat.not_lt_zero _)
    refine .next_at hkind fun _ _ _ => ?_
    split
    · exact .bind (ih.expression _) fun right => ih.climb level _
    · refine .bind ih.arguments fun args => ?_
      split
      · exact ih.climb level _
      · exact .fail fun _ _ hc => hc.1
  · exact .of_at (.pure fun _ _ => id)

theorem arguments_succ : g.Agrees g.Before g.Before (Parser.arguments (depth + 1))
    (Parser.arguments (depth' + 1)) := by
  rw [Parser.arguments, Parser.arguments]
  refine .peek fun kind text i j => ?_
  dsimp only
  split
  · next hclose => exact .next_at (by rw [hclose]; decide) fun _ _ _ => .pure fun _ _ => id
  · refine .of_at (.bind (ih.expression .lowest) fun e => ?_)
    exact .bind (.of_near ih.moreArguments) fun es => .pure fun _ _ => id

/-- A broken argument may have read the last semicolon. The word behind that is no comma and no
parenthesis, so both runs break off there. -/
theorem moreArguments_succ : g.Agrees g.Near g.Before (Parser.moreArguments (depth + 1))
    (Parser.moreArguments (depth' + 1)) := by
  rw [Parser.moreArguments, Parser.moreArguments]
  refine .near (.peek fun kind text i j => ?_) ?_
  · dsimp only
    split
    · next hcomma =>
      refine .next_at (by rw [hcomma]; decide) fun _ _ _ =>
        .attempt (ih.expression .lowest) ?_ ?_ ?_
      · exact fun e => .bind (.of_near ih.moreArguments) fun es => .pure fun _ _ => id
      · exact fun e e' => .record ih.moreArguments
      · exact fun e => dooms_record (dooms_moreArguments depth')
    · exact .of_at (.expect (by decide) fun _ _ _ => .pure fun _ _ => id)
  · -- Behind the excerpt there is neither a comma nor the closing parenthesis.
    intro c c' out out' hc hout hout'
    obtain ⟨hnext, heof⟩ := hc.peek
    simp only [List.mem_cons, List.not_mem_nil, not_or] at hnext
    rw [peek_bind, if_neg hnext.2.1] at hout
    rw [peek_bind, if_neg (by rw [heof]; decide)] at hout'
    refine Agrees.expect_missing (J := g.Behind) ?_ c c' out out' hc hout hout'
    intro d d' hd
    obtain ⟨hnext, heof⟩ := hd.peek
    simp only [List.mem_cons, List.not_mem_nil, not_or] at hnext
    exact ⟨hd.1, hnext.2.2.1, by rw [heof]; decide⟩

/-- A block that breaks off in a statement ends with the brace at which it recovers, or goes on. -/
theorem block_succ (hbraces : g.braces = true) : g.Agrees g.Near g.Before
    (Parser.block (depth + 1)) (Parser.block (depth' + 1)) := by
  refine .near ?_ fun c c' out out' hc _ hout' =>
    .lost hbraces (block_of_words_nil hc.2 out' hout')
  rw [Parser.block, Parser.block]
  refine .peek fun kind text i j => ?_
  dsimp only
  split
  · exact .next_at (by decide) fun _ _ _ => .pure fun _ _ => id
  · exact .next_at (by decide) fun _ _ _ => .fail fun _ _ hc => hc.1
  · refine .of_at (.attempt ih.statement (fun s => ?_) (fun e e' => ?_) fun e => ?_)
    · exact .bind (ih.block hbraces) fun ss => .pure fun _ _ => id
    · refine .record (.move (fun _ _ => Near.recover) (.lastKind fun kind => ?_))
      split
      · next hbrace =>
        -- Behind the last word of the excerpt, a semicolon was read last.
        refine .pure fun c c' hc => ⟨hc.1, fun hnil => ?_⟩
        have hlast := Behind.last ⟨hc.1, hnil⟩
        rw [hc.2, hbrace] at hlast
        cases hlast
      · exact (ih.block hbraces).mono fun _ _ hc => hc.1
    · refine dooms_record fun c hc => .move ?_
      have hlost := hc.recover
      intro out hout
      rw [lastKind_bind, hlost.2, if_neg (by decide)] at hout
      exact block_of_words_nil hlost.1 out hout

/-- A statement may end at the end of the excerpt. -/
theorem statement_succ : g.Agrees g.Before g.Near (Parser.statement (depth + 1))
    (Parser.statement (depth' + 1)) := by
  have hskip : ∀ c c', g.Before c c' →
      g.Near (c.skipPast (· == .semicolon)) (c'.skipPast (· == .semicolon)) :=
    fun c c' hc => (hc.skipPast rfl).1
  rw [Parser.statement, Parser.statement]
  refine .peek fun kind text i j => ?_
  dsimp only
  split
  · refine .next_at (by decide) fun _ _ _ => .expect (by decide) fun x _ _ => ?_
    refine .expect (by decide) fun _ _ _ => .bind (ih.expression .lowest) fun e => ?_
    exact .move hskip (.pure fun _ _ => id)
  · refine .next_at (by decide) fun _ _ _ => .bind (ih.expression .lowest) fun e => ?_
    exact .move hskip (.pure fun _ _ => id)
  · refine .of_at (.bind (ih.expression .lowest) fun e => ?_)
    exact .move (fun _ _ hc => hc.1.skipRun) (.pure fun _ _ => id)

end AgreesAll

/-- Without depth one run has no outcome, and else both take the same step. -/
theorem agrees_all : ∀ depth depth' : Nat, g.AgreesAll depth depth'
  -- The two runs need not have the same depth, and without depth there is no outcome to compare.
  | 0, _ =>
    { expression := fun _ => by rw [expression]; exact .exhausted_left
      operand := by rw [operand]; exact .exhausted_left
      conditional := by rw [conditional]; exact .exhausted_left
      functionLiteral := by rw [functionLiteral]; exact .exhausted_left
      climb := fun _ _ => by rw [climb]; exact .exhausted_left
      arguments := by rw [arguments]; exact .exhausted_left
      moreArguments := by rw [moreArguments]; exact .exhausted_left
      block := fun _ => by rw [block]; exact .exhausted_left
      statement := by rw [statement]; exact .exhausted_left }
  | _ + 1, 0 =>
    { expression := fun _ => by rw [expression.eq_1]; exact .exhausted_right
      operand := by rw [operand.eq_1]; exact .exhausted_right
      conditional := by rw [conditional.eq_1]; exact .exhausted_right
      functionLiteral := by rw [functionLiteral.eq_1]; exact .exhausted_right
      climb := fun _ _ => by rw [climb.eq_1]; exact .exhausted_right
      arguments := by rw [arguments.eq_1]; exact .exhausted_right
      moreArguments := by rw [moreArguments.eq_1]; exact .exhausted_right
      block := fun _ => by rw [block.eq_1]; exact .exhausted_right
      statement := by rw [statement.eq_1]; exact .exhausted_right }
  | depth + 1, depth' + 1 =>
    have ih := agrees_all depth depth'
    { expression := ih.expression_succ
      operand := ih.operand_succ
      conditional := ih.conditional_succ
      functionLiteral := ih.functionLiteral_succ
      climb := ih.climb_succ
      arguments := ih.arguments_succ
      moreArguments := ih.moreArguments_succ
      block := ih.block_succ
      statement := ih.statement_succ }

end Sequel

end LetLang
