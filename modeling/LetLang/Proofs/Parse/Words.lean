import LetLang.Parse.Depth

/-!
# Words

A word is a token without its place. A grammar speaks of words, and the parsers choose by words
alone: every step of a cursor is described here by the words that are left to read. The tokens of a
source are never of the kind that stands for its end (`kind_ne_eof_of_mem_scan`).
-/

set_option autoImplicit false

namespace LetLang

/-- A token without its place. -/
structure Word where
  kind : TokenKind
  text : String
  deriving DecidableEq

/-- The word of a token. -/
def Token.word (t : Token) : Word := ⟨t.kind, t.text⟩

/-- The kind of the first word; behind the last word stands the end of the source. -/
def nextKind : List Word → TokenKind
  | [] => .eof
  | w :: _ => w.kind

@[simp] theorem nextKind_nil : nextKind [] = .eof := rfl

@[simp] theorem nextKind_cons (w : Word) (ws : List Word) : nextKind (w :: ws) = w.kind := rfl

namespace Cursor

/-- The words that are left to read. -/
def words (c : Cursor) : List Word := c.unread.map Token.word

theorem peek_kind (c : Cursor) : c.peek.kind = nextKind c.words := by
  rw [peek, words]
  cases c.unread with
  | nil => rfl
  | cons t ts => rfl

/-- Reading a token takes the first word. -/
theorem words_advance (c : Cursor) : c.advance.words = c.words.tail := by
  unfold advance words
  rw [List.map_tail]

/-- The first word is that of the next token, unless the source is at its end. -/
theorem words_eq_cons {c : Cursor} (h : c.peek.kind ≠ .eof) :
    c.words = c.peek.word :: c.advance.words := by
  rw [peek] at h ⊢
  rw [words, advance]
  cases hu : c.unread with
  | nil => simp [hu, Token.eof] at h
  | cons t ts => rfl

/-- The token that is read when `w` is the first word. -/
theorem peek_word {c : Cursor} {w : Word} {ws : List Word} (h : c.words = w :: ws) :
    c.peek.word = w := by
  rw [words] at h
  rw [peek]
  cases hu : c.unread with
  | nil => simp [hu] at h
  | cons t ts =>
    rw [hu, List.map_cons] at h
    exact (List.cons.inj h).1

/-- Skipping past a chosen kind leaves out words that are not chosen, up to a chosen one or the
end. -/
theorem words_skipPast (chosen : TokenKind → Bool) (c : Cursor) :
    ∃ junk, (∀ w ∈ junk, chosen w.kind = false) ∧
      ((∃ w, chosen w.kind = true ∧ c.words = junk ++ w :: (c.skipPast chosen).words) ∨
        (c.words = junk ∧ (c.skipPast chosen).words = [])) := by
  -- The cursor keeps its `stop`, so the induction is on the tokens alone.
  have hgo : ∀ ts : List Token, ∃ junk, (∀ w ∈ junk, chosen w.kind = false) ∧
      ((∃ w, chosen w.kind = true ∧
          ts.map Token.word = junk ++ w :: (skipPast.go chosen c ts).words) ∨
        (ts.map Token.word = junk ∧ (skipPast.go chosen c ts).words = [])) := by
    intro ts
    induction ts with
    | nil => exact ⟨[], by simp, .inr ⟨rfl, rfl⟩⟩
    | cons t ts ih =>
      rw [skipPast.go]
      by_cases ht : chosen t.kind = true
      · refine ⟨[], by simp, .inl ⟨t.word, ht, ?_⟩⟩
        rw [if_pos ht]
        rfl
      · obtain ⟨junk, hjunk, hends⟩ := ih
        rw [if_neg ht]
        refine ⟨t.word :: junk, ?_, ?_⟩
        · intro w hw
          rcases List.mem_cons.1 hw with rfl | hw
          · exact Bool.eq_false_iff.2 ht
          · exact hjunk w hw
        · rcases hends with ⟨w, hw, heq⟩ | ⟨heq, hnil⟩
          · exact .inl ⟨w, hw, by rw [List.map_cons, heq, List.cons_append]⟩
          · exact .inr ⟨by rw [List.map_cons, heq], hnil⟩
  exact hgo c.unread

/-- Skipping past a chosen kind, when it is known which words come first. -/
theorem words_skipPast_append {chosen : TokenKind → Bool} {c : Cursor} {junk rest : List Word}
    {w : Word} (hjunk : ∀ w ∈ junk, chosen w.kind = false) (hw : chosen w.kind = true)
    (h : c.words = junk ++ w :: rest) : (c.skipPast chosen).words = rest := by
  have hgo : ∀ (ts : List Token) (junk : List Word), (∀ w ∈ junk, chosen w.kind = false) →
      ts.map Token.word = junk ++ w :: rest → (skipPast.go chosen c ts).words = rest := by
    intro ts
    induction ts with
    | nil => intro junk _ heq; simp at heq
    | cons t ts ih =>
      intro junk hjunk heq
      rw [skipPast.go]
      cases junk with
      | nil =>
        obtain ⟨rfl, hrest⟩ := List.cons.inj heq
        rw [if_pos (show chosen t.kind = true from hw)]
        exact hrest
      | cons j junk =>
        obtain ⟨rfl, hrest⟩ := List.cons.inj heq
        have hj : chosen t.kind = false := hjunk _ List.mem_cons_self
        rw [if_neg (by simp [hj])]
        exact ih junk (fun w hw => hjunk w (List.mem_cons_of_mem _ hw)) hrest
  exact hgo c.unread junk hjunk h

/-- Skipping past a kind that does not occur ends at the end. -/
theorem words_skipPast_of_forall {chosen : TokenKind → Bool} {c : Cursor}
    (h : ∀ w ∈ c.words, chosen w.kind = false) : (c.skipPast chosen).words = [] := by
  obtain ⟨junk, -, ⟨w, hw, heq⟩ | ⟨-, hnil⟩⟩ := words_skipPast chosen c
  · -- A chosen word would be among the words.
    have hfalse := h w (by rw [heq]; simp)
    rw [hw] at hfalse
    cases hfalse
  · exact hnil

/-- Skipping a run of one kind leaves the words behind all leading words of that kind. -/
theorem words_skipRun (kind : TokenKind) (c : Cursor) :
    (c.skipRun kind).words = c.words.dropWhile (·.kind == kind) := by
  have hgo : ∀ (ts : List Token) (last : TokenKind),
      (skipRun.go kind c last ts).words = (ts.map Token.word).dropWhile (·.kind == kind) := by
    intro ts
    induction ts with
    | nil => intro last; rfl
    | cons t ts ih =>
      intro last
      rw [skipRun.go]
      by_cases ht : t.kind = kind
      · rw [if_pos ht, ih, List.map_cons, List.dropWhile_cons_of_pos]
        exact beq_iff_eq.2 ht
      · rw [if_neg ht, List.map_cons, List.dropWhile_cons_of_neg]
        · rfl
        · intro hbeq
          exact ht (beq_iff_eq.1 hbeq)
  exact hgo c.unread c.last

end Cursor

/-! ## Kinds of the tokens of a source -/

theorem lookup_getD_ne_eof {β : Type} [BEq β] [LawfulBEq β] {table : List (β × TokenKind)}
    {other : TokenKind} (htable : ∀ entry ∈ table, entry.2 ≠ .eof) (hother : other ≠ .eof) (b : β) :
    (table.lookup b).getD other ≠ .eof := by
  cases hlookup : table.lookup b with
  | none => exact hother
  | some kind =>
    obtain ⟨before, after, heq, -⟩ := List.lookup_eq_some_iff.1 hlookup
    exact htable (b, kind) (by rw [heq]; simp)

theorem assignable_kind_ne_eof {long short : TokenKind} (hlong : long ≠ .eof)
    (hshort : short ≠ .eof) (cs : List Char) : (assignable long short cs).kind ≠ .eof := by
  unfold assignable
  split
  · exact hlong
  · exact hshort

theorem lexeme_kind_ne_eof (c : Char) (cs : List Char) : (lexeme c cs).kind ≠ .eof := by
  rw [lexeme]
  split
  · exact assignable_kind_ne_eof (by decide) (by decide) cs
  split
  · exact assignable_kind_ne_eof (by decide) (by decide) cs
  split
  · exact lookup_getD_ne_eof (by decide) (by decide) _
  split
  · exact TokenKind.noConfusion
  · exact lookup_getD_ne_eof (by decide) (by decide) _

/-- No token before the end of a source is of the kind `eof`. -/
theorem Scanner.kind_ne_eof_of_mem_tokens (s : Scanner) : ∀ t ∈ s.tokens, t.kind ≠ .eof := by
  fun_induction Scanner.tokens s with
  | case1 s h => intro t ht; simp at ht
  | case2 s t s' h ih =>
    intro u hu
    -- The first token is a lexeme, the others are tokens of the scanner behind it.
    rcases List.mem_cons.1 hu with rfl | hu
    · unfold Scanner.next? at h
      split at h
      · cases h
      · next c cs start hskip =>
        simp only [Option.some.injEq, Prod.mk.injEq] at h
        rw [← h.1]
        exact lexeme_kind_ne_eof c cs
    · exact ih u hu

theorem kind_ne_eof_of_mem_scan {source : String} : ∀ t ∈ scan source, t.kind ≠ .eof :=
  Scanner.kind_ne_eof_of_mem_tokens _

end LetLang
