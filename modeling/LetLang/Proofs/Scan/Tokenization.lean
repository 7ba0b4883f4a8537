import LetLang.Proofs.Scan.Spelling

/-!
# The tokens of a text

What it means that some tokens are the tokens of a text, said without the scanner: they are pieces
of the text in order, only blanks lie outside of them, each is spelled as its kind asks for, and
none could be longer (`Tokenizes`). The main statement is `scan_is_only_tokenization`: a text has
exactly one list of such tokens, which is what the scanner gives when it is asked again and again;
behind the last token it gives the end of the source however often it is asked.
-/

set_option autoImplicit false

namespace LetLang

/-! ## Places in a text -/

theorem byteLength_cons (c : Char) (cs : List Char) :
    byteLength (c :: cs) = c.utf8Size + byteLength cs := rfl

@[simp] theorem byteLength_append (cs ds : List Char) :
    byteLength (cs ++ ds) = byteLength cs + byteLength ds := by
  induction cs with
  | nil => exact (Nat.zero_add _).symm
  | cons c cs ih => rw [List.cons_append, byteLength_cons, byteLength_cons, ih, Nat.add_assoc]

theorem byteLength_eq_zero {cs : List Char} (h : byteLength cs = 0) : cs = [] := by
  cases cs with
  | nil => rfl
  | cons c cs =>
    rw [byteLength_cons] at h
    have hpos := c.utf8Size_pos
    omega

theorem byteLength_toList (text : String) : byteLength text.toList = text.utf8ByteSize := by
  have hlist : ∀ cs : List Char, byteLength cs = (String.ofList cs).utf8ByteSize := by
    intro cs
    induction cs with
    | nil => rfl
    | cons c cs ih =>
      have hcons : String.ofList (c :: cs) = String.singleton c ++ String.ofList cs := by
        rw [← String.toList_inj]
        simp
      rw [byteLength_cons, ih, hcons, String.utf8ByteSize_append, String.utf8ByteSize_singleton]
  rw [hlist, String.ofList_toList]

/-- Of two pieces from the start of a text, the one of fewer bytes is a piece of the other. -/
theorem append_of_byteLength_le {as bs cs ds : List Char} (h : as ++ bs = cs ++ ds)
    (hle : byteLength as ≤ byteLength cs) : ∃ es, cs = as ++ es ∧ bs = es ++ ds := by
  rcases List.append_eq_append_iff.1 h with ⟨es, hcs, hbs⟩ | ⟨es, has, hds⟩
  · exact ⟨es, hcs, hbs⟩
  · have hnil : es = [] := by
      apply byteLength_eq_zero
      rw [has, byteLength_append] at hle
      omega
    subst hnil
    rw [List.append_nil] at has
    exact ⟨[], by rw [has, List.append_nil], hds.symm⟩

/-- A character of a text that is put together lies in the first part or in the second. -/
theorem append_eq_append_cons {as bs before after : List Char} {c : Char}
    (h : as ++ bs = before ++ c :: after) :
    (∃ es, as = before ++ c :: es) ∨ ∃ es, before = as ++ es ∧ bs = es ++ c :: after := by
  rcases List.append_eq_append_iff.1 h with ⟨es, hbefore, hbs⟩ | ⟨es, has, hcons⟩
  · exact .inr ⟨es, hbefore, hbs⟩
  · cases es with
    | nil => exact .inr ⟨[], by simpa using has.symm, hcons.symm⟩
    | cons d es =>
      obtain ⟨rfl, -⟩ := List.cons.inj hcons
      exact .inl ⟨es, has⟩

namespace Token

/-- The byte behind the last one of the token. -/
def stop (t : Token) : Nat := t.start + t.text.utf8ByteSize

/-- Whether the byte belongs to the token. -/
def Covers (t : Token) (i : Nat) : Prop := t.start ≤ i ∧ i < t.stop

theorem stop_eq (t : Token) : t.stop = t.start + byteLength t.text.toList := by
  rw [stop, byteLength_toList]

end Token

/-! ## Tokenizations -/

/-- Whether `tokens` are the tokens of the text `cs`, which starts at the byte `offset`. -/
structure Tokenizes (offset : Nat) (cs : List Char) (tokens : List Token) : Prop where
  /-- A token is the piece of the text at its place. -/
  slices : ∀ t ∈ tokens, ∃ before after, cs = before ++ (t.text.toList ++ after) ∧
    t.start = offset + byteLength before
  nonempty : ∀ t ∈ tokens, t.text ≠ ""
  /-- Tokens stand in the order of their places, and do not overlap. -/
  ordered : tokens.Pairwise fun t u => t.stop ≤ u.start
  /-- A character that belongs to no token is blank. -/
  gaps : ∀ before c after, cs = before ++ c :: after →
    (∀ t ∈ tokens, ¬ t.Covers (offset + byteLength before)) → Text.isBlank c = true
  solid : ∀ t ∈ tokens, ∀ c ∈ t.text.toList, Text.isBlank c = false
  spelled : ∀ t ∈ tokens, t.kind.Spells t.text
  /-- No character behind a token makes it longer. -/
  longest : ∀ t ∈ tokens, ∀ before c after, cs = before ++ (t.text.toList ++ c :: after) →
    t.start = offset + byteLength before → t.kind.takes c = false

/-- Whether the token stands first in a text: behind the blanks `blanks` and before `rest`. -/
structure Token.Leads (t : Token) (offset : Nat) (blanks rest : List Char) : Prop where
  blank : ∀ c ∈ blanks, Text.isBlank c = true
  start : t.start = offset + byteLength blanks
  solid : ∀ c ∈ t.text.toList, Text.isBlank c = false
  spelled : t.kind.Spells t.text
  longest : ∀ c ∈ rest.head?, t.kind.takes c = false

section Leads

variable {t : Token} {offset : Nat} {blanks rest : List Char} (h : t.Leads offset blanks rest)

include h

theorem Token.Leads.stop_eq : t.stop = offset + byteLength (blanks ++ t.text.toList) := by
  rw [t.stop_eq, h.start, byteLength_append]
  omega

/-- The places behind the first token. -/
theorem Token.Leads.place (before : List Char) :
    offset + byteLength ((blanks ++ t.text.toList) ++ before) = t.stop + byteLength before := by
  rw [h.stop_eq, byteLength_append]
  omega

/-- What stands before a place behind the first token starts with that token. -/
theorem Token.Leads.split {before cs : List Char} (hle : t.stop ≤ offset + byteLength before)
    (hcs : blanks ++ (t.text.toList ++ rest) = before ++ cs) :
    ∃ between, before = (blanks ++ t.text.toList) ++ between ∧ rest = between ++ cs := by
  rw [h.stop_eq] at hle
  rw [← List.append_assoc] at hcs
  exact append_of_byteLength_le hcs (Nat.le_of_add_le_add_left hle)

end Leads

theorem tokenizes_nil {offset : Nat} {cs : List Char} :
    Tokenizes offset cs [] ↔ ∀ c ∈ cs, Text.isBlank c = true := by
  constructor
  · intro h c hc
    obtain ⟨before, after, rfl⟩ := List.append_of_mem hc
    exact h.gaps before c after rfl (by simp)
  · intro h
    refine ⟨by simp, by simp, .nil, ?_, by simp, by simp, by simp⟩
    intro before c after hcs _
    exact h c (by rw [hcs]; simp)

namespace Tokenizes

variable {offset : Nat} {blanks rest : List Char} {t : Token} {ts : List Token}

/-- Tokens start within the text. -/
theorem offset_le {cs : List Char} {u : Token} (h : Tokenizes offset cs ts) (hu : u ∈ ts) :
    offset ≤ u.start := by
  obtain ⟨before, after, -, hstart⟩ := h.slices u hu
  omega

/-- The first token stands behind blanks. -/
theorem leads {cs : List Char} (h : Tokenizes offset cs (t :: ts)) :
    ∃ blanks rest, cs = blanks ++ (t.text.toList ++ rest) ∧ t.Leads offset blanks rest := by
  obtain ⟨blanks, rest, hcs, hstart⟩ := h.slices t List.mem_cons_self
  refine ⟨blanks, rest, hcs, ?_, hstart, h.solid t List.mem_cons_self,
    h.spelled t List.mem_cons_self, ?_⟩
  · intro c hc
    obtain ⟨before, after, rfl⟩ := List.append_of_mem hc
    refine h.gaps before c (after ++ (t.text.toList ++ rest)) (by rw [hcs]; simp) ?_
    -- The character lies before the first token, and so before all of them.
    have hlt : offset + byteLength before < t.start := by
      have hpos := c.utf8Size_pos
      rw [hstart, byteLength_append, byteLength_cons]
      omega
    rintro u hu ⟨hle, -⟩
    rcases List.mem_cons.1 hu with rfl | hu
    · omega
    · have hge := (List.pairwise_cons.1 h.ordered).1 u hu
      rw [Token.stop] at hge
      omega
  · intro c hc
    obtain ⟨after, rfl⟩ := List.head?_eq_some_iff.1 hc
    exact h.longest t List.mem_cons_self blanks c after hcs hstart

/-- The other tokens are those of the text behind the first. -/
theorem tail (ht : t.Leads offset blanks rest)
    (h : Tokenizes offset (blanks ++ (t.text.toList ++ rest)) (t :: ts)) :
    Tokenizes t.stop rest ts := by
  obtain ⟨hafter, hordered⟩ := List.pairwise_cons.1 h.ordered
  have hmem := fun {u} (hu : u ∈ ts) => List.mem_cons_of_mem t hu
  refine ⟨?_, fun u hu => h.nonempty u (hmem hu), hordered, ?_, fun u hu => h.solid u (hmem hu),
    fun u hu => h.spelled u (hmem hu), ?_⟩
  · -- A later token starts behind the first, so its piece of the text lies in the rest.
    intro u hu
    obtain ⟨before, after, hcs, hstart⟩ := h.slices u (hmem hu)
    obtain ⟨between, rfl, hrest⟩ := ht.split (hstart ▸ hafter u hu) hcs
    exact ⟨between, after, hrest, hstart.trans (ht.place between)⟩
  · intro before c after hrest hfree
    refine h.gaps ((blanks ++ t.text.toList) ++ before) c after (by rw [hrest]; simp) ?_
    rw [ht.place]
    intro u hu hcovers
    rcases List.mem_cons.1 hu with rfl | hu
    · exact absurd hcovers.2 (by omega)
    · exact hfree u hu hcovers
  · intro u hu before c after hrest hstart
    exact h.longest u (hmem hu) ((blanks ++ t.text.toList) ++ before) c after
      (by rw [hrest]; simp) (hstart.trans (ht.place before).symm)

/-- A token before the tokens of a text. -/
theorem cons (ht : t.Leads offset blanks rest) (h : Tokenizes t.stop rest ts) :
    Tokenizes offset (blanks ++ (t.text.toList ++ rest)) (t :: ts) := by
  refine ⟨?_, ?_, List.pairwise_cons.2 ⟨fun u hu => h.offset_le hu, h.ordered⟩, ?_, ?_, ?_, ?_⟩
  · intro u hu
    rcases List.mem_cons.1 hu with rfl | hu
    · exact ⟨blanks, rest, rfl, ht.start⟩
    · obtain ⟨before, after, hrest, hstart⟩ := h.slices u hu
      exact ⟨(blanks ++ t.text.toList) ++ before, after, by rw [hrest]; simp,
        hstart.trans (ht.place before).symm⟩
  · intro u hu
    rcases List.mem_cons.1 hu with rfl | hu
    · exact ht.spelled.ne_empty
    · exact h.nonempty u hu
  · -- A character that no token covers lies before the first token or behind it.
    intro before c after hcs hfree
    rcases append_eq_append_cons hcs with ⟨es, hblanks⟩ | ⟨es, rfl, hbehind⟩
    · exact ht.blank c (by rw [hblanks]; simp)
    rcases append_eq_append_cons hbehind with ⟨fs, htext⟩ | ⟨fs, rfl, hrest⟩
    · -- The character lies in the first token.
      refine absurd ?_ (hfree t List.mem_cons_self)
      have hpos := c.utf8Size_pos
      constructor
      · rw [ht.start, byteLength_append]
        omega
      · rw [t.stop_eq, ht.start, htext, byteLength_append, byteLength_append, byteLength_cons]
        omega
    · refine h.gaps fs c after hrest fun u hu hcovers => ?_
      refine hfree u (List.mem_cons_of_mem t hu) ?_
      rwa [← List.append_assoc, ht.place]
  · intro u hu
    rcases List.mem_cons.1 hu with rfl | hu
    · exact ht.solid
    · exact h.solid u hu
  · intro u hu
    rcases List.mem_cons.1 hu with rfl | hu
    · exact ht.spelled
    · exact h.spelled u hu
  · intro u hu before c after hcs hstart
    rcases List.mem_cons.1 hu with rfl | hu
    · -- The place of the token fixes what stands before it.
      have hbefore : byteLength blanks = byteLength before := by
        have hstart' := ht.start
        omega
      obtain ⟨es, rfl, hes⟩ := append_of_byteLength_le hcs (Nat.le_of_eq hbefore)
      have hnil : es = [] := by
        apply byteLength_eq_zero
        rw [byteLength_append] at hbefore
        omega
      subst hnil
      exact ht.longest c (by rw [List.append_cancel_left hes]; rfl)
    · obtain ⟨between, rfl, hrest⟩ := ht.split (hstart ▸ h.offset_le hu) hcs
      exact h.longest u hu between c after hrest (hstart.trans (ht.place between))

end Tokenizes

/-! ## The scanner -/

namespace Scanner

variable {s s' : Scanner} {t : Token} {c : Char} {cs : List Char}

theorem next?_eq_none (h : ∀ c ∈ s.unread, Text.isBlank c = true) : s.next? = none := by
  have hdrop : s.unread.dropWhile Text.isBlank = [] := List.dropWhile_eq_nil_iff.2 h
  rw [next?, skipBlanks, hdrop]

theorem blank_of_next?_eq_none (h : s.next? = none) : ∀ c ∈ s.unread, Text.isBlank c = true := by
  unfold next? at h
  split at h
  · next hskip =>
    exact List.dropWhile_eq_nil_iff.1 (congrArg Scanner.unread hskip)
  · cases h

/-- A token behind blanks is the next one. -/
theorem next?_of_leads {offset : Nat} {blanks rest : List Char} (h : t.Leads offset blanks rest) :
    next? ⟨blanks ++ (t.text.toList ++ rest), offset⟩ = some (t, ⟨rest, t.stop⟩) := by
  obtain ⟨kind, text, start⟩ := t
  obtain ⟨hblank, rfl, hsolid, hspelled, hlongest⟩ := h
  simp only at hsolid hspelled hlongest ⊢
  cases htext : text.toList with
  | nil => exact absurd (String.toList_eq_nil_iff.1 htext) hspelled.ne_empty
  | cons c cs =>
    have hc : Text.isBlank c = false := hsolid c (by rw [htext]; exact List.mem_cons_self)
    have hlexeme := lexeme_of_spells hspelled htext hlongest
    have hhead : ∀ d ∈ (c :: (cs ++ rest)).head?, Text.isBlank d = false := by
      intro d hd
      obtain rfl : c = d := Option.some.inj hd
      exact hc
    obtain ⟨htake, hdrop⟩ := takeWhile_append_of_head hblank hhead
    rw [next?, skipBlanks, List.cons_append, htake, hdrop]
    simp only [hlexeme, ← htext, String.ofList_toList, Token.stop_eq]

/-- The next token stands behind blanks, and the scanner goes on behind it. -/
theorem leads_of_next? (h : s.next? = some (t, s')) :
    ∃ blanks, s.unread = blanks ++ (t.text.toList ++ s'.unread) ∧
      t.Leads s.offset blanks s'.unread ∧ s'.offset = t.stop := by
  unfold next? at h
  split at h
  · cases h
  · next c cs start hskip =>
    simp only [Option.some.injEq, Prod.mk.injEq] at h
    obtain ⟨rfl, rfl⟩ := h
    obtain ⟨hdrop, hstart⟩ := Scanner.mk.inj hskip
    obtain ⟨hspelled, hlongest⟩ := lexeme_spells c cs
    have hc : Text.isBlank c = false := head?_dropWhile s.unread c (by rw [hdrop]; rfl)
    refine ⟨s.unread.takeWhile Text.isBlank, ?_, ⟨?_, hstart.symm, ?_, hspelled, hlongest⟩, ?_⟩
    · rw [String.toList_ofList, List.cons_append, lexeme_tail_append_rest, ← hdrop,
        List.takeWhile_append_dropWhile]
    · exact fun d hd => List.all_eq_true.1 List.all_takeWhile d hd
    · exact hspelled.not_blank String.toList_ofList hc
    · rw [Token.stop_eq, String.toList_ofList]

/-- The tokens of the scanner are tokens of the text that is left. -/
theorem tokenizes_tokens (s : Scanner) : Tokenizes s.offset s.unread s.tokens := by
  fun_induction Scanner.tokens s with
  | case1 s h => exact tokenizes_nil.2 (blank_of_next?_eq_none h)
  | case2 s t s' h ih =>
    obtain ⟨blanks, hunread, hleads, hoffset⟩ := leads_of_next? h
    rw [hunread]
    exact .cons hleads (hoffset ▸ ih)

/-- Tokens of a text are what the scanner gives. -/
theorem eq_tokens_of_tokenizes {offset : Nat} {cs : List Char} {ts : List Token}
    (h : Tokenizes offset cs ts) : ts = tokens ⟨cs, offset⟩ := by
  induction ts generalizing offset cs with
  | nil => rw [tokens_of_next?_eq_none (next?_eq_none (tokenizes_nil.1 h))]
  | cons t ts ih =>
    obtain ⟨blanks, rest, rfl, hleads⟩ := h.leads
    rw [tokens_of_next?_eq_some (next?_of_leads hleads), ← ih (h.tail hleads)]

/-! ## Repeated calls -/

/-- The token that the scanner gives when it has been asked for `n` others. -/
def nth : Nat → Scanner → Token
  | 0, s => s.next.1
  | n + 1, s => nth n s.next.2

/-- Behind a token the source ends where it ends before it. -/
theorem atEnd_of_next? (h : s.next? = some (t, s')) : s'.atEnd = s.atEnd := by
  obtain ⟨blanks, hunread, hleads, hoffset⟩ := leads_of_next? h
  rw [atEnd, atEnd, hoffset, hunread, ← List.append_assoc, hleads.place]

/-- At the end of the source the scanner gives the token `eof` and stays there. -/
theorem next_of_next?_eq_none (h : s.next? = none) :
    s.next = (Token.eof s.atEnd.offset, s.atEnd) := by
  have hblank := blank_of_next?_eq_none h
  have hskip : s.skipBlanks = s.atEnd := by
    rw [skipBlanks, atEnd, List.dropWhile_eq_nil_iff.2 hblank, List.takeWhile_eq_self_iff.2 hblank]
  rw [next, h, hskip, Option.getD_none]

theorem nth_eq (n : Nat) (s : Scanner) :
    s.nth n = s.tokens[n]?.getD (Token.eof s.atEnd.offset) := by
  induction n generalizing s with
  | zero =>
    cases h : s.next? with
    | none => simp [nth, next_of_next?_eq_none h, tokens_of_next?_eq_none h]
    | some r => simp [nth, next, h, tokens_of_next?_eq_some h]
  | succ n ih =>
    cases h : s.next? with
    | none =>
      -- The end of the source is behind itself.
      have hend : s.atEnd.tokens = [] := tokens_of_next?_eq_none (next?_eq_none (by simp [atEnd]))
      rw [nth, next_of_next?_eq_none h, ih, hend, tokens_of_next?_eq_none h]
      rfl
    | some r =>
      have hnext : s.next = r := by rw [next, h, Option.getD_some]
      rw [nth, hnext, ih, atEnd_of_next? h, tokens_of_next?_eq_some h, List.getElem?_cons_succ]

end Scanner

/-- The scanner finds the only tokens that a source has: they are the pieces of it that lie in order
outside of its blanks, are spelled as their kinds ask for and cannot be longer. Asked again and
again, it gives one after another, and behind the last the end of the source. -/
theorem scan_is_only_tokenization (source : String) :
    (∀ tokens, Tokenizes 0 source.toList tokens ↔ tokens = scan source) ∧
    ∀ n, (Scanner.ofSource source).nth n =
      (scan source)[n]?.getD ⟨.eof, "", source.utf8ByteSize⟩ := by
  refine ⟨fun tokens => ⟨Scanner.eq_tokens_of_tokenizes, ?_⟩, fun n => ?_⟩
  · rintro rfl
    exact (Scanner.ofSource source).tokenizes_tokens
  · have hend : (Scanner.ofSource source).atEnd.offset = source.utf8ByteSize := by
      rw [Scanner.atEnd, Scanner.ofSource, byteLength_toList, Nat.zero_add]
    rw [Scanner.nth_eq, hend, scan, Token.eof]

/-- A sign takes one equals sign and leaves the next, and a character of two bytes moves the tokens
behind it. -/
example : scan "=== é x" =
    [⟨.equal, "==", 0⟩, ⟨.assign, "=", 2⟩, ⟨.illegal, "é", 4⟩, ⟨.identifier, "x", 7⟩] := by
  cbv

end LetLang
