import LetLang.Proofs.Parse.Moved
import LetLang.Proofs.Scan.Tokenization

/-!
# The tokens of two texts one after another

Tokens are pieces of a text at their places, so a text that starts at a later byte has the same
tokens at later places (`Tokenizes.moved`), and the tokens of two texts are tokens of both together
if the first character of the second text does not belong to the last token of the first
(`Tokenizes.append`). For sources this is `scan_append`. The condition is needed: a token that the
second source continues is not a token of both (`not_mem_scan_append`). `scan_append_iff_uncut` is
the main statement, that the tokens are those of both sources exactly if the seam cuts none.
-/

set_option autoImplicit false

namespace LetLang

variable {offset : Nat} {blanks rest : List Char} {t : Token}

theorem Token.stop_moved (t : Token) (n : Nat) : (t.moved (· + n)).stop = t.stop + n :=
  Nat.add_right_comm t.start n t.text.utf8ByteSize

namespace Token.Leads

/-- The same text at a later byte. -/
theorem moved (h : t.Leads offset blanks rest) (n : Nat) :
    (t.moved (· + n)).Leads (offset + n) blanks rest where
  blank := h.blank
  start := (congrArg (· + n) h.start).trans (Nat.add_right_comm _ _ _)
  solid := h.solid
  spelled := h.spelled
  longest := h.longest

/-- More blanks before the token. -/
theorem behind {before : List Char} (hbefore : ∀ c ∈ before, Text.isBlank c = true)
    (h : t.Leads (offset + byteLength before) blanks rest) :
    t.Leads offset (before ++ blanks) rest where
  blank := by
    intro c hc
    rcases List.mem_append.1 hc with hc | hc
    · exact hbefore c hc
    · exact h.blank c hc
  start := by rw [h.start, byteLength_append, Nat.add_assoc]
  solid := h.solid
  spelled := h.spelled
  longest := h.longest

end Token.Leads

namespace Tokenizes

variable {cs ds : List Char} {ts us : List Token}

theorem moved (h : Tokenizes offset cs ts) (n : Nat) :
    Tokenizes (offset + n) cs (ts.map (Token.moved (· + n))) := by
  induction ts generalizing offset cs with
  | nil => exact tokenizes_nil.2 (tokenizes_nil.1 h)
  | cons t ts ih =>
    obtain ⟨blanks, rest, rfl, hleads⟩ := h.leads
    refine .cons (hleads.moved n) ?_
    rw [t.stop_moved]
    exact ih (h.tail hleads)

/-- Blanks before a text have no tokens. -/
theorem behind_blanks (hcs : ∀ c ∈ cs, Text.isBlank c = true)
    (h : Tokenizes (offset + byteLength cs) ds us) : Tokenizes offset (cs ++ ds) us := by
  cases us with
  | nil =>
    refine tokenizes_nil.2 fun c hc => ?_
    rcases List.mem_append.1 hc with hc | hc
    · exact hcs c hc
    · exact tokenizes_nil.1 h c hc
  | cons u us =>
    obtain ⟨blanks, rest, rfl, hleads⟩ := h.leads
    rw [← List.append_assoc]
    exact .cons (hleads.behind hcs) (h.tail hleads)

theorem eq_nil_of_nil (h : Tokenizes offset [] ts) : ts = [] := by
  cases ts with
  | nil => rfl
  | cons t ts =>
    obtain ⟨blanks, rest, hcs, hleads⟩ := h.leads
    obtain ⟨-, htext⟩ := List.append_eq_nil_iff.1 hcs.symm
    rw [List.append_eq_nil_iff, String.toList_eq_nil_iff] at htext
    exact absurd htext.1 hleads.spelled.ne_empty

/-- The tokens of two texts, if the first character of the second is not taken by a token that ends
where the first text ends. -/
theorem append (hcs : Tokenizes offset cs ts) (hds : Tokenizes (offset + byteLength cs) ds us)
    (hseam : ∀ t ∈ ts.getLast?, t.stop = offset + byteLength cs →
      ∀ c ∈ ds.head?, t.kind.takes c = false) :
    Tokenizes offset (cs ++ ds) (ts ++ us) := by
  induction ts generalizing offset cs with
  | nil => exact hds.behind_blanks (tokenizes_nil.1 hcs)
  | cons t ts ih =>
    obtain ⟨blanks, rest, rfl, hleads⟩ := hcs.leads
    have htail := hcs.tail hleads
    have hplace : offset + byteLength (blanks ++ (t.text.toList ++ rest)) =
        t.stop + byteLength rest := by
      rw [← List.append_assoc, hleads.place]
    rw [hplace] at hds hseam
    have hlonger : t.Leads offset blanks (rest ++ ds) := by
      refine { hleads with longest := fun c hc => ?_ }
      cases rest with
      | nil =>
        -- The token is the last one, and ends where the first text ends.
        obtain rfl := htail.eq_nil_of_nil
        exact hseam t rfl rfl c hc
      | cons d rest => exact hleads.longest c hc
    rw [List.append_assoc, List.append_assoc]
    refine .cons hlonger (ih htail hds fun u hu => hseam u ?_)
    rw [List.getLast?_cons, Option.mem_def.1 hu]
    rfl

end Tokenizes

/-- The tokens of two sources, of which the second does not continue the last token of the first. -/
theorem scan_append {first second : String}
    (hseam : ∀ t ∈ (scan first).getLast?, t.stop = first.utf8ByteSize →
      ∀ c ∈ second.toList.head?, t.kind.takes c = false) :
    scan (first ++ second) =
      scan first ++ (scan second).map (Token.moved (· + first.utf8ByteSize)) := by
  have hfirst : Tokenizes 0 first.toList (scan first) :=
    (Scanner.ofSource first).tokenizes_tokens
  have hsecond : Tokenizes (0 + byteLength first.toList) second.toList
      ((scan second).map (Token.moved (· + first.utf8ByteSize))) := by
    rw [byteLength_toList]
    exact (Scanner.ofSource second).tokenizes_tokens.moved first.utf8ByteSize
  have hboth : Tokenizes 0 (first ++ second).toList
      (scan first ++ (scan second).map (Token.moved (· + first.utf8ByteSize))) := by
    rw [String.toList_append]
    refine hfirst.append hsecond fun t ht hstop => hseam t ht ?_
    rw [hstop, Nat.zero_add, byteLength_toList]
  exact (Scanner.eq_tokens_of_tokenizes hboth).symm

/-- A semicolon takes nothing. -/
theorem scan_append_of_closed {first second : String}
    (hlast : ∀ t ∈ (scan first).getLast?, t.kind = .semicolon) :
    scan (first ++ second) =
      scan first ++ (scan second).map (Token.moved (· + first.utf8ByteSize)) := by
  refine scan_append fun t ht _ c _ => ?_
  rw [hlast t ht]
  rfl

theorem scan_append_of_apart {first second : String} (hsecond : Apart second.toList) :
    scan (first ++ second) =
      scan first ++ (scan second).map (Token.moved (· + first.utf8ByteSize)) :=
  scan_append fun _ _ _ => hsecond.head fun _ => TokenKind.continuesWord_of_takes

theorem continuesWord_of_isBlank {c : Char} (h : Text.isBlank c = true) :
    continuesWord c = false := by
  rw [Bool.eq_false_iff]
  intro hcontinues
  simp only [continuesWord, Bool.or_eq_true, beq_iff_eq] at hcontinues
  have hrange : 48 ≤ c.toNat ∧ c.toNat ≤ 122 := by
    rcases hcontinues with (halpha | hdigit) | rfl
    · obtain ⟨hlow, hhigh⟩ := toNat_of_isAlpha halpha
      omega
    · obtain ⟨hlow, hhigh⟩ := toNat_of_isDigit hdigit
      omega
    · decide
  rw [isBlank_eq_false hrange.1 hrange.2] at h
  cases h

/-- A source that starts with a semicolon continues no token before it. -/
theorem apart_of_semicolon {source : String} {ts : List Token}
    (hscan : scan source = t :: ts) (ht : t.kind = .semicolon) : Apart source.toList := by
  have htokens : Tokenizes 0 source.toList (t :: ts) :=
    hscan ▸ (Scanner.ofSource source).tokenizes_tokens
  obtain ⟨blanks, rest, hsource, hleads⟩ := htokens.leads
  rw [hsource]
  cases blanks with
  | cons c blanks => exact continuesWord_of_isBlank (hleads.blank c List.mem_cons_self)
  | nil =>
    have hspelled := hleads.spelled
    rw [ht] at hspelled
    cases hspelled with
    | fixed hspelling =>
      rw [← Option.some.inj hspelling]
      exact apart_cons (by decide)

/-- The tokens around a semicolon: the second source has no other token. -/
theorem scan_around_semicolon (b r : String) {s : String}
    (hs : (scan s).map Token.kind = [.semicolon]) :
    ∃ t, t.kind = .semicolon ∧ scan (b ++ s) = scan b ++ [t] ∧
      scan (b ++ s ++ r) =
        scan b ++ t :: (scan r).map (Token.moved (· + (b ++ s).utf8ByteSize)) := by
  obtain ⟨t, ht, hkind⟩ := List.map_eq_singleton_iff.1 hs
  have hfirst : scan (b ++ s) = scan b ++ [t.moved (· + b.utf8ByteSize)] := by
    rw [scan_append_of_apart (apart_of_semicolon ht hkind), ht]
    rfl
  refine ⟨t.moved (· + b.utf8ByteSize), hkind, hfirst, ?_⟩
  have hlast : ∀ u ∈ (scan (b ++ s)).getLast?, u.kind = .semicolon := by
    intro u hu
    rw [hfirst, List.getLast?_append] at hu
    cases hu
    exact hkind
  rw [scan_append_of_closed hlast, hfirst, List.append_assoc]
  rfl

/-! ## Where a token is cut -/

/-- Whether the seam between two sources cuts a token: the last token of the first source reaches
its end, and is a word before a letter, an integer before a digit, or one of the signs that take an
equals sign before that sign. -/
def CutsToken (first second : String) : Prop :=
  ∃ t ∈ (scan first).getLast?, t.stop = first.utf8ByteSize ∧ ∃ c ∈ second.toList.head?,
    (t.kind = .identifier ∨ t.kind ∈ TokenKind.words) ∧ c.isAlpha = true ∨
      t.kind = .integer ∧ c.isDigit = true ∨ (t.kind = .assign ∨ t.kind = .bang) ∧ c = '='

/-- A token that reaches the end of its source is not the same token before a character that makes
it longer. -/
theorem not_mem_scan_append {first second : String} {t : Token} {c : Char}
    (ht : t ∈ scan first) (hstop : t.stop = first.utf8ByteSize) (hc : c ∈ second.toList.head?)
    (htakes : t.kind.takes c = true) : t ∉ scan (first ++ second) := by
  intro hmem
  have hfirst : Tokenizes 0 first.toList (scan first) :=
    (Scanner.ofSource first).tokenizes_tokens
  have hboth : Tokenizes 0 (first ++ second).toList (scan (first ++ second)) :=
    (Scanner.ofSource (first ++ second)).tokenizes_tokens
  obtain ⟨before, after, htext, hstart⟩ := hfirst.slices t ht
  obtain ⟨rest, hsecond⟩ := List.head?_eq_some_iff.1 hc
  -- Nothing of the first source is left behind the token.
  have hafter : after = [] := by
    apply byteLength_eq_zero
    have hlength := congrArg byteLength htext
    rw [byteLength_toList, byteLength_append, byteLength_append] at hlength
    rw [t.stop_eq] at hstop
    omega
  have hlonger : (first ++ second).toList = before ++ (t.text.toList ++ c :: rest) := by
    rw [String.toList_append, htext, hafter, hsecond, List.append_nil, List.append_assoc]
  rw [hboth.longest t hmem before c rest hlonger hstart] at htakes
  cases htakes

/-- The tokens of two sources one after another are those of both, exactly if the seam cuts no
token. -/
theorem scan_append_iff_uncut (first second : String) :
    scan (first ++ second) =
        scan first ++ (scan second).map (Token.moved (· + first.utf8ByteSize)) ↔
      ¬ CutsToken first second := by
  constructor
  · rintro heq ⟨t, ht, hstop, c, hc, hcut⟩
    have hmem : t ∈ scan first := List.mem_of_getLast? ht
    refine not_mem_scan_append hmem hstop hc (TokenKind.takes_iff.2 hcut) ?_
    rw [heq]
    exact List.mem_append_left _ hmem
  · intro huncut
    refine scan_append fun t ht hstop c hc => ?_
    rw [Bool.eq_false_iff]
    intro htakes
    exact huncut ⟨t, ht, hstop, c, hc, TokenKind.takes_iff.1 htakes⟩

example : scan ("a =" ++ "= b") =
    [⟨.identifier, "a", 0⟩, ⟨.equal, "==", 2⟩, ⟨.identifier, "b", 5⟩] := by cbv

end LetLang
