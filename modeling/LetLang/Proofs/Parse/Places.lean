import LetLang.Proofs.Parse.Invariant
import LetLang.Proofs.Parse.Program
import LetLang.Proofs.Scan.Tokenization

/-!
# The places of errors

A parser finds an error at the token that stands next, so the errors of a run lie between the token
where the run starts and the token where it stops, in this order (`located_invariant`). Only that
an expression cannot be called is found later than the place it is said of: behind the arguments,
and of the parenthesis before them. `errors_point_into_source` says this of whole sources, where
recovery may go back to the token of the last error, but to none before it.
-/

set_option autoImplicit false

namespace LetLang

open LetLang.Parser

/-! ## Errors and the tokens they name -/

namespace ParseError

/-- Whether the error is that an expression cannot be called. -/
def isCallee : ParseError → Bool
  | .invalidCallee _ _ => true
  | _ => false

/-- The error names a token of the source or the end of it. That an expression cannot be called is
said of an opening parenthesis. -/
def PointsInto (source : String) : ParseError → Prop
  | .unexpectedToken _ t | .noOperand t | .invalidInteger t =>
      t ∈ scan source ++ [Token.eof source.utf8ByteSize]
  | .invalidCallee _ start => ∃ t ∈ scan source, t.kind = .leftParen ∧ t.start = start

/-- The places of the errors that are found where they stand. -/
def places (es : List ParseError) : List Nat := (es.filter (!·.isCallee)).map start

theorem places_append (es es' : List ParseError) :
    places (es ++ es') = places es ++ places es' := by
  rw [places, List.filter_append, List.map_append]
  rfl

end ParseError

/-! ## The order of the tokens of a source -/

/-- Every token of a source stands before the end of it. -/
theorem start_le_of_mem_scan {source : String} {t : Token} (ht : t ∈ scan source) :
    t.start ≤ source.utf8ByteSize := by
  have htokens := (Scanner.ofSource source).tokenizes_tokens
  obtain ⟨before, after, hsource, hstart⟩ := htokens.slices t ht
  have hlength :
      byteLength source.toList = byteLength before + byteLength (t.text.toList ++ after) :=
    (congrArg byteLength hsource).trans (byteLength_append _ _)
  have hzero : t.start = 0 + byteLength before := hstart
  rw [byteLength_toList] at hlength
  omega

/-- The tokens of a source stand one behind the other, and its end behind all of them. -/
theorem pairwise_start (source : String) :
    (scan source ++ [Token.eof source.utf8ByteSize]).Pairwise fun t u => t.start ≤ u.start := by
  have htokens := (Scanner.ofSource source).tokenizes_tokens
  refine List.pairwise_append.2 ⟨htokens.ordered.imp fun {t u} hle => ?_,
    List.pairwise_singleton _ _, fun t ht u hu => ?_⟩
  · exact Nat.le_trans (Nat.le_add_right _ _) hle
  · rw [List.mem_singleton.1 hu]
    exact start_le_of_mem_scan ht

namespace Cursor

/-- The cursor is a place of the source. -/
structure In (source : String) (c : Cursor) : Prop where
  suffix : c.unread <:+ scan source
  stop : c.stop = source.utf8ByteSize

variable {source : String} {c : Cursor}

theorem In.advance (h : c.In source) : c.advance.In source :=
  ⟨(List.tail_suffix c.unread).trans h.suffix, h.stop⟩

/-- The next token is a token of the source or the end of it. -/
theorem In.peek_mem (h : c.In source) :
    c.peek ∈ scan source ++ [Token.eof source.utf8ByteSize] := by
  obtain ⟨last, unread, stop⟩ := c
  obtain ⟨hsuffix, rfl⟩ := h
  cases unread with
  | nil => exact List.mem_append_right _ (List.mem_singleton_self _)
  | cons t ts => exact List.mem_append_left _ (hsuffix.subset List.mem_cons_self)

/-- The next token does not stand behind the one after it. -/
theorem In.start_le_advance (h : c.In source) : c.peek.start ≤ c.advance.peek.start := by
  obtain ⟨last, unread, stop⟩ := c
  obtain ⟨⟨front, hfront⟩, rfl⟩ := h
  have hsorted := pairwise_start source
  rw [← hfront, List.append_assoc] at hsorted
  have hleft := (List.pairwise_append.1 hsorted).2.1
  cases unread with
  | nil => exact Nat.le_refl _
  | cons t ts =>
    refine (List.pairwise_cons.1 hleft).1 _ ?_
    cases ts with
    | nil => exact List.mem_singleton_self _
    | cons u us => exact List.mem_cons_self

end Cursor

/-! ## Errors between two places -/

/-- The errors name tokens of the source, and those that are found where they stand lie in order
between the next tokens of the two cursors. -/
structure Located (source : String) (c : Cursor) (es : List ParseError) (c' : Cursor) : Prop where
  pointing : ∀ e ∈ es, e.PointsInto source
  ordered : (c.peek.start :: (ParseError.places es ++ [c'.peek.start])).Pairwise (· ≤ ·)

/-- Of two lists in order, of which the second starts where the first ends, the place where they
meet can be left out. -/
theorem pairwise_le_join {a b d : Nat} {xs ys : List Nat}
    (hxs : (a :: (xs ++ [b])).Pairwise (· ≤ ·)) (hys : (b :: (ys ++ [d])).Pairwise (· ≤ ·)) :
    (a :: (xs ++ ys ++ [d])).Pairwise (· ≤ ·) := by
  have hchain : (a :: (xs ++ b :: (ys ++ [d]))).IsChain (· ≤ ·) :=
    List.isChain_cons_split.2 ⟨hxs.isChain, hys.isChain⟩
  have hboth := List.isChain_iff_pairwise.1 hchain
  refine hboth.sublist (List.Sublist.cons_cons a ?_)
  rw [List.append_assoc]
  exact (List.Sublist.refl xs).append (List.sublist_cons_self b _)

namespace Located

variable {source : String} {c m c' : Cursor} {es es' : List ParseError}

theorem trans (h : Located source c es m) (h' : Located source m es' c') :
    Located source c (es ++ es') c' where
  pointing e he := (List.mem_append.1 he).elim (h.pointing e) (h'.pointing e)
  ordered := by
    rw [ParseError.places_append]
    exact pairwise_le_join h.ordered h'.ordered

/-- No error on the way to a later place. -/
theorem none (hle : c.peek.start ≤ c'.peek.start) : Located source c [] c' where
  pointing := List.forall_mem_nil _
  ordered := List.pairwise_pair.2 hle

/-- One error, at the token that stands next. -/
theorem here {e : ParseError} (hpoint : e.PointsInto source) (hfound : e.isCallee = false)
    (hstart : e.start = c.peek.start) : Located source c [e] c where
  pointing := List.forall_mem_singleton.2 hpoint
  ordered := by
    have hplaces : ParseError.places [e] = [c.peek.start] := by
      rw [ParseError.places, List.filter_cons_of_pos (by rw [hfound]; rfl), List.filter_nil,
        List.map_singleton, hstart]
    rw [hplaces]
    simp

/-- An error that is not said of the place where it is found. -/
theorem snoc {e : ParseError} (h : Located source c es c') (hpoint : e.PointsInto source)
    (hcallee : e.isCallee = true) : Located source c (es ++ [e]) c' where
  pointing e' he' :=
    (List.mem_append.1 he').elim (h.pointing e') fun he => List.mem_singleton.1 he ▸ hpoint
  ordered := by
    have hplaces : ParseError.places [e] = [] := by
      rw [ParseError.places, List.filter_cons_of_neg (by rw [hcallee]; decide), List.filter_nil,
        List.map_nil]
    rw [ParseError.places_append, hplaces, List.append_nil]
    exact h.ordered

end Located

/-- Within a source, the errors of a run lie between the places where it starts and stops. -/
theorem Parser.located_invariant (source : String) :
    Invariant fun c es c' => c.In source → c'.In source ∧ Located source c es c' where
  stay := fun _ hc => ⟨hc, .none (Nat.le_refl _)⟩
  trans := fun h h' hc =>
    have hm := h hc
    have hc' := h' hm.1
    ⟨hc'.1, hm.2.trans hc'.2⟩
  advance := fun _ hc => ⟨hc.advance, .none hc.start_le_advance⟩
  unexpectedToken := fun _ _ hc => ⟨hc, .here hc.peek_mem rfl rfl⟩
  noOperand := fun _ hc => ⟨hc, .here hc.peek_mem rfl rfl⟩
  invalidInteger := fun _ hc => ⟨hc, .here hc.peek_mem rfl rfl⟩
  invalidCallee := fun {c _ _} _ hparen h hc => by
    obtain ⟨hc', hlocated⟩ := h hc.advance
    have hmem : c.peek ∈ scan source := by
      rcases List.mem_append.1 hc.peek_mem with hmem | heof
      · exact hmem
      · rw [List.mem_singleton.1 heof] at hparen
        cases hparen
    have hall := (Located.none hc.start_le_advance).trans hlocated
    exact ⟨hc', hall.snoc ⟨c.peek, hmem, hparen, rfl⟩ rfl⟩

/-! ## Whole sources -/

/-- What holds of the runs of all parsers holds of the course of a program. -/
theorem Parser.Invariant.program_run {R : Cursor → List ParseError → Cursor → Prop}
    (inv : Invariant R) {c d : Cursor} {p : Program Unit} {es : List ParseError}
    (h : ProgramRun c p es d) : R c es d := by
  induction h with
  | stop _ => exact inv.stay _
  | statement _ hrun _ ih => exact inv.trans ((inv.keeps_all _).statement _ _ hrun) ih
  | @recover _ _ _ _ e _ es es' _ hrun _ ih =>
    have hbroken : R _ (es ++ [e]) _ := (inv.keeps_all _).statement _ _ hrun
    rw [List.append_cons]
    exact inv.trans hbroken (inv.trans inv.recover ih)

/-- Every error of a source names a token of it or the end of it, or is said of an opening
parenthesis of it where an expression cannot be called. But for the latter, errors are recorded in
the order of their places. -/
theorem errors_point_into_source (source : String) :
    (∀ e ∈ (parse source).errors, e.PointsInto source) ∧
      (ParseError.places (parse source).errors).Pairwise (· ≤ ·) := by
  have hstart : (Cursor.ofSource source).In source := ⟨List.suffix_refl _, rfl⟩
  obtain ⟨-, hpointing, hordered⟩ :=
    (located_invariant source).program_run (Cursor.ofSource source).parse_run hstart
  exact ⟨hpointing, (List.pairwise_append.1 (List.pairwise_cons.1 hordered).2).1⟩

/-- That `f(1)` cannot be called is found behind the error in the arguments. -/
example : (parse "f(1)(2, *)").errors.map ParseError.start = [8, 4] := by cbv

end LetLang
