import LetLang.Proofs.Evaluation.Sequence
import LetLang.Proofs.Parse.Completeness
import LetLang.Proofs.Parse.Sequence
import LetLang.Proofs.Scan.Spelling
import LetLang.Run.Basic

/-!
# Lines one after another

Lines that are run one after the other in one world do what a single source of these lines does: its
program consists of the statements of all lines, and evaluating them in a row passes the heap on as
the world does between two lines. This holds for lines that end with a semicolon and run through,
and the last line may end in any way. Lines with parse errors leave the world as it is and can be
left out.
-/

set_option autoImplicit false

namespace LetLang

/-! ## Sources one after another -/

theorem parse?_eq_ok_iff_derives {source : String} {p : Program Unit} :
    parse? source = .ok p ↔ Grammar.Statements (wordsOf source.toList) p [] :=
  parse?_eq_ok.trans parse_eq_iff_derives

/-- The program of a source without errors has a statement if the source has a token. -/
theorem ne_nil_of_parse? {source : String} {p : Program Unit} (hparse : parse? source = .ok p)
    (htoken : scan source ≠ []) : p ≠ [] := by
  rintro rfl
  have hderives := parse?_eq_ok_iff_derives.1 hparse
  rw [← map_word_scan] at hderives
  generalize hwords : (scan source).map Token.word = words at hderives
  cases hderives
  exact htoken (List.map_eq_nil_iff.1 hwords)

/-- The last token of a source is a semicolon. -/
def EndsWithSemicolon (source : String) : Prop :=
  ∃ t ∈ (scan source).getLast?, t.kind = .semicolon

/-- Two sources with a line break between them, the first of which ends with a semicolon. -/
theorem parse?_lines {first second : String} {p p' : Program Unit}
    (hfirst : parse? first = .ok p) (hclosed : EndsWithSemicolon first)
    (hsecond : parse? second = .ok p') : parse? (first ++ "\n" ++ second) = .ok (p ++ p') := by
  have hwords : wordsOf (first ++ "\n" ++ second).toList =
      wordsOf first.toList ++ wordsOf second.toList := by
    have hbreak : (first ++ "\n" ++ second).toList = first.toList ++ '\n' :: second.toList := by
      simp
    -- A line break is blank and continues no word.
    rw [hbreak, wordsOf_append _ (apart_cons rfl), wordsOf_blank rfl]
  have hlast : Grammar.Closed (wordsOf first.toList) := by
    obtain ⟨t, ht, hkind⟩ := hclosed
    exact Grammar.closed_map_word ht hkind
  rw [parse?_eq_ok_iff_derives] at hfirst hsecond ⊢
  rw [hwords]
  exact hfirst.append hlast hsecond

/-! ## Lines in a world -/

/-- Whether a source has no parse errors. -/
def parses (source : String) : Bool := (parse source).errors.isEmpty

theorem parses_iff {source : String} : parses source = true ↔ ∃ p, parse? source = .ok p := by
  rw [parses, List.isEmpty_iff]
  exact ⟨fun h => ⟨_, parse?_eq_ok.2 ⟨h, rfl⟩⟩, fun ⟨_, h⟩ => (parse?_eq_ok.1 h).1⟩

namespace World

/-- A source has a result in a world, which becomes another one. -/
def Gives (w : World) (source : String) (result : Except RunError (Value Unit)) (w' : World) :
    Prop :=
  ∃ depth, w.run depth source = some (result, w')

/-- Lines have results one after the other, each in the world that the one before it has left. -/
inductive Replies : World → List String → List (Except RunError (Value Unit)) → World → Prop
  | nil {w : World} : Replies w [] [] w
  | cons {w w' w'' : World} {line : String} {lines : List String}
      {result : Except RunError (Value Unit)} {results : List (Except RunError (Value Unit))} :
      w.Gives line result w' → Replies w' lines results w'' →
      Replies w (line :: lines) (result :: results) w''

/-- A source runs to the end of its program, without an error and without a `return` outside all
functions. -/
def RunsThrough (w : World) (source : String) : Prop :=
  ∃ program depth v h,
    parse? source = .ok program ∧ Eval.block depth w.env program w.heap = some (.ok v, h)

variable {w w' u : World} {line : String} {result : Except RunError (Value Unit)}
  {results : List (Except RunError (Value Unit))}

theorem gives_iff_of_ok {p : Program Unit} (hparse : parse? line = .ok p) :
    w.Gives line result w' ↔ ∃ depth r h, Eval.block depth w.env p w.heap = some (r, h) ∧
      result = (Unwind.settle r).mapError .evaluation ∧ w' = ⟨h, w.env⟩ := by
  have hrun : ∀ depth, w.run depth line = (Eval.block depth w.env p w.heap).map fun out =>
      ((Unwind.settle out.1).mapError .evaluation, ⟨out.2, w.env⟩) := by
    intro depth
    rw [run, hparse]
    exact Option.map_map _ _ _
  unfold Gives
  simp only [hrun, Option.map_eq_some_iff, Prod.mk.injEq, Prod.exists]
  constructor
  · rintro ⟨depth, r, h, hblock, rfl, rfl⟩
    exact ⟨depth, r, h, hblock, rfl, rfl⟩
  · rintro ⟨depth, r, h, hblock, rfl, rfl⟩
    exact ⟨depth, r, h, hblock, rfl, rfl⟩

/-- A line with parse errors has these as its result, and leaves the world as it is. -/
theorem gives_iff_of_not_parses (hline : parses line = false) :
    w.Gives line result w' ↔ result = .error (.parse (parse line).errors) ∧ w' = w := by
  have hne : (parse line).errors ≠ [] := by
    intro hnil
    rw [parses, hnil] at hline
    cases hline
  have hrun : ∀ depth, w.run depth line = some (.error (.parse (parse line).errors), w) := by
    intro depth
    rw [run, parse?_eq_error.2 ⟨rfl, hne⟩]
  constructor
  · rintro ⟨depth, hgives⟩
    rw [hrun] at hgives
    cases hgives
    exact ⟨rfl, rfl⟩
  · rintro ⟨rfl, rfl⟩
    exact ⟨0, hrun 0⟩

theorem Replies.eq_of_not_parses {lines : List String} (hreplies : w.Replies lines results w')
    (hlines : ∀ l ∈ lines, parses l = false) : w' = w := by
  induction hreplies with
  | nil => rfl
  | cons hgives _ ih =>
    rw [ih fun l hl => hlines l (List.mem_cons_of_mem _ hl)]
    exact ((gives_iff_of_not_parses (hlines _ List.mem_cons_self)).1 hgives).2

/-- Lines and those behind them meet in a world. -/
theorem Replies.split : ∀ {lines lines' : List String}
    {results : List (Except RunError (Value Unit))} {w : World},
    w.Replies (lines ++ lines') results w' → ∃ front back u, results = front ++ back ∧
      front.length = lines.length ∧ w.Replies lines front u ∧ u.Replies lines' back w'
  | [], _, results, w, h => ⟨[], results, w, rfl, rfl, .nil, h⟩
  | _ :: _, _, _, _, .cons hgives hreplies => by
    obtain ⟨front, back, u, rfl, hlength, hfront, hback⟩ := hreplies.split
    exact ⟨_ :: front, back, u, rfl, by simp [hlength], .cons hgives hfront, hback⟩

/-- What a line that runs through makes of the world. -/
theorem RunsThrough.block {p : Program Unit} (hthrough : w.RunsThrough line)
    (hparse : parse? line = .ok p) (hgives : w.Gives line result w') :
    ∃ depth v, Eval.block depth w.env p w.heap = some (.ok v, w'.heap) ∧ w'.env = w.env := by
  obtain ⟨p', depth, v, h, hparse', hblock⟩ := hthrough
  obtain rfl : p = p' := Except.ok.inj (hparse.symm.trans hparse')
  obtain ⟨depth', r, h', hblock', -, rfl⟩ := (gives_iff_of_ok hparse).1 hgives
  have hsome := Eval.block_le (Nat.le_max_left depth depth') _ _ _ _ hblock
  have hsome' := Eval.block_le (Nat.le_max_right depth depth') _ _ _ _ hblock'
  rw [hsome', Option.some.injEq, Prod.mk.injEq] at hsome
  obtain ⟨rfl, rfl⟩ := hsome
  exact ⟨depth', v, hblock', rfl⟩

/-- The lines without parse errors, and a program that is run behind them, as one program. -/
theorem Replies.joined {lines : List String} (hreplies : w.Replies lines results u)
    (hclosed : ∀ l ∈ lines, parses l = true → EndsWithSemicolon l)
    (hthrough : ∀ front l back results' v, lines = front ++ l :: back → parses l = true →
      w.Replies front results' v → v.RunsThrough l)
    {program : Program Unit} {depth : Nat}
    {out : Except (Unwind Unit) (Value Unit) × Heap Unit} (hparse : parse? line = .ok program)
    (hprogram : program ≠ []) (hrun : Eval.block depth u.env program u.heap = some out) :
    u.env = w.env ∧ ∃ p depth', p ≠ [] ∧
      parse? ("\n".intercalate (lines.filter parses ++ [line])) = .ok p ∧
      Eval.block depth' w.env p w.heap = some out := by
  induction hreplies with
  | nil => exact ⟨rfl, program, depth, hprogram, by rwa [List.filter_nil, List.nil_append,
      String.intercalate_singleton], hrun⟩
  | @cons w w' u l lines result results hgives hreplies ih =>
    obtain ⟨henv, p', depth', hp', hparse', hrun'⟩ := ih
      (fun l hl => hclosed l (List.mem_cons_of_mem _ hl))
      (fun front l' back results' v heq hl' hfront =>
        hthrough (l :: front) l' back _ v (by rw [heq, List.cons_append]) hl' (.cons hgives hfront))
      hrun
    cases hl : parses l with
    | false =>
      -- A line with parse errors leaves the world as it is, and is not in the file.
      obtain ⟨-, rfl⟩ := (gives_iff_of_not_parses hl).1 hgives
      refine ⟨henv, p', depth', hp', ?_, hrun'⟩
      rwa [List.filter_cons_of_neg (by simp [hl])]
    | true =>
      obtain ⟨p, hp⟩ := parses_iff.1 hl
      have hsemicolon := hclosed l List.mem_cons_self hl
      -- The block of the line runs through, so the file goes on where the next line starts.
      obtain ⟨d, v, hblock, henv'⟩ :=
        (hthrough [] l lines [] w rfl hl .nil).block hp hgives
      rw [henv'] at henv hrun'
      obtain ⟨depth'', hboth⟩ := Eval.block_append hp' hblock hrun'
      refine ⟨henv, p ++ p', depth'', by simp [hp'], ?_, hboth⟩
      rw [List.filter_cons_of_pos hl, List.cons_append,
        String.intercalate_cons_of_ne_nil (by simp)]
      exact parse?_lines hp hsemicolon hparse'

end World

/-- A session agrees with the file of its lines. Let `line` be the last line of a session without
parse errors, and let every line before it that has no parse errors end with a semicolon and run
through. The source of all lines without parse errors shows in a fresh world what the session shows
for `line`, and leaves the world that the session leaves. -/
theorem session_agrees_with_file {before after : List String} {line : String}
    {results : List (Except RunError (Value Unit))} {w : World}
    (hsession : World.fresh.Replies (before ++ line :: after) results w)
    (hline : parses line = true) (htoken : scan line ≠ [])
    (hafter : ∀ l ∈ after, parses l = false)
    (hclosed : ∀ l ∈ before, parses l = true → EndsWithSemicolon l)
    (hthrough : ∀ front l back results' u, before = front ++ l :: back → parses l = true →
      World.fresh.Replies front results' u → u.RunsThrough l) :
    ∃ result depth, results[before.length]? = some result ∧
      World.fresh.execute depth .value
        ("\n".intercalate ((before ++ line :: after).filter parses)) =
          some (result.map Value.text, w) := by
  obtain ⟨front, back, u, rfl, hlength, hbefore, hback⟩ := hsession.split
  cases hback with
  | @cons _ w' _ _ _ result results hgives hrest =>
    obtain rfl := hrest.eq_of_not_parses hafter
    obtain ⟨program, hparse⟩ := parses_iff.1 hline
    obtain ⟨depth, r, h, hblock, hresult, rfl⟩ := (World.gives_iff_of_ok hparse).1 hgives
    obtain ⟨henv, p, depth', -, hjoined, hrun⟩ := hbefore.joined hclosed hthrough hparse
      (ne_nil_of_parse? hparse htoken) hblock
    -- The lines behind the last one that parses are not in the file.
    have hlines : (before ++ line :: after).filter parses = before.filter parses ++ [line] := by
      have hnone : after.filter parses = [] := List.filter_eq_nil_iff.2 fun l hl => by
        simp [hafter l hl]
      rw [List.filter_append, List.filter_cons_of_pos hline, hnone]
    have hanswer : (front ++ result :: results)[before.length]? = some result := by
      simp [← hlength]
    obtain ⟨depth'', hfile⟩ :=
      (World.gives_iff_of_ok hjoined).2 ⟨depth', r, h, hrun, hresult, rfl⟩
    refine ⟨result, depth'', hanswer, ?_⟩
    rw [hlines, World.execute, hfile, henv]
    rfl

/-- A session that binds `x`, and whose second and last line have parse errors: what it shows for
`x * x` is the result of the file `let x = 2;`, `x * x`. -/
theorem session_agrees_with_file_square :
    ∃ (result : Except RunError (Value Unit)) (depth : Nat),
      [.ok (.int 2), .error (.parse (parse "let = 3;").errors), .ok (.int 4),
        .error (.parse (parse ")").errors)][2]? = some result ∧
      World.fresh.execute depth .value
        ("\n".intercalate ((["let x = 2;", "let = 3;"] ++ "x * x" :: [")"]).filter parses)) =
          some (result.map Value.text, ⟨⟨#[⟨[("x", .int 2)], none⟩]⟩, 0⟩) := by
  have hline : parses "x * x" = true := by cbv
  have htoken : scan "x * x" ≠ [] := by
    cbv
    intro hnil
    cases hnil
  have hbroken : parses "let = 3;" = false := by cbv
  have hparen : parses ")" = false := by cbv
  refine @session_agrees_with_file ["let x = 2;", "let = 3;"] [")"] "x * x" _ _ ?session hline
    htoken ?after ?closed ?through
  case session =>
    refine .cons ⟨8, by cbv⟩ (.cons ((World.gives_iff_of_not_parses hbroken).2 ⟨rfl, rfl⟩) ?_)
    exact .cons ⟨8, by cbv⟩ (.cons ((World.gives_iff_of_not_parses hparen).2 ⟨rfl, rfl⟩) .nil)
  case after =>
    intro l hl
    rw [List.mem_singleton.1 hl]
    exact hparen
  case closed =>
    intro l hl hparses
    rcases List.mem_cons.1 hl with rfl | hl
    · exact ⟨⟨.semicolon, ";", 9⟩, by cbv, rfl⟩
    · rw [List.mem_singleton.1 hl, hbroken] at hparses
      cases hparses
  case through =>
    intro front l back results u hlines hparses hfront
    cases front with
    | nil =>
      obtain ⟨rfl, -⟩ := List.cons.inj hlines
      cases hfront
      exact ⟨[.letDecl "x" (.int 2)], 8, .int 2, ⟨#[⟨[("x", .int 2)], none⟩]⟩, by cbv, by cbv⟩
    | cons l' front =>
      -- The only line behind the first one has parse errors.
      have hmem : l ∈ ["let = 3;"] := by
        rw [(List.cons.inj hlines).2]
        simp
      rw [List.mem_singleton.1 hmem, hbroken] at hparses
      cases hparses

end LetLang
