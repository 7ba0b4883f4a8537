import LetLang.Proofs.Parse.Program
import LetLang.Proofs.Print.Phrases
import LetLang.Proofs.Run.Lines
import LetLang.Proofs.Run.Reprint
import LetLang.Proofs.Scan.Tokenization

/-!
# Integers are read back

A source that is a run of digits is the integer literal that these digits write, however many zeros
lead it, up to the greatest integer of the language; beyond, it is one parse error, which names the
digits. So the text of an integer is a source that has this integer as its value, a minus sign being
read as an operator. The least integer is the exception: the digits behind its sign are beyond the
greatest one. `integers_read_back` is the main statement.
-/

set_option autoImplicit false

namespace LetLang

open LetLang.Parser LetLang.Grammar

/-! ## Sources that are one statement -/

/-- A program whose first statement breaks off at the end of the source has one error. -/
theorem ProgramRun.errors_of_broken {c m d : Cursor} {p : Program Unit} {e : ParseError}
    {es : List ParseError} (hrun : ProgramRun c p es d) (hc : c.peek.kind ≠ .eof)
    (hbroken : ∀ depth, (Parser.statement depth).Ensures c (· = ⟨.error e, [], m⟩))
    (hend : m.unread = []) : es = [e] := by
  cases hrun with
  | stop heof => exact absurd heof hc
  | statement _ hstatement _ => cases hbroken _ _ hstatement
  | recover _ hstatement hrest =>
    cases hbroken _ _ hstatement
    -- Recovery goes on behind the end, where a program stops.
    have hleft := m.left_recover_le
    rw [Cursor.left, Cursor.left, hend] at hleft
    have heof : m.recover.peek.kind = .eof := by
      rw [Cursor.peek, List.length_eq_zero_iff.1 (Nat.le_zero.1 hleft)]
      rfl
    cases hrest with
    | stop _ => rfl
    | statement hne _ _ => exact absurd heof hne
    | recover hne _ _ => exact absurd heof hne

/-- A source with the words of a phrase is this expression. -/
theorem Phrase.parse? {source : String} {ws : List Word} {e : Expr Unit} (h : Phrase ws e)
    (hwords : wordsOf source.toList = ws) : LetLang.parse? source = .ok [.expr e] := by
  have htier : Tier .unary ws e [] := by
    have h := h [] ⟨TokenKind.noConfusion, TokenKind.noConfusion⟩
    rwa [List.append_nil] at h
  rw [parse?_eq_ok_iff_derives, hwords]
  exact .cons (.expr (.complete (htier.loosen (by decide)) (by decide)) ⟨[], by simp, rfl⟩) .nil

/-- A run of digits is one token. -/
theorem scan_digits {d : String} (hne : d ≠ "") (hdigits : ∀ c ∈ d.toList, c.isDigit = true) :
    scan d = [⟨.integer, d, 0⟩] := by
  have hwords : wordsOf (d.toList ++ []) = ⟨.integer, String.ofList d.toList⟩ :: wordsOf [] :=
    wordsOf_digits (fun h => hne (String.toList_eq_nil_iff.1 h)) hdigits trivial
  rw [List.append_nil, wordsOf_nil, String.ofList_toList, ← map_word_scan] at hwords
  obtain ⟨⟨kind, text, start⟩, hscan, hword⟩ := List.map_eq_singleton_iff.1 hwords
  obtain ⟨rfl, rfl⟩ : kind = .integer ∧ text = d := Word.mk.inj hword
  obtain ⟨before, after, hsplit, hstart⟩ :=
    (Scanner.ofSource text).tokenizes_tokens.slices ⟨.integer, text, start⟩ (by
      rw [show (Scanner.ofSource text).tokens = _ from hscan]
      exact List.mem_singleton_self _)
  -- The token is as long as the source, so nothing stands before it.
  have hlength := congrArg List.length hsplit
  have hbefore : before = [] := by
    simp only [Scanner.ofSource, List.length_append] at hlength
    exact List.length_eq_zero_iff.1 (by omega)
  obtain rfl : start = 0 := by
    rw [hbefore] at hstart
    exact hstart
  exact hscan

/-! ## Numerals and the texts of integers -/

section Digits

variable {d : String} (hne : d ≠ "") (hdigits : ∀ c ∈ d.toList, c.isDigit = true)

include hne hdigits

theorem parse?_digits (hle : (decimal d : Int) ≤ Int64.maxValue.toInt) :
    parse? d = .ok [.expr (.int (Int64.ofNat (decimal d)))] := by
  have hphrase : Phrase [⟨.integer, d⟩] (.int (Int64.ofNat (decimal d))) :=
    phrase_of_primary fun rest _ => @Primary.int ⟨.integer, d⟩ rest rfl hle
  refine hphrase.parse? ?_
  rw [← map_word_scan, scan_digits hne hdigits]
  rfl

theorem parse?_digits_beyond (hlt : Int64.maxValue.toInt < decimal d) :
    parse? d = .error [.invalidInteger ⟨.integer, d, 0⟩] := by
  have hunread : (Cursor.ofSource d).unread = [⟨.integer, d, 0⟩] := scan_digits hne hdigits
  have hpeek : (Cursor.ofSource d).peek = ⟨.integer, d, 0⟩ := by rw [Cursor.peek, hunread]; rfl
  have hkind : (Cursor.ofSource d).peek.kind = .integer := by rw [hpeek]
  have hbeyond : Numeral.ofDigits? d = none := by
    cases hvalue : Numeral.ofDigits? d with
    | none => rfl
    | some v => exact absurd (ofDigits?_eq_some_iff.1 hvalue).1 (Int.not_le.2 hlt)
  have hbreaks : ∀ depth, (statement depth).Ensures (Cursor.ofSource d)
      (· = ⟨.error (.invalidInteger ⟨.integer, d, 0⟩), [], (Cursor.ofSource d).advance⟩) := by
    intro depth
    rw [← hpeek]
    refine statement_broken (by rw [hkind]; decide) fun _ => operand_int_beyond hkind ?_
    rw [hpeek]
    exact hbeyond
  rw [parse?_eq_error]
  refine ⟨?_, List.cons_ne_nil _ _⟩
  refine (Cursor.ofSource d).parse_run.errors_of_broken (by rw [hkind]; decide) hbreaks ?_
  simp [Cursor.advance, hunread]

end Digits

/-- The text of an integer is read as the integer with its sign as an operator. -/
theorem parse?_text {v : Int64} (h : v ≠ Int64.minValue) :
    parse? (Numeral.text v) = .ok [.expr (signless.literal v)] := by
  refine (phrase_numeral h).parse? ?_
  have hreads := reads_numeral h [] trivial
  rwa [List.append_nil, wordsOf_nil, List.append_nil] at hreads

theorem evaluate_literal (depth : Nat) (v : Int64) (w : World) :
    w.evaluate (depth + 4) [.expr (signless.literal v)] = some (.ok (.int v), w) := by
  have hblock : Eval.block (depth + 4) w.env [.expr (signless.literal v)] w.heap =
      some (.ok (.int v), w.heap) := by
    have hliteral : Eval.statement (depth + 3) w.env (.expr (signless.literal v)) w.heap =
        some (.ok (.int v), w.heap) := by
      rw [Eval.statement, signless_lawful.literal]
      rfl
    rw [Eval.block, Eval.statements, Eval.bind_of_ok hliteral, Eval.statements]
    rfl
  rw [World.evaluate, hblock]
  rfl

/-- Integers can be read back up to the limit. A run of digits is the integer that it writes in
decimals if that is not greater than the greatest integer, and one error at its start if it is.
Running the text of an integer shows that text, except for the least integer, whose digits are one
error behind the sign. -/
theorem integers_read_back :
    (∀ d : String, d ≠ "" → (∀ c ∈ d.toList, c.isDigit = true) →
      ((decimal d : Int) ≤ Int64.maxValue.toInt →
        ∃ v : Int64, v.toInt = decimal d ∧ parse? d = .ok [.expr (.int v)]) ∧
      (Int64.maxValue.toInt < decimal d → parse? d = .error [.invalidInteger ⟨.integer, d, 0⟩])) ∧
    (∀ v : Int64, v ≠ Int64.minValue → ∀ depth, 4 ≤ depth →
      execute depth .value (.int v : Value Unit).text = some (.ok (.int v : Value Unit).text)) ∧
    ∀ depth, execute depth .value (.int Int64.minValue : Value Unit).text =
      some (.error (.parse [.invalidInteger ⟨.integer, "9223372036854775808", 1⟩])) := by
  refine ⟨fun d hne hdigits => ⟨fun hle => ?_, parse?_digits_beyond hne hdigits⟩,
    fun v hv depth hdepth => ?_, fun depth => ?_⟩
  · have hmax : Int64.maxValue.toInt = 2 ^ 63 - 1 := by decide
    exact ⟨Int64.ofNat (decimal d), Int64.toInt_ofNat_of_lt (by omega),
      parse?_digits hne hdigits hle⟩
  · obtain ⟨depth, rfl⟩ := Nat.exists_eq_add_of_le' hdepth
    show execute (depth + 4) .value (Numeral.text v) = some (.ok (Numeral.text v))
    rw [execute, World.execute, World.run, parse?_text hv]
    simp only [evaluate_literal]
    rfl
  · have hparse : parse? (.int Int64.minValue : Value Unit).text =
        .error [.invalidInteger ⟨.integer, "9223372036854775808", 1⟩] := by cbv
    rw [execute, World.execute, World.run, hparse]
    rfl

/-- The greatest integer behind three zeros, the first number beyond it, and an integer with a
sign. -/
theorem integers_read_back_limit :
    (∃ v : Int64, v.toInt = 9223372036854775807 ∧
      parse? "0009223372036854775807" = .ok [.expr (.int v)]) ∧
    parse? "9223372036854775808" =
      .error [.invalidInteger ⟨.integer, "9223372036854775808", 0⟩] ∧
    execute 4 .value "-7" = some (.ok "-7") := by
  obtain ⟨hdigits, hvalues, -⟩ := integers_read_back
  have hgreatest : decimal "0009223372036854775807" = 9223372036854775807 := by decide +kernel
  have hbeyond : decimal "9223372036854775808" = 9223372036854775808 := by decide +kernel
  have hmax : Int64.maxValue.toInt = 9223372036854775807 := by decide
  have htext : (.int (-7) : Value Unit).text = "-7" := by decide +kernel
  refine ⟨?_, ?_, ?_⟩
  · have hd := hdigits "0009223372036854775807" (by decide) (List.all_eq_true.1 (by cbv))
    rw [hgreatest, hmax] at hd
    exact hd.1 (by decide)
  · have hd := hdigits "9223372036854775808" (by decide) (List.all_eq_true.1 (by cbv))
    rw [hbeyond, hmax] at hd
    exact hd.2 (by decide)
  · have hrun := hvalues (-7) (by decide) 4 (Nat.le_refl 4)
    rwa [htext] at hrun

end LetLang
