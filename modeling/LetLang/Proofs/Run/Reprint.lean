import LetLang.Proofs.Evaluation.Sequence
import LetLang.Proofs.Evaluation.Translation
import LetLang.Proofs.Print.Reparse
import LetLang.Run.Basic

/-!
# Printing keeps the meaning of programs

A program that a host builds can hold negative integers, which no source writes: what is parsed of
its canonical text has operations in their place, in the bodies of its functions too. So functions
that both programs make are not the same, but nobody sees their bodies. Both programs evaluate alike
(`reprinted_program_evaluates_alike`), since writing a sign as an operator is a translation that
keeps the values of literals (`signless_lawful`).
-/

set_option autoImplicit false

namespace LetLang

variable {α : Type}

/-! ## Signs as operators -/

/-- An operation on a numeral has the value of the integer with the sign. -/
theorem signless_lawful : (signless : Translation α).Lawful where
  injective := Function.injective_id
  literal depth env v := by
    by_cases hneg : v.toInt < 0
    · rw [signless_of_neg hneg, Eval.expression, Eval.expression]
      show Eval.ofExcept (.ok (Value.int (-(-v)))) = _
      rw [Int64.neg_neg]
      rfl
    · rw [signless_of_nonneg (Int.not_lt.1 hneg), Eval.expression]
      rfl

/-! ## What is seen of an evaluation -/

/-- Values of one kind and one text. -/
structure Value.Alike (v v' : Value α) : Prop where
  kind : v.kind = v'.kind
  text : v.text = v'.text

/-- The same error, or values that are alike. -/
inductive AlikeResults : Except EvalError (Value α) → Except EvalError (Value α) → Prop
  | ok {v v' : Value α} : v.Alike v' → AlikeResults (.ok v) (.ok v')
  | error (e : EvalError) : AlikeResults (.error e) (.error e)

/-- Worlds whose environments bind the same names, to values that are alike. -/
def World.Alike (w w' : World) : Prop :=
  ∀ x, Option.Rel Value.Alike (w.heap.find? w.env x) (w'.heap.find? w'.env x)

/-- A program is evaluated in a fresh world, with the given result and the given world behind it. -/
def Evaluates (p : Program Unit) (r : Except EvalError (Value Unit)) (w : World) : Prop :=
  ∃ depth, World.fresh.evaluate depth p = some (r, w)

theorem evaluates_iff {p : Program Unit} {r : Except EvalError (Value Unit)} {w : World} :
    Evaluates p r w ↔ ∃ out h,
      Eval.Ends (fun depth => (Node.block p).eval depth World.fresh.env) World.fresh.heap out h ∧
        r = Unwind.settle out ∧ w = ⟨h, World.fresh.env⟩ := by
  constructor
  · rintro ⟨depth, hrun⟩
    rw [World.evaluate, Option.map_eq_some_iff] at hrun
    obtain ⟨⟨out, h⟩, hblock, heq⟩ := hrun
    cases heq
    exact ⟨out, h, ⟨depth, hblock⟩, rfl, rfl⟩
  · rintro ⟨out, h, ⟨depth, hblock⟩, rfl, rfl⟩
    refine ⟨depth, ?_⟩
    rw [World.evaluate, Option.map_eq_some_iff]
    exact ⟨(out, h), hblock, rfl⟩

/-! ## Signs as operators are not seen -/

theorem alike_signless (v : Value α) : v.Alike (signless.value v) := by
  refine ⟨(Translation.kind_value _ v).symm, ?_⟩
  cases v with
  | func c =>
    -- The text of a function shows its parameters, which are kept, and not its body.
    have hparameters : (signless.closure c).parameters = c.parameters := List.map_id _
    rw [Translation.value, Value.text, Value.text, hparameters]
  | _ => rfl

theorem alikeResults_signless (out : Except (Unwind α) (Value α)) :
    AlikeResults (Unwind.settle out) (Unwind.settle (signless.result signless.value out)) := by
  rcases out with (v | e) | v
  · exact .ok (alike_signless v)
  · cases e <;> exact .error _
  · exact .ok (alike_signless v)

theorem alike_signless_heap (h : Heap Unit) (env : FrameId) :
    World.Alike ⟨h, env⟩ ⟨signless.heap h, env⟩ := by
  intro x
  have hfind : (signless.heap h).find? env x = (h.find? env x).map signless.value :=
    Translation.find?_heap Function.injective_id h x env
  show Option.Rel Value.Alike (h.find? env x) ((signless.heap h).find? env x)
  rw [hfind]
  cases h.find? env x with
  | none => exact .none
  | some v => exact .some (alike_signless v)

/-- The evaluations of a program with signs as operators are those of the program itself, with signs
as operators in the functions that are left. -/
theorem evaluates_signless_iff {p : Program Unit} {r : Except EvalError (Value Unit)} {w : World} :
    Evaluates (signless.stmts p) r w ↔ ∃ out h,
      Eval.Ends (fun depth => (Node.block p).eval depth World.fresh.env) World.fresh.heap out h ∧
        r = Unwind.settle (signless.result signless.value out) ∧
        w = ⟨signless.heap h, World.fresh.env⟩ := by
  have hfresh : signless.heap World.fresh.heap = World.fresh.heap := by
    simp [Translation.heap, Translation.frame, Translation.bindings, World.fresh, Heap.enclose,
      Heap.alloc, Heap.empty]
  have hiff := signless_lawful.ends_iff (.block p) World.fresh.env World.fresh.heap
  rw [hfresh, Translation.node] at hiff
  constructor
  · intro hp
    obtain ⟨out', h', hends', rfl, rfl⟩ := evaluates_iff.1 hp
    obtain ⟨out, h, hends, rfl, rfl⟩ := (hiff out' h').1 hends'
    exact ⟨out, h, hends, rfl, rfl⟩
  · rintro ⟨out, h, hends, rfl, rfl⟩
    exact evaluates_iff.2 ⟨_, _, (hiff _ _).2 ⟨out, h, hends, rfl, rfl⟩, rfl, rfl⟩

/-- What is parsed of the canonical text of a program has the signs of its integers written as
operators. In a fresh world it has a result if and only if the program itself has one. Both have the
same error or results of one kind and one text, and leave the same names bound to values of one kind
and one text. -/
theorem reprinted_program_evaluates_alike {p : Program Unit} (hwr : StmtsWritable p)
    (htests : StmtsTestOperations p) :
    parse? (programText p) = .ok (signless.stmts p) ∧
      ((∃ r w, Evaluates (signless.stmts p) r w) ↔ ∃ r w, Evaluates p r w) ∧
      ∀ r w r' w', Evaluates p r w → Evaluates (signless.stmts p) r' w' →
        AlikeResults r r' ∧ w.Alike w' := by
  refine ⟨parse?_programText_signless hwr htests, ?_, ?_⟩
  · constructor
    · rintro ⟨r', w', hq⟩
      obtain ⟨out, h, hends, -, -⟩ := evaluates_signless_iff.1 hq
      exact ⟨_, _, evaluates_iff.2 ⟨out, h, hends, rfl, rfl⟩⟩
    · rintro ⟨r, w, hp⟩
      obtain ⟨out, h, hends, -, -⟩ := evaluates_iff.1 hp
      exact ⟨_, _, evaluates_signless_iff.2 ⟨out, h, hends, rfl, rfl⟩⟩
  · intro r w r' w' hp hq
    obtain ⟨out, h, hends, rfl, rfl⟩ := evaluates_iff.1 hp
    obtain ⟨out', h', hends', rfl, rfl⟩ := evaluates_signless_iff.1 hq
    -- Both results come from the one outcome that the program has.
    obtain ⟨rfl, rfl⟩ := hends.unique (Node.eval_le _ _) hends'
    exact ⟨alikeResults_signless _, alike_signless_heap _ _⟩

/-- The program `let f = fn(x) {if (x < -1) {(x + -3);}};`, `f(-4);`, with negative integers. -/
def negatives : Program Unit :=
  [.letDecl "f" (.callable (.func () ["x"]
      [.expr (.ifThen (.binary .lessThan (.callable (.name "x")) (.int (-1)))
        [.expr (.binary .add (.callable (.name "x")) (.int (-3)))])])),
    .expr (.call (.name "f") [.int (-4)])]

/-- The program has the value `-7`, and so has what is parsed of its canonical text. -/
theorem reprinted_program_evaluates_alike_negatives :
    parse? (programText negatives) = .ok (signless.stmts negatives) ∧
      ∃ r w, Evaluates (signless.stmts negatives) r w ∧ AlikeResults (.ok (.int (-7))) r := by
  have hf : IsName "f" := ⟨by decide, by decide, by decide⟩
  have hx : IsName "x" := ⟨by decide, by decide, by decide⟩
  have hbody : ∀ x ∈ ["x"], IsName x := fun x hx' => List.mem_singleton.1 hx' ▸ hx
  have h₁ : (-1 : Int64) ≠ Int64.minValue := by decide
  have h₃ : (-3 : Int64) ≠ Int64.minValue := by decide
  have h₄ : (-4 : Int64) ≠ Int64.minValue := by decide
  have hwr : StmtsWritable negatives :=
    ⟨⟨hf, hbody, ⟨⟨hx, h₁⟩, ⟨hx, h₃⟩, trivial⟩, trivial⟩, ⟨hf, h₄, trivial⟩, trivial⟩
  have htests : StmtsTestOperations negatives :=
    ⟨⟨⟨rfl, ⟨trivial, trivial⟩, ⟨trivial, trivial⟩, trivial⟩, trivial⟩, ⟨trivial, trivial, trivial⟩,
      trivial⟩
  obtain ⟨hparse, hiff, halike⟩ := reprinted_program_evaluates_alike hwr htests
  have hp : ∃ w, Evaluates negatives (.ok (.int (-7))) w := ⟨_, 16, by cbv⟩
  obtain ⟨w, hp⟩ := hp
  obtain ⟨r, w', hq⟩ := hiff.2 ⟨_, w, hp⟩
  exact ⟨hparse, r, w', hq, (halike _ w r w' hp hq).1⟩

end LetLang
