import LetLang.Proofs.Evaluation.Purity
import LetLang.Proofs.Evaluation.Sequence

/-!
# Arithmetic

Integers are kept modulo `2 ^ 64`. However often the operations of an expression overflow on the
way, its value is the one integer of the language that is congruent to the exact value of the
expression (`Expr.ends_of_exactValue`). Quotients are exact and cut towards zero, but for one, which
is too large by one (`isQuotient_div`).
-/

set_option autoImplicit false

namespace LetLang

variable {α β : Type}

/-! ## Exact values -/

/-- The exact result of an operator on an integer, for the operators that are arithmetic. -/
def UnaryOp.exactValue : UnaryOp → Int → Option Int
  | .negate, m => some (-m)
  | .not, _ => none

/-- The exact result of an operator on two integers, for the operators whose exact results are
integers. -/
def BinaryOp.exactValue : BinaryOp → Int → Int → Option Int
  | .add, m, n => some (m + n)
  | .subtract, m, n => some (m - n)
  | .multiply, m, n => some (m * n)
  | _, _, _ => none

/-- The exact value of an expression in an environment. It has one, if it is built from integers,
names that are bound to integers, the sign, sums, differences and products. -/
def Expr.exactValue (h : Heap α) (env : FrameId) : Expr α → Option Int
  | .int v => some v.toInt
  | .callable (.name x) =>
    match h.find? env x with
    | some (.int v) => some v.toInt
    | _ => none
  | .unary op e => (e.exactValue h env).bind op.exactValue
  | .binary op l r => (l.exactValue h env).bind fun m => (r.exactValue h env).bind (op.exactValue m)
  | _ => none

section Operators

variable {m n k : Int}

/-- An integer of the language is known by what it is congruent to. -/
theorem modEq_iff_eq_ofInt {v : Int64} : v.toInt ≡ n [ZMOD 2 ^ 64] ↔ v = Int64.ofInt n := by
  constructor
  · intro hmod
    have hbmod : v.toInt.bmod (2 ^ 64) = n.bmod (2 ^ 64) := by
      rw [← Int.emod_bmod v.toInt, ← Int.emod_bmod n]
      exact congrArg (Int.bmod · (2 ^ 64)) hmod
    refine ((Int64.ofInt_eq_iff_bmod_eq_toInt n v).2 ?_).symm
    rw [← hbmod]
    exact v.toInt_bmod
  · rintro rfl
    rw [Int64.toInt_ofInt]
    exact Int.bmod_emod

/-- Operators take remainders to the remainder of the exact result. -/
theorem UnaryOp.apply_ofInt {op : UnaryOp} (hop : op.exactValue m = some k) :
    op.apply (.int (Int64.ofInt m) : Value α) = .ok (.int (Int64.ofInt k)) := by
  cases op with
  | not => cases hop
  | negate =>
    cases hop
    rw [Int64.ofInt_neg]
    rfl

theorem BinaryOp.apply_ofInt {op : BinaryOp} (hop : op.exactValue m n = some k) :
    op.apply (.int (Int64.ofInt m) : Value α) (.int (Int64.ofInt n)) =
      .ok (.int (Int64.ofInt k)) := by
  cases op with
  | add =>
    cases hop
    rw [Int64.ofInt_add]
    rfl
  | subtract =>
    cases hop
    rw [Int64.ofInt_sub]
    rfl
  | multiply =>
    cases hop
    rw [Int64.ofInt_mul]
    rfl
  | _ => cases hop

end Operators

/-! ## Operators on what operands end with -/

namespace Eval

variable {h k m : Heap α} {env : FrameId}

theorem ofExcept_apply (r : Except EvalError β) (h : Heap α) :
    ofExcept r h = some (r.mapError .error, h) := by
  cases r <;> rfl

/-- An evaluation that keeps its outcomes in greater depths has no second one. -/
theorem Ends.iff {run : Nat → Eval α β} {r : Except (Unwind α) β}
    (hle : ∀ {d d'}, d ≤ d' → Le (run d) (run d')) (hends : Ends run h r k)
    (r' : Except (Unwind α) β) (k' : Heap α) : Ends run h r' k' ↔ r' = r ∧ k' = k := by
  constructor
  · exact hends.unique hle
  · rintro ⟨rfl, rfl⟩
    exact hends

/-- What an operation ends with is the result of its operator. -/
theorem Ends.unary {e : Expr α} {a : Value α} (op : UnaryOp) (he : Ends (e.runs env) h (.ok a) k) :
    Ends ((Expr.unary op e).runs env) h ((op.apply a).mapError .error) k := by
  obtain ⟨depth, he⟩ := he
  refine ⟨depth + 1, ?_⟩
  rw [Expr.runs, expression, bind_of_ok he, ofExcept_apply]

theorem Ends.binary {l r : Expr α} {a b : Value α} (op : BinaryOp)
    (hl : Ends (l.runs env) h (.ok a) k) (hr : Ends (r.runs env) k (.ok b) m) :
    Ends ((Expr.binary op l r).runs env) h ((op.apply a b).mapError .error) m := by
  obtain ⟨depth, hl, hr⟩ := hl.both (expression_le env l) (expression_le env r) hr
  refine ⟨depth + 1, ?_⟩
  rw [Expr.runs, expression, bind_of_ok hl, bind_of_ok hr, ofExcept_apply]

end Eval

/-! ## Sums, differences and products -/

/-- An expression with an exact value ends with the integer that is congruent to it, and leaves the
heap as it is. -/
theorem Expr.ends_of_exactValue (h : Heap α) (env : FrameId) (e : Expr α) :
    ∀ n, e.exactValue h env = some n → Eval.Ends (e.runs env) h (.ok (.int (Int64.ofInt n))) h := by
  -- One case for each equation of the exact value; names that are bound to no integer have none.
  fun_induction Expr.exactValue h env e with
  | case1 v =>
    rintro n ⟨⟩
    refine ⟨1, ?_⟩
    rw [Expr.runs, Eval.expression, Int64.ofInt_toInt]
    rfl
  | case2 x v hv =>
    rintro n ⟨⟩
    refine ⟨1, ?_⟩
    rw [Expr.runs, Eval.expression, Eval.callable, Eval.find, hv, Int64.ofInt_toInt]
  | case3 x hx =>
    intro n hn
    cases hn
  | case4 op e ih =>
    intro n hn
    obtain ⟨m, hm, hop⟩ := Option.bind_eq_some_iff.1 hn
    have hends := (ih m hm).unary op
    rwa [UnaryOp.apply_ofInt hop] at hends
  | case5 op l r ihl ihr =>
    intro n hn
    obtain ⟨a, ha, hn⟩ := Option.bind_eq_some_iff.1 hn
    obtain ⟨b, hb, hop⟩ := Option.bind_eq_some_iff.1 hn
    have hends := (ihl a ha).binary op (ihr b hb)
    rwa [BinaryOp.apply_ofInt hop] at hends
  | case6 =>
    intro n hn
    cases hn

/-! ## Quotients -/

/-- The quotient of two integers, cut towards zero: what is left over is smaller than the divisor
and has the sign of the dividend. -/
def IsQuotient (a b q : Int) : Prop :=
  ∃ r, a = q * b + r ∧ |r| < |b| ∧ (r = 0 ∨ r.sign = a.sign)

theorem isQuotient_tdiv (a : Int) {b : Int} (hb : b ≠ 0) : IsQuotient a b (a.tdiv b) := by
  refine ⟨a.tmod b, (Int.tdiv_mul_add_tmod a b).symm, ?_, ?_⟩
  · rw [Int.abs_eq_natAbs, Int.abs_eq_natAbs, Int.natAbs_tmod]
    have hpos : 0 < b.natAbs := Int.natAbs_pos.2 hb
    exact_mod_cast Nat.mod_lt a.natAbs hpos
  · have hsign := Int.sign_tmod a b
    split at hsign
    · exact .inl (Int.sign_eq_zero_iff_zero.1 hsign)
    · exact .inr hsign

/-- Only the quotient of the least integer by `-1` is too large for an integer of the language. -/
theorem isQuotient_div {a b : Int64} (hb : b ≠ 0) (hfits : ¬ (a = Int64.minValue ∧ b = -1)) :
    IsQuotient a.toInt b.toInt (a / b).toInt := by
  have hne : b.toInt ≠ 0 := fun h => hb (Int64.toInt_inj.1 h)
  have hdiv : (a / b).toInt = a.toInt.tdiv b.toInt := by
    by_cases ha : a = Int64.minValue
    · exact Int64.toInt_div_of_ne_right a b fun h => hfits ⟨ha, h⟩
    · exact Int64.toInt_div_of_ne_left a b ha
  rw [hdiv]
  exact isQuotient_tdiv a.toInt hne

theorem minValue_div_neg_one : Int64.minValue / (-1) = Int64.minValue := by decide

theorem BinaryOp.divide_zero (a : Int64) :
    BinaryOp.divide.apply (.int a : Value α) (.int 0) = .error .divisionByZero := rfl

theorem BinaryOp.divide_of_ne_zero (a : Int64) {b : Int64} (hb : b ≠ 0) :
    BinaryOp.divide.apply (.int a : Value α) (.int b) = .ok (.int (a / b)) :=
  if_neg hb

/-! ## Arithmetic -/

/-- Integer arithmetic is exact arithmetic reduced to the integers of the language. An expression
that has an exact value ends in every environment with the one integer that is congruent to this
value modulo `2 ^ 64`, and changes nothing. A quotient of `a` by `b` is an error exactly if `b` is
0; else it is exact and cut towards zero, but for the least integer by `-1`, where it is the least
integer. -/
theorem arithmetic_is_exact (α : Type) :
    (∀ (e : Expr α) (h : Heap α) (env : FrameId) (n : Int), e.exactValue h env = some n →
      ∃ v : Int64, (∀ w : Int64, w.toInt ≡ n [ZMOD 2 ^ 64] ↔ w = v) ∧
        ∀ r k, Eval.Ends (e.runs env) h r k ↔ r = .ok (.int v) ∧ k = h) ∧
    ∀ (l r : Expr α) (env : FrameId) (h k m : Heap α) (a b : Int64),
      Eval.Ends (l.runs env) h (.ok (.int a)) k → Eval.Ends (r.runs env) k (.ok (.int b)) m →
      (Eval.Ends ((Expr.binary .divide l r).runs env) h (.error (.error .divisionByZero)) m ↔
        b = 0) ∧
      (b ≠ 0 → ∃ q : Int64,
        (∀ r' m', Eval.Ends ((Expr.binary .divide l r).runs env) h r' m' ↔
          r' = .ok (.int q) ∧ m' = m) ∧
        (a = Int64.minValue ∧ b = -1 → q = Int64.minValue) ∧
        (¬ (a = Int64.minValue ∧ b = -1) → IsQuotient a.toInt b.toInt q.toInt)) := by
  constructor
  · intro e h env n hn
    refine ⟨Int64.ofInt n, fun w => modEq_iff_eq_ofInt, ?_⟩
    exact (e.ends_of_exactValue h env n hn).iff (Eval.expression_le env e)
  · intro l r env h k m a b hl hr
    -- The operands have ended, so all that the division can do is what the operator does.
    have hends := hl.binary .divide hr
    have hiff := hends.iff (Eval.expression_le env (.binary .divide l r))
    constructor
    · rw [hiff]
      by_cases hb : b = 0
      · subst hb
        simp [BinaryOp.divide_zero, Except.mapError]
      · simp [BinaryOp.divide_of_ne_zero a hb, Except.mapError, hb]
    · intro hb
      rw [BinaryOp.divide_of_ne_zero a hb] at hiff
      refine ⟨a / b, hiff, ?_, isQuotient_div hb⟩
      rintro ⟨rfl, rfl⟩
      exact minValue_div_neg_one

/-- A frame that binds `x` to the greatest integer. -/
def bindsGreatest : Heap Unit := ⟨#[⟨[("x", .int Int64.maxValue)], none⟩]⟩

/-- The expression `(((x + 1) * 2) - x)`. -/
def overflows : Expr Unit :=
  .binary .subtract (.binary .multiply (.binary .add (.callable (.name "x")) (.int 1)) (.int 2))
    (.callable (.name "x"))

/-- For the greatest `x` all operations overflow, and the value is the exact one less `2 ^ 64`. The
quotient of the least integer by `-1` is the least integer, and that of `-7` by 2 is cut towards
zero. -/
theorem arithmetic_is_exact_greatest :
    Eval.Ends (overflows.runs 0) bindsGreatest (.ok (.int (Int64.minValue + 1))) bindsGreatest ∧
      Eval.Ends ((Expr.binary .divide (.int Int64.minValue) (.int (-1))).runs 0) bindsGreatest
        (.ok (.int Int64.minValue)) bindsGreatest ∧
      ∃ q : Int64, Eval.Ends ((Expr.binary .divide (.int (-7)) (.int 2)).runs 0) bindsGreatest
        (.ok (.int q)) bindsGreatest ∧ IsQuotient (-7) 2 q.toInt := by
  obtain ⟨hexact, hquotient⟩ := arithmetic_is_exact Unit
  have hint : ∀ v : Int64, Eval.Ends ((Expr.int v).runs 0) bindsGreatest (.ok (.int v))
      bindsGreatest := fun v => ⟨1, by rw [Expr.runs, Eval.expression]; rfl⟩
  have hvalue : overflows.exactValue bindsGreatest 0 = some (2 ^ 63 + 1) := by cbv
  obtain ⟨v, hv, hends⟩ := hexact overflows bindsGreatest 0 (2 ^ 63 + 1) hvalue
  have hleast : Int64.minValue + 1 = v := (hv _).1 (by decide)
  obtain ⟨-, hnonzero⟩ := hquotient _ _ _ _ _ _ _ _ (hint Int64.minValue) (hint (-1))
  obtain ⟨q, hq, hmin, -⟩ := hnonzero (by decide)
  obtain ⟨-, hnonzero'⟩ := hquotient _ _ _ _ _ _ _ _ (hint (-7)) (hint 2)
  obtain ⟨q', hq', -, hcut⟩ := hnonzero' (by decide)
  refine ⟨?_, ?_, q', (hq' _ _).2 ⟨rfl, rfl⟩, hcut (by decide)⟩
  · exact (hends _ _).2 ⟨by rw [hleast], rfl⟩
  · exact (hq _ _).2 ⟨by rw [hmin ⟨rfl, rfl⟩], rfl⟩

end LetLang
