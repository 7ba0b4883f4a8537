import LetLang.Proofs.Parse.Derivation

/-!
# Levels of the grammar and levels of the parser

The parser holds an operator back by comparing the level of its token with the level it was called
with; the grammar lists the operators of each level. Here the two are tied together: the tables name
the same operators (`mem_binaryOps_iff`, `mem_prefixOps_iff`), a token continues an expression
exactly if its level is above the lowest (`mem_continuing_iff`), and an expression parsed at some
level is one of the level `Precedence.floor` of the grammar.
-/

set_option autoImplicit false

namespace LetLang

namespace Precedence

theorem rank_injective {p q : Precedence} (h : p.rank = q.rank) : p = q := by
  cases p <;> cases q <;> first | rfl | cases h

/-- A level that is not below another one is at it or above it. -/
theorem not_lt_iff {p q : Precedence} : ¬ p < q ↔ q.rank ≤ p.rank := by
  rw [lt_iff]
  omega

/-- The loosest level of the grammar whose phrases the parser reads at a level: the operators of
the phrase hold more tightly than the level, and a prefix operator takes another one. -/
def floor : Precedence → Precedence
  | lowest => equality
  | equality => relational
  | relational => additive
  | additive => multiplicative
  | multiplicative => unary
  | unary => unary
  | call => call

/-- The floor of a level is not above any level that is above it. -/
theorem rank_floor_le {p q : Precedence} (h : p < q) : p.floor.rank ≤ q.rank := by
  rw [lt_iff] at h
  cases p <;> simp only [floor, rank] at h ⊢ <;> omega

/-- A binary operator above the floor of a level is above the level. -/
theorem lt_of_rank_floor_le {p q : Precedence} (h : p.floor.rank ≤ q.rank) (hq : q < .unary) :
    p < q := by
  rw [lt_iff] at hq ⊢
  cases p <;> simp only [floor, rank] at h hq ⊢ <;> omega

theorem rank_floor_le_unary {p : Precedence} (h : p ≠ .call) :
    p.floor.rank ≤ Precedence.unary.rank := by
  cases p <;> first | exact absurd rfl h | decide

end Precedence

namespace Grammar

/-- Both tables have the same operators, each at the level of its precedence. -/
theorem mem_binaryOps_iff {kind : TokenKind} {op : BinaryOp} {k : Precedence} :
    (kind, op) ∈ binaryOps k ↔ kind.binaryOp? = some op ∧ op.precedence = k := by
  constructor
  · intro h
    cases k <;> simp only [binaryOps, List.mem_cons, Prod.mk.injEq, List.not_mem_nil, or_false] at h
    all_goals rcases h with ⟨rfl, rfl⟩ | ⟨rfl, rfl⟩ <;> exact ⟨rfl, rfl⟩
  · rintro ⟨hop, rfl⟩
    cases kind <;> simp only [TokenKind.binaryOp?, Option.some.injEq, reduceCtorEq] at hop
    all_goals subst hop; decide

theorem mem_prefixOps_iff {kind : TokenKind} {op : UnaryOp} :
    (kind, op) ∈ prefixOps ↔ kind.unaryOp? = some op := by
  cases kind <;> cases op <;> decide

/-- The words that continue an expression are those above the lowest level. -/
theorem mem_continuing_iff {kind : TokenKind} :
    kind ∈ continuing ↔ Precedence.lowest < kind.precedence := by
  cases kind <;> decide

/-- A token that holds an expression before it is a binary operator or opens the arguments of a
call. -/
theorem binaryOp?_or_leftParen {kind : TokenKind} (h : Precedence.lowest < kind.precedence) :
    (∃ op, kind.binaryOp? = some op) ∨ kind = .leftParen := by
  cases kind <;> first | exact .inr rfl | exact .inl ⟨_, rfl⟩ | exact absurd h (by decide)

theorem precedence_of_binaryOp? {kind : TokenKind} {op : BinaryOp}
    (h : kind.binaryOp? = some op) : kind.precedence = op.precedence := by
  rw [TokenKind.precedence, h]

theorem rank_precedence_lt_unary (op : BinaryOp) : op.precedence < .unary := by
  cases op <;> decide

/-- Behind an expression of a level below calls, no parenthesis follows if nothing above the level
does. -/
theorem ne_leftParen_of_not_lt {level : Precedence} {kind : TokenKind} (hlevel : level ≠ .call)
    (h : ¬ level < kind.precedence) : kind ≠ .leftParen := by
  rintro rfl
  cases level <;> first | exact absurd rfl hlevel | exact absurd h (by decide)

/-- A phrase of a level is one of each looser level. -/
theorem Tier.loosen {k k' : Precedence} {ws rest : List Word} {e : Expr Unit}
    (hle : k.rank ≤ k'.rank) (h : Tier k' ws e rest) : Tier k ws e rest := by
  rcases Nat.lt_or_eq_of_le hle with hlt | heq
  · exact .tighter hlt h
  · rw [Precedence.rank_injective heq]
    exact h

/-- The integers of the grammar are those of the parser. -/
theorem ofDigits?_eq_some_iff {digits : String} {v : Int64} :
    Numeral.ofDigits? digits = some v ↔
      (decimal digits : Int) ≤ Int64.maxValue.toInt ∧ v = Int64.ofNat (decimal digits) := by
  have hmax : Int64.maxValue.toInt = 2 ^ 63 - 1 := by decide
  have hlimit : Numeral.limit = 2 ^ 63 := rfl
  unfold Numeral.ofDigits? decimal
  rw [hmax]
  by_cases h : Nat.ofDigitChars 10 digits.toList 0 < Numeral.limit
  · have hle : (Nat.ofDigitChars 10 digits.toList 0 : Int) ≤ 2 ^ 63 - 1 := by omega
    simp only [if_pos h, Option.some.injEq, hle, true_and]
    exact eq_comm
  · have hle : ¬ (Nat.ofDigitChars 10 digits.toList 0 : Int) ≤ 2 ^ 63 - 1 := by omega
    simp only [if_neg h, reduceCtorEq, hle, false_and]

end Grammar

end LetLang
