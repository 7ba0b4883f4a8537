import LetLang.Proofs.Parse.Levels
import LetLang.Proofs.Parse.Steps
import Mathlib

/-!
# What climbing makes of a chain

A chain is an operand of one token and any number of links, each a binary operator with a further
operand. Its tree can be told without a parser: `Chain.splitTree` splits it at the weakest operator,
of several at the last one, and goes on with both sides. The parser never looks for that operator:
it compares each one with the level it was called with, and calls itself for the right operand.
`climbing_splits_at_weakest` is the main statement: at every level, the parser reads the chain up to
the first operator that is not above the level, and has the tree of what it read.

In one turn, climbing takes an operator with all the links that operator holds behind it
(`Chain.held_cons_of_lt`), and such a group can be folded before the rest is split
(`Chain.splitTree_group`); `Parser.heldOutcome_cons_of_lt` is both for the outcome of a run.
-/

set_option autoImplicit false

namespace LetLang

open LetLang.Grammar

namespace Chain

/-! ## Chains -/

/-- An operand of one token: a name, an integer in range or a truth value. -/
structure Atom where
  token : Token
  tree : Expr Unit
  reads : Primary [token.word] tree []

/-- A binary operator of some level with the operand behind it. -/
structure Link where
  sign : Token
  op : BinaryOp
  level : Precedence
  listed : (sign.kind, op) ∈ binaryOps level
  operand : Atom

/-- The tokens of several links. -/
def tokens (links : List Link) : List Token := links.flatMap fun l => [l.sign, l.operand.token]

theorem tokens_cons (l : Link) (ls : List Link) :
    tokens (l :: ls) = l.sign :: l.operand.token :: tokens ls := rfl

/-- The kind of the token read last, when links are read behind a token of the kind `last`. -/
def lastRead (last : TokenKind) : List Link → TokenKind
  | [] => last
  | l :: ls => lastRead l.operand.token.kind ls

theorem lastRead_append (last : TokenKind) (ls ls' : List Link) :
    lastRead last (ls ++ ls') = lastRead (lastRead last ls) ls' := by
  induction ls generalizing last with
  | nil => rfl
  | cons l ls ih => exact ih _

/-! ## What a level holds -/

/-- The links before the first operator that is not above the level. -/
def held (level : Precedence) (links : List Link) : List Link := links.takeWhile (level < ·.level)

/-- The links from the first operator on that is not above the level. -/
def unheld (level : Precedence) (links : List Link) : List Link := links.dropWhile (level < ·.level)

/-- What is held and what is not are all links. -/
theorem held_append_unheld (level : Precedence) (links : List Link) :
    held level links ++ unheld level links = links :=
  List.takeWhile_append_dropWhile

theorem length_unheld_le (level : Precedence) (links : List Link) :
    (unheld level links).length ≤ links.length :=
  (List.dropWhile_suffix _).length_le

/-- All links that are held are above the level. -/
theorem lt_of_mem_held {level : Precedence} {links : List Link} {l : Link}
    (h : l ∈ held level links) : level < l.level :=
  of_decide_eq_true (List.all_eq_true.1 List.all_takeWhile l h)

/-- The first link that is not held is not above the level. -/
theorem not_lt_of_mem_head?_unheld {level : Precedence} {links : List Link} {l : Link}
    (h : l ∈ (unheld level links).head?) : ¬ level < l.level := by
  have hhead := List.head?_dropWhile_not (level < ·.level) links
  rw [unheld, Option.mem_def] at h
  rw [h] at hhead
  exact of_decide_eq_false hhead

section Cons

variable {level : Precedence} {l : Link}

theorem held_cons_of_not_lt (h : ¬ level < l.level) (links : List Link) :
    held level (l :: links) = [] :=
  List.takeWhile_cons_of_neg (by simpa using h)

theorem unheld_cons_of_not_lt (h : ¬ level < l.level) (links : List Link) :
    unheld level (l :: links) = l :: links :=
  List.dropWhile_cons_of_neg (by simpa using h)

/-- What an operator above a level holds is above the level, too. -/
theorem level_lt_of_mem_held (h : level < l.level) {links : List Link} :
    ∀ i ∈ held l.level links, decide (level < i.level) = true :=
  fun _ hi => decide_eq_true (Nat.lt_trans h (lt_of_mem_held hi))

/-- With an operator above it, a level holds what that operator holds, and what it holds itself
behind that. -/
theorem held_cons_of_lt (h : level < l.level) (links : List Link) :
    held level (l :: links) = l :: (held l.level links ++ held level (unheld l.level links)) :=
  calc held level (l :: links)
    _ = l :: held level links := List.takeWhile_cons_of_pos (by simpa using h)
    _ = l :: held level (held l.level links ++ unheld l.level links) := by
      rw [held_append_unheld]
    _ = l :: (held l.level links ++ held level (unheld l.level links)) :=
      congrArg _ (List.takeWhile_append_of_pos (level_lt_of_mem_held h))

/-- What a level leaves is what it leaves behind the links of a tighter one. -/
theorem unheld_cons_of_lt (h : level < l.level) (links : List Link) :
    unheld level (l :: links) = unheld level (unheld l.level links) :=
  calc unheld level (l :: links)
    _ = unheld level links := List.dropWhile_cons_of_pos (by simpa using h)
    _ = unheld level (held l.level links ++ unheld l.level links) := by rw [held_append_unheld]
    _ = unheld level (unheld l.level links) :=
      List.dropWhile_append_of_pos (level_lt_of_mem_held h)

end Cons

/-! ## The weakest operator -/

/-- A place where links fall into two parts, with the link between them. -/
structure Cut where
  before : List Link
  link : Link
  after : List Link

namespace Cut

/-- The links that are cut. -/
def links (cut : Cut) : List Link := cut.before ++ cut.link :: cut.after

/-- The cut is at the weakest operator, of several at the last one. -/
structure Weakest (cut : Cut) : Prop where
  before : ∀ l ∈ cut.before, ¬ l.level < cut.link.level
  after : ∀ l ∈ cut.after, cut.link.level < l.level

namespace Weakest

variable {cut cut' : Cut}

theorem rank_le (h : cut.Weakest) : ∀ l ∈ cut.links, cut.link.level.rank ≤ l.level.rank := by
  intro l hl
  rcases List.mem_append.1 hl with hl | hl
  · exact Precedence.not_lt_iff.1 (h.before l hl)
  · rcases List.mem_cons.1 hl with rfl | hl
    · exact Nat.le_refl _
    · exact Nat.le_of_lt (Precedence.lt_iff.1 (h.after l hl))

/-- Of two cuts of the same links at a weakest operator, neither lies behind the other. -/
theorem eq_nil (h : cut.Weakest) (h' : cut'.Weakest) {es : List Link}
    (hbefore : cut'.before = cut.before ++ es)
    (hbehind : cut.link :: cut.after = es ++ cut'.link :: cut'.after) : es = [] := by
  cases es with
  | nil => rfl
  | cons e es =>
    obtain ⟨rfl, hafter⟩ := List.cons.inj hbehind
    have hweaker : cut.link.level < cut'.link.level := h.after _ (by rw [hafter]; simp)
    exact absurd hweaker (h'.before _ (by rw [hbefore]; simp))

/-- Links have one cut at the weakest operator. -/
theorem unique (h : cut.Weakest) (h' : cut'.Weakest) (heq : cut.links = cut'.links) :
    cut = cut' := by
  have hsame : cut.before = cut'.before ∧ cut.link :: cut.after = cut'.link :: cut'.after := by
    rcases List.append_eq_append_iff.1 heq with ⟨es, hbefore, hbehind⟩ | ⟨es, hbefore, hbehind⟩
    · obtain rfl := h.eq_nil h' hbefore hbehind
      exact ⟨by rw [hbefore, List.append_nil], hbehind⟩
    · obtain rfl := h'.eq_nil h hbefore hbehind
      exact ⟨by rw [hbefore, List.append_nil], hbehind.symm⟩
  obtain ⟨hbefore, hbehind⟩ := hsame
  obtain ⟨hlink, hafter⟩ := List.cons.inj hbehind
  cases cut
  cases cut'
  rw [Cut.mk.injEq]
  exact ⟨hbefore, hlink, hafter⟩

end Weakest

end Cut

/-- The links `l :: ls`, cut at the weakest operator, of several at the last one. -/
def cutWeakest (l : Link) : List Link → Cut
  | [] => ⟨[], l, []⟩
  | l' :: ls =>
    let cut := cutWeakest l' ls
    if l.level < cut.link.level then ⟨[], l, l' :: ls⟩ else { cut with before := l :: cut.before }

/-- A cut loses no link. -/
theorem links_cutWeakest (l : Link) (ls : List Link) : (cutWeakest l ls).links = l :: ls := by
  induction ls generalizing l with
  | nil => rfl
  | cons l' ls ih =>
    rw [cutWeakest]
    split
    · rfl
    · have hlinks := ih l'
      rw [Cut.links] at hlinks ⊢
      rw [List.cons_append, hlinks]

theorem length_cutWeakest (l : Link) (ls : List Link) :
    (cutWeakest l ls).before.length + (cutWeakest l ls).after.length = ls.length := by
  have hlength := congrArg List.length (links_cutWeakest l ls)
  rw [Cut.links, List.length_append, List.length_cons, List.length_cons] at hlength
  omega

/-- By induction on the links: a new first link is the weakest only if it is weaker than all behind
it. -/
theorem weakest_cutWeakest (l : Link) (ls : List Link) : (cutWeakest l ls).Weakest := by
  induction ls generalizing l with
  | nil => exact ⟨by simp [cutWeakest], by simp [cutWeakest]⟩
  | cons l' ls ih =>
    rw [cutWeakest]
    split
    · next hlt =>
      refine ⟨by simp, fun x hx => ?_⟩
      exact Nat.lt_of_lt_of_le hlt ((ih l').rank_le x (by rw [links_cutWeakest]; exact hx))
    · next hle =>
      refine ⟨fun x hx => ?_, (ih l').after⟩
      rcases List.mem_cons.1 hx with rfl | hx
      · exact hle
      · exact (ih l').before x hx

/-! ## The tree of a chain -/

/-- The tree of the operand `first` with links behind it: split at the weakest operator, of several
at the last one, and so on both sides. -/
def splitTree (first : Expr Unit) : List Link → Expr Unit
  | [] => first
  | l :: ls =>
    let cut := cutWeakest l ls
    .binary cut.link.op (splitTree first cut.before) (splitTree cut.link.operand.tree cut.after)
termination_by links => links.length
decreasing_by
  all_goals
    have hlength := length_cutWeakest l ls
    simp only [List.length_cons]
    omega

/-- The tree of links is split where they are cut, wherever the weakest operator is found. -/
theorem splitTree_links {cut : Cut} (h : cut.Weakest) (first : Expr Unit) :
    splitTree first cut.links =
      .binary cut.link.op (splitTree first cut.before)
        (splitTree cut.link.operand.tree cut.after) := by
  obtain ⟨l, ls, hlinks⟩ : ∃ l ls, cut.links = l :: ls :=
    List.exists_cons_of_ne_nil (by simp [Cut.links])
  have hcut : cutWeakest l ls = cut :=
    (weakest_cutWeakest l ls).unique h ((links_cutWeakest l ls).trans hlinks.symm)
  rw [hlinks, splitTree, hcut]

/-- An operator that is weaker than all up to one that is not stronger: what stands between the two
is its right operand, and can be folded with it before the rest is split. -/
theorem splitTree_group {l : Link} {inner outer : List Link}
    (hinner : ∀ i ∈ inner, l.level < i.level) (houter : ∀ o ∈ outer.head?, ¬ l.level < o.level)
    (first : Expr Unit) :
    splitTree first (l :: (inner ++ outer)) =
      splitTree (.binary l.op first (splitTree l.operand.tree inner)) outer := by
  induction hn : outer.length using Nat.strongRecOn generalizing outer with
  | ind n ih =>
    subst hn
    cases outer with
    | nil =>
      -- All is stronger than `l`, so the chain is split there.
      have hweakest : Cut.Weakest ⟨[], l, inner⟩ := ⟨by simp, hinner⟩
      have hsplit := splitTree_links hweakest first
      rw [List.append_nil]
      rw [Cut.links] at hsplit
      simpa [splitTree] using hsplit
    | cons o os =>
      have hcut := weakest_cutWeakest o os
      have hlinks := links_cutWeakest o os
      have hlength := length_cutWeakest o os
      generalize cutWeakest o os = cut at hcut hlinks hlength
      -- The weakest operator of the outer links is the weakest of the whole chain, so both sides
      -- are split there, and only the part before it is left to compare.
      have hle : cut.link.level.rank ≤ l.level.rank :=
        Nat.le_trans (hcut.rank_le o (by rw [hlinks]; exact List.mem_cons_self))
          (Precedence.not_lt_iff.1 (houter o rfl))
      have hwhole : Cut.Weakest ⟨l :: (inner ++ cut.before), cut.link, cut.after⟩ := by
        refine ⟨fun x hx => ?_, hcut.after⟩
        rcases List.mem_cons.1 hx with rfl | hx
        · exact Precedence.not_lt_iff.2 hle
        · rcases List.mem_append.1 hx with hx | hx
          · have hlt := Precedence.lt_iff.1 (hinner x hx)
            exact Precedence.not_lt_iff.2 (Nat.le_trans hle (Nat.le_of_lt hlt))
          · exact hcut.before x hx
      have hbefore : ∀ o' ∈ cut.before.head?, ¬ l.level < o'.level := by
        intro o' ho'
        refine houter o' ?_
        rw [← hlinks, Cut.links, List.head?_append, Option.mem_def.1 ho']
        rfl
      have hsplit := splitTree_links hwhole first
      have hrest := splitTree_links hcut (.binary l.op first (splitTree l.operand.tree inner))
      have hgroup := ih cut.before.length (by rw [List.length_cons]; omega) hbefore rfl
      rw [hlinks] at hrest
      rw [hrest, ← hgroup, ← hsplit, ← hlinks, Cut.links, Cut.links, List.cons_append,
        List.append_assoc]

end Chain

/-! ## The parser on a chain -/

/-- A primary of one word is a name, an integer or a truth value. -/
theorem Grammar.cases_of_primary_singleton {w : Word} {e : Expr Unit} (h : Primary [w] e []) :
    (w.kind = .identifier ∧ e = .callable (.name w.text)) ∨
      (w.kind = .integer ∧ ∃ v, Numeral.ofDigits? w.text = some v ∧ e = .int v) ∨
      (w.kind = .trueWord ∧ e = .bool true) ∨ (w.kind = .falseWord ∧ e = .bool false) := by
  cases h with
  | name hx => exact .inl ⟨hx, rfl⟩
  | int hn hle => exact .inr (.inl ⟨hn, _, ofDigits?_eq_some_iff.2 ⟨hle, rfl⟩, rfl⟩)
  | true hb => exact .inr (.inr (.inl ⟨hb, rfl⟩))
  | false hb => exact .inr (.inr (.inr ⟨hb, rfl⟩))
  | group _ he _ =>
    -- One word leaves none for the expression between the parentheses.
    exact absurd he.starts (by decide)

theorem Cursor.peek_mk_cons (last : TokenKind) (t : Token) (ts : List Token) (stop : Nat) :
    (⟨last, t :: ts, stop⟩ : Cursor).peek = t := rfl

theorem Cursor.advance_mk_cons (last : TokenKind) (t : Token) (ts : List Token) (stop : Nat) :
    (⟨last, t :: ts, stop⟩ : Cursor).advance = ⟨t.kind, ts, stop⟩ := rfl

namespace Parser

open LetLang.Chain

/-- An operand of one token is read as its tree. -/
theorem operand_atom (a : Atom) (depth : Nat) (last : TokenKind) (ts : List Token) (stop : Nat) :
    operand (depth + 1) ⟨last, a.token :: ts, stop⟩ =
      some ⟨.ok a.tree, [], ⟨a.token.kind, ts, stop⟩⟩ := by
  unfold operand
  rw [next_bind, Cursor.peek_mk_cons, Cursor.advance_mk_cons]
  obtain ⟨hkind, htree⟩ | ⟨hkind, v, hv, htree⟩ | ⟨hkind, htree⟩ | ⟨hkind, htree⟩ :=
    cases_of_primary_singleton a.reads
  · rw [show a.token.kind = .identifier from hkind, htree]
    rfl
  · rw [show a.token.kind = .integer from hkind, htree]
    simp only [show Numeral.ofDigits? a.token.text = some v from hv]
    rfl
  · rw [show a.token.kind = .trueWord from hkind, htree]
    rfl
  · rw [show a.token.kind = .falseWord from hkind, htree]
    rfl

/-- Where no link is left, climbing stops. -/
theorem climb_rest (depth : Nat) (level : Precedence) (left : Expr Unit) {rest : List Token}
    (hrest : ∀ t ∈ rest.head?, t.kind ∉ continuing) (last : TokenKind) (stop : Nat) :
    climb (depth + 1) level left ⟨last, rest, stop⟩ = some ⟨.ok left, [], ⟨last, rest, stop⟩⟩ := by
  unfold climb
  rw [peek_bind, if_neg]
  · rfl
  · intro hlt
    have hcontinuing : (⟨last, rest, stop⟩ : Cursor).peek.kind ∈ continuing :=
      mem_continuing_iff.2 (Nat.lt_of_le_of_lt (Nat.zero_le _) hlt)
    cases rest with
    | nil => exact absurd hcontinuing (by simp [Cursor.peek, Token.eof, continuing])
    | cons t ts => exact hrest t rfl hcontinuing

/-- How reading what a level holds of some links ends, when `left` is the tree of what stands before
them. -/
def heldOutcome (level : Precedence) (left : Expr Unit) (last : TokenKind) (links : List Link)
    (rest : List Token) (stop : Nat) : Outcome (Expr Unit) :=
  ⟨.ok (splitTree left (held level links)), [],
    ⟨lastRead last (held level links), tokens (unheld level links) ++ rest, stop⟩⟩

theorem heldOutcome_nil (level : Precedence) (left : Expr Unit) (last : TokenKind)
    (rest : List Token) (stop : Nat) :
    heldOutcome level left last [] rest stop = ⟨.ok left, [], ⟨last, rest, stop⟩⟩ := by
  rw [heldOutcome, held, List.takeWhile_nil, splitTree]
  rfl

section Cons

variable {level : Precedence} {l : Link} (left : Expr Unit) (last : TokenKind)
  (links : List Link) (rest : List Token) (stop : Nat)

/-- A first link that is not above the level is left, with all behind it. -/
theorem heldOutcome_cons_of_not_lt (h : ¬ level < l.level) :
    heldOutcome level left last (l :: links) rest stop =
      ⟨.ok left, [], ⟨last, tokens (l :: links) ++ rest, stop⟩⟩ := by
  rw [heldOutcome, held_cons_of_not_lt h, unheld_cons_of_not_lt h, splitTree]
  rfl

/-- An operator above the level is folded with what it holds, and the level goes on behind that. -/
theorem heldOutcome_cons_of_lt (h : level < l.level) :
    heldOutcome level left last (l :: links) rest stop =
      heldOutcome level (.binary l.op left (splitTree l.operand.tree (held l.level links)))
        (lastRead l.operand.token.kind (held l.level links)) (unheld l.level links) rest stop := by
  have hinner : ∀ i ∈ held l.level links, l.level < i.level := fun _ => lt_of_mem_held
  have houter : ∀ o ∈ (held level (unheld l.level links)).head?, ¬ l.level < o.level := by
    intro o ho
    rw [held, List.head?_takeWhile, Option.mem_def, Option.filter_eq_some_iff] at ho
    exact not_lt_of_mem_head?_unheld ho.1
  rw [heldOutcome, heldOutcome, held_cons_of_lt h, unheld_cons_of_lt h,
    splitTree_group hinner houter, lastRead, lastRead_append]

end Cons

/-- At this depth, the parsers read what their level holds of every chain that is short enough, and
have its tree. -/
structure ReadsChains (depth : Nat) : Prop where
  expression : ∀ (level : Precedence) (first : Atom) (links : List Link) (rest : List Token)
    (last : TokenKind) (stop : Nat), 2 * links.length + 2 ≤ depth →
    (∀ t ∈ rest.head?, t.kind ∉ continuing) →
    expression depth level ⟨last, first.token :: (tokens links ++ rest), stop⟩ =
      some (heldOutcome level first.tree first.token.kind links rest stop)
  climb : ∀ (level : Precedence) (left : Expr Unit) (links : List Link) (rest : List Token)
    (last : TokenKind) (stop : Nat), 2 * links.length + 1 ≤ depth →
    (∀ t ∈ rest.head?, t.kind ∉ continuing) →
    climb depth level left ⟨last, tokens links ++ rest, stop⟩ =
      some (heldOutcome level left last links rest stop)

namespace ReadsChains

variable {depth : Nat} (ih : ReadsChains depth) (level : Precedence) (links : List Link)
  (rest : List Token) (last : TokenKind) (stop : Nat)

include ih

/-- An operand is one token, and behind it the loop reads what the level holds. -/
theorem expression_succ (first : Atom) (hdepth : 2 * links.length + 2 ≤ depth + 1)
    (hrest : ∀ t ∈ rest.head?, t.kind ∉ continuing) :
    Parser.expression (depth + 1) level ⟨last, first.token :: (tokens links ++ rest), stop⟩ =
      some (heldOutcome level first.tree first.token.kind links rest stop) := by
  obtain ⟨d, rfl⟩ : ∃ d, depth = d + 1 := ⟨depth - 1, by omega⟩
  unfold Parser.expression
  rw [bind_ok_nil (operand_atom first d last _ stop)]
  exact ih.climb level first.tree links rest _ stop (by omega) hrest

/-- The loop reads an operator and the links that its level holds, and goes on behind them. -/
theorem climb_succ (left : Expr Unit) (hdepth : 2 * links.length + 1 ≤ depth + 1)
    (hrest : ∀ t ∈ rest.head?, t.kind ∉ continuing) :
    Parser.climb (depth + 1) level left ⟨last, tokens links ++ rest, stop⟩ =
      some (heldOutcome level left last links rest stop) := by
  cases links with
  | nil =>
    rw [heldOutcome_nil]
    exact climb_rest depth level left hrest last stop
  | cons l ls =>
    obtain ⟨hop, hlevel⟩ := mem_binaryOps_iff.1 l.listed
    have hprecedence : l.sign.kind.precedence = l.level :=
      (precedence_of_binaryOp? hop).trans hlevel
    rw [tokens_cons, List.cons_append, List.cons_append]
    unfold Parser.climb
    rw [peek_bind, Cursor.peek_mk_cons, hprecedence]
    by_cases hlt : level < l.level
    · rw [if_pos hlt, next_bind, Cursor.advance_mk_cons, hop, heldOutcome_cons_of_lt _ _ _ _ _ hlt]
      have hunheld := length_unheld_le l.level ls
      rw [List.length_cons] at hdepth
      -- The right operand is what the operator holds, and climbing goes on behind that.
      have hright := ih.expression l.level l.operand ls rest l.sign.kind stop (by omega) hrest
      rw [← hlevel] at hright
      simp only [bind_ok_nil hright]
      rw [hlevel]
      exact ih.climb level _ (unheld l.level ls) rest _ stop (by omega) hrest
    · rw [if_neg hlt, heldOutcome_cons_of_not_lt _ _ _ _ _ hlt]
      rfl

end ReadsChains

/-- Every link takes two calls that are nested: one for its right operand, and one that climbs from
there. -/
theorem readsChains : ∀ depth, ReadsChains depth
  | 0 =>
    { expression := fun _ _ _ _ _ _ h => by omega
      climb := fun _ _ _ _ _ _ h => by omega }
  | depth + 1 =>
    have ih := readsChains depth
    { expression := fun level first links rest last stop =>
        ih.expression_succ level links rest last stop first
      climb := fun level left links rest last stop =>
        ih.climb_succ level links rest last stop left }

end Parser

open LetLang.Chain

/-- Before a token that continues no expression, a chain is read up to its first operator that is
not above the level; the parser has the tree that splitting the part before it at the weakest
operators gives, and stands right before that operator. -/
theorem climbing_splits_at_weakest (level : Precedence) (first : Atom) (links : List Link)
    {rest : List Token} (hrest : ∀ t ∈ rest.head?, t.kind ∉ continuing) (last : TokenKind)
    (stop : Nat) {depth : Nat} (hdepth : 2 * links.length + 2 ≤ depth) :
    Parser.expression depth level ⟨last, first.token :: (tokens links ++ rest), stop⟩ =
      some ⟨.ok (splitTree first.tree (held level links)), [],
        ⟨lastRead first.token.kind (held level links),
          tokens (unheld level links) ++ rest, stop⟩⟩ :=
  (Parser.readsChains depth).expression level first links rest last stop hdepth hrest

/-- A name at byte `start`. -/
def Chain.name (x : String) (start : Nat) : Atom :=
  ⟨⟨.identifier, x, start⟩, .callable (.name x), .name rfl⟩

/-- The links of `a - b * c - d < e`, behind `a`. -/
def Chain.subtractions : List Link :=
  [⟨⟨.minus, "-", 2⟩, .subtract, .additive, by decide, name "b" 4⟩,
   ⟨⟨.asterisk, "*", 6⟩, .multiply, .multiplicative, by decide, name "c" 8⟩,
   ⟨⟨.minus, "-", 10⟩, .subtract, .additive, by decide, name "d" 12⟩,
   ⟨⟨.lessThan, "<", 14⟩, .lessThan, .relational, by decide, name "e" 16⟩]

theorem climbing_splits_at_weakest_subtractions :
    (∀ t ∈ [(⟨.semicolon, ";", 17⟩ : Token)].head?, t.kind ∉ continuing) ∧
      2 * subtractions.length + 2 ≤ 10 ∧
      Parser.expression 10 .relational (Cursor.ofSource "a - b * c - d < e;") =
        some ⟨.ok (.binary .subtract
            (.binary .subtract (.callable (.name "a"))
              (.binary .multiply (.callable (.name "b")) (.callable (.name "c"))))
            (.callable (.name "d"))), [],
          ⟨.identifier, [⟨.lessThan, "<", 14⟩, ⟨.identifier, "e", 16⟩, ⟨.semicolon, ";", 17⟩],
            18⟩⟩ := by
  have hrest : ∀ t ∈ [(⟨.semicolon, ";", 17⟩ : Token)].head?, t.kind ∉ continuing := by decide
  have hdepth : 2 * subtractions.length + 2 ≤ 10 := by decide
  have hsource : Cursor.ofSource "a - b * c - d < e;" =
      ⟨.eof, (name "a" 0).token :: (tokens subtractions ++ [⟨.semicolon, ";", 17⟩]), 18⟩ := by
    cbv
  refine ⟨hrest, hdepth, ?_⟩
  rw [hsource,
    climbing_splits_at_weakest .relational (name "a" 0) subtractions hrest .eof 18 hdepth]
  simp [held, unheld, subtractions, splitTree, cutWeakest, lastRead, tokens, name,
    Precedence.lt_iff, Precedence.rank]

end LetLang
