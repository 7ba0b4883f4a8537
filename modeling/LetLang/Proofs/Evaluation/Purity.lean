import LetLang.Proofs.Evaluation.Locality
import LetLang.Proofs.Evaluation.Reach
import LetLang.Proofs.Evaluation.Writes

/-!
# Expressions without `let`

An expression that contains no `let` outside function literals may call any functions and so make
frames, but changes none that is there. What is evaluated behind it therefore ends as it would
without it, and two such expressions can be evaluated in either order: the heaps that are left
differ in the names of the frames that the two have made (`expressions_without_let_are_pure`).
-/

set_option autoImplicit false

namespace LetLang

variable {α : Type}

/-! ## Frames that hold the same -/

section Renamed

variable {ρ σ : FrameId → FrameId} {f f' g : Frame α} {v : Value α}

/-- A renaming matters on captured frames only. -/
theorem Value.rename_congr (h : ∀ i, v.Captures i → σ i = ρ i) : v.rename σ = v.rename ρ := by
  cases v with
  | func c => rw [rename, rename, h c.env ⟨c, rfl, rfl⟩]
  | _ => rfl

theorem Frame.Renamed.congr (h : f.Renamed ρ f') (houter : ∀ o, f.outer = some o → σ o = ρ o)
    (hbindings : ∀ x v i, f.bindings.find? x = some v → v.Captures i → σ i = ρ i) :
    f.Renamed σ f' := by
  refine ⟨?_, fun x => ?_⟩
  · rw [h.outer]
    exact (Option.map_congr fun o ho => houter o ho).symm
  · rw [h.bindings x]
    exact (Option.map_congr fun v hv => Value.rename_congr fun i hi => hbindings x v i hv hi).symm

theorem Frame.Renamed.symm_id (h : f.Renamed id f') : f'.Renamed id f := by
  obtain ⟨houter, hbindings⟩ := Frame.renamed_id.1 h
  exact Frame.renamed_id.2 ⟨houter.symm, fun x => (hbindings x).symm⟩

theorem Frame.Renamed.of_same_left (hsame : f.Renamed id g) (h : f.Renamed ρ f') :
    g.Renamed ρ f' := by
  obtain ⟨houter, hbindings⟩ := Frame.renamed_id.1 hsame
  exact ⟨by rw [houter, h.outer], fun x => by rw [hbindings, h.bindings]⟩

theorem Frame.Renamed.of_same_right (h : f.Renamed ρ f') (hsame : f'.Renamed id g) :
    f.Renamed ρ g := by
  obtain ⟨houter, hbindings⟩ := Frame.renamed_id.1 hsame
  exact ⟨by rw [houter, h.outer], fun x => by rw [hbindings, h.bindings]⟩

end Renamed

namespace Heap

variable {ρ σ : FrameId → FrameId} {roots : FrameId → Prop} {env i : FrameId}
  {h h' k k' : Heap α}

/-- A change of the heap that writes no name leaves what the frames hold. -/
theorem Writes.rel (hwrites : h.Writes env [] k) (hi : i < h.frames.size) :
    Option.Rel (Frame.Renamed id) (h.frame? i) (k.frame? i) := by
  obtain ⟨f, hf⟩ := exists_frame?_of_lt hi
  rw [hf]
  by_cases hie : i = env
  · subst hie
    obtain ⟨f', hf', hrebinds⟩ := hwrites.own f hf
    rw [hf']
    refine .some (Frame.renamed_id.2 ⟨hrebinds.outer, fun x => ?_⟩)
    rcases hrebinds.bindings x with heq | ⟨hx, -⟩
    · exact heq
    · cases hx
  · rw [hwrites.others i hi hie, hf]
    exact .some (Frame.renamed_id.2 ⟨rfl, fun _ => rfl⟩)

theorem Writes.agree (hwrites : h.Writes env [] k)
    (hmade : ∀ i, h.Reachable roots i → i < h.frames.size) : h.Agree id (h.Reachable roots) k :=
  ⟨fun i hi => hwrites.rel (hmade i hi), fun _ _ _ _ hlt => hlt⟩

namespace Agree

/-- Heaps that hold the same in reachable frames have the same reachable frames. -/
theorem reachable_of (hsame : h.Agree id (h.Reachable roots) k) (hi : k.Reachable roots i) :
    h.Reachable roots i := by
  -- What is reached next is read in a frame that holds the same in the other heap.
  have hframe : ∀ {i f}, h.Reachable roots i → k.frame? i = some f →
      ∃ g, h.frame? i = some g ∧ g.Renamed id f := by
    intro i f hreach hf
    have hrel := hsame.frames i hreach
    rw [id_eq, hf] at hrel
    generalize hg : h.frame? i = found at hrel
    cases hrel with
    | some hrenamed => exact ⟨_, rfl, hrenamed⟩
  induction hi with
  | root hi => exact .root hi
  | outer _ hf ho ih =>
    obtain ⟨g, hg, hrenamed⟩ := hframe ih hf
    exact .outer ih hg (by rw [← (Frame.renamed_id.1 hrenamed).1, ho])
  | binding _ hf hv hcaptures ih =>
    obtain ⟨g, hg, hrenamed⟩ := hframe ih hf
    exact .binding ih hg (by rw [← (Frame.renamed_id.1 hrenamed).2, hv]) hcaptures

theorem refl : h.Agree id (h.Reachable roots) h := by
  refine ⟨fun i _ => ?_, fun _ _ _ _ hlt => hlt⟩
  rw [id_eq]
  cases h.frame? i with
  | none => exact .none
  | some f => exact .some (Frame.renamed_id.2 ⟨rfl, fun _ => rfl⟩)

theorem symm_id (hsame : h.Agree id (h.Reachable roots) k) : k.Agree id (k.Reachable roots) h := by
  refine ⟨fun i hi => ?_, fun _ _ _ _ hlt => hlt⟩
  have hrel := hsame.frames i (hsame.reachable_of hi)
  rw [id_eq] at hrel ⊢
  generalize h.frame? i = found at hrel ⊢
  generalize k.frame? i = found' at hrel ⊢
  cases hrel with
  | none => exact .none
  | some hrenamed => exact .some hrenamed.symm_id

/-- A heap that holds the same can take the place of the first one, and a renaming that is the same
on reachable frames that of the renaming. -/
theorem of_same_left (hagree : h.Agree ρ (h.Reachable roots) h')
    (hsame : h.Agree id (h.Reachable roots) k) (hσ : ∀ i, h.Reachable roots i → σ i = ρ i) :
    k.Agree σ (k.Reachable roots) h' := by
  refine ⟨fun i hi => ?_, fun i j hi hj hlt => ?_⟩
  · have hreach := hsame.reachable_of hi
    have hrel := hsame.frames i hreach
    have hrel' := hagree.frames i hreach
    rw [id_eq] at hrel
    rw [hσ i hreach]
    generalize hf : h.frame? i = found at hrel hrel'
    generalize k.frame? i = found₁ at hrel ⊢
    generalize h'.frame? (ρ i) = found' at hrel' ⊢
    cases hrel with
    | none =>
      cases hrel' with
      | none => exact .none
    | some hrenamed =>
      cases hrel' with
      | some hrenamed' =>
        refine .some (hrenamed.of_same_left (hrenamed'.congr ?_ ?_))
        · exact fun o ho => hσ o (.outer hreach hf ho)
        · exact fun x v j hv hj => hσ j (.binding hreach hf hv hj)
  · rw [hσ i (hsame.reachable_of hi), hσ j (hsame.reachable_of hj)]
    exact hagree.order i j (hsame.reachable_of hi) (hsame.reachable_of hj) hlt

/-- A heap in which the frames of the second one hold the same can take its place. -/
theorem of_same_right (hagree : h.Agree ρ (h.Reachable roots) h')
    (hmade : ∀ i, h.Reachable roots i → i < h.frames.size)
    (hsame : ∀ j < h'.frames.size, Option.Rel (Frame.Renamed id) (h'.frame? j) (k'.frame? j)) :
    h.Agree ρ (h.Reachable roots) k' := by
  refine ⟨fun i hi => ?_, hagree.order⟩
  obtain ⟨f, hf⟩ := exists_frame?_of_lt (hmade i hi)
  obtain ⟨f', hf', hrenamed⟩ := exists_of_rel_some (hf ▸ hagree.frames i hi)
  obtain ⟨g, hg, hsame'⟩ := exists_of_rel_some (hf' ▸ hsame _ (lt_size_of_frame?_eq_some hf'))
  rw [hf, hg]
  exact .some (hrenamed.of_same_right hsame')

end Agree

end Heap

/-! ## Evaluation behind an expression without `let` -/

/-- The runs of an expression in an environment, by the depth they may use. -/
abbrev Expr.runs (e : Expr α) (env : FrameId) : Nat → Eval α (Value α) :=
  fun depth => Eval.expression depth env e

section Runs

variable {d e : Expr α} {env : FrameId} {h h₁ h₂ : Heap α}

theorem Expr.writes_nil (hd : d.lets = []) {r : Except (Unwind α) (Value α)}
    (hrun : Eval.Ends (d.runs env) h r h₁) : h.Writes env [] h₁ := by
  obtain ⟨depth, hrun⟩ := hrun
  exact hd ▸ (Eval.writes_all depth).expression env d h r h₁ hrun

/-- Evaluation ends alike on heaps that hold the same in all frames it can reach. -/
theorem Expr.endAlike (hmade : ∀ i, h.Reachable (· = env) i → i < h.frames.size)
    (hsame : h.Agree id (h.Reachable (· = env)) h₁) :
    EndAlike id (· = env) h h₁ (e.runs env) (e.runs env) :=
  hsame.endAlike hmade (fun hle => (Node.expr e).eval_le env hle)
    (fun hle => (Node.expr e).eval_le env hle) fun depth =>
      ((hsame.renaming hmade).simulation α).matches_eval (hsame.envs hmade (.root rfl)) depth
        (.expr e)

end Runs

/-! ## Two expressions in either order -/

/-- Two values `v` and `w` that were computed in the heap `h`, and the values `v'` and `w'` in their
place in the heap `k`. The heaps have equally many frames, the first `size` of which have kept their
names. The renaming `σ` of the others makes the second values of the first, and the heaps agree on
what the environment and either value can reach. No operator tells the values apart. -/
structure Reordered (σ : FrameId → FrameId) (env : FrameId) (size : Nat) (h k : Heap α)
    (v w v' w' : Value α) : Prop where
  old : ∀ i < size, σ i = i
  injective : ∀ i < h.frames.size, ∀ j < h.frames.size, σ i = σ j → i = j
  frames : k.frames.size = h.frames.size
  left : v' = v.rename σ
  right : w' = w.rename σ
  left_agree : h.Agree σ (h.Reachable fun i => i = env ∨ ResultCaptures (.ok v) i) k
  right_agree : h.Agree σ (h.Reachable fun i => i = env ∨ ResultCaptures (.ok w) i) k
  operators : ∀ op : BinaryOp, op.apply v' w' = op.apply v w

/-- The renaming under which the frames from `first` up to `middle` and those behind them change
places: the former go to `middle'` and behind, the latter to `first`. -/
def exchange (first middle middle' : Nat) : Nat → Nat :=
  extendRenaming (extendRenaming id first middle') middle first

section Exchange

variable {first middle middle' last i j : Nat}

theorem exchange_of_lt (hi : i < middle) :
    exchange first middle middle' i = extendRenaming id first middle' i :=
  extendRenaming_of_lt hi

theorem exchange_of_le (hi : middle ≤ i) : exchange first middle middle' i = first + (i - middle) :=
  extendRenaming_of_le hi

theorem exchange_of_old (hi : i < first) (hle : first ≤ middle) :
    exchange first middle middle' i = i := by
  rw [exchange_of_lt (Nat.lt_of_lt_of_le hi hle), extendRenaming_of_lt hi, id_eq]

theorem exchange_cases (hle : first ≤ middle) (i : Nat) :
    i < first ∧ exchange first middle middle' i = i ∨
      first ≤ i ∧ i < middle ∧ exchange first middle middle' i = middle' + (i - first) ∨
      middle ≤ i ∧ exchange first middle middle' i = first + (i - middle) := by
  rcases Nat.lt_or_ge i middle with hi | hi
  · rcases Nat.lt_or_ge i first with hfirst | hfirst
    · exact .inl ⟨hfirst, exchange_of_old hfirst hle⟩
    · exact .inr (.inl ⟨hfirst, hi, by rw [exchange_of_lt hi, extendRenaming_of_le hfirst]⟩)
  · exact .inr (.inr ⟨hi, exchange_of_le hi⟩)

/-- Frames are kept apart if those that go first end where the others are put. -/
theorem exchange_injective (hle : first ≤ middle) (hlast : middle ≤ last)
    (hmiddle : middle' + middle = last + first) (hi : i < last) (hj : j < last)
    (heq : exchange first middle middle' i = exchange first middle middle' j) : i = j := by
  have hcases := @exchange_cases first middle middle' hle
  rcases hcases i with ⟨_, hi'⟩ | ⟨_, _, hi'⟩ | ⟨_, hi'⟩ <;>
    rcases hcases j with ⟨_, hj'⟩ | ⟨_, _, hj'⟩ | ⟨_, hj'⟩ <;>
    rw [hi', hj'] at heq <;> omega

end Exchange

/-- What is computed by two expressions without `let` can be computed in the other order. -/
theorem Expr.reordered {d e : Expr α} {env : FrameId} {h h₁ h₂ : Heap α} {v w : Value α}
    (hmade : ∀ i, h.Reachable (· = env) i → i < h.frames.size) (hd : d.lets = [])
    (he : e.lets = []) (hrun : Eval.Ends (d.runs env) h (.ok v) h₁)
    (hrun' : Eval.Ends (e.runs env) h₁ (.ok w) h₂) :
    ∃ σ v' w' k₁ k₂, Eval.Ends (e.runs env) h (.ok w') k₁ ∧
      Eval.Ends (d.runs env) k₁ (.ok v') k₂ ∧ Reordered σ env h.frames.size h₂ k₂ v w v' w' := by
  have hwrites := Expr.writes_nil hd hrun
  have hwrites' := Expr.writes_nil he hrun'
  have hsame := hwrites.agree hmade
  have hmade₁ : ∀ i, h₁.Reachable (· = env) i → i < h₁.frames.size :=
    fun i hi => Nat.lt_of_lt_of_le (hmade i (hsame.reachable_of hi)) hwrites.size
  -- Without `d` before it, `e` ends as it does behind `d`.
  have hfirst := Expr.endAlike (e := e) hmade₁ hsame.symm_id
  obtain ⟨r, k₁, hearly⟩ := hfirst.ends.1 ⟨_, _, hrun'⟩
  obtain ⟨rfl, hsize, hagree⟩ := hfirst.results hrun' hearly
  -- Then `d` ends behind `e` as it does without it.
  have hwritesEarly := Expr.writes_nil he hearly
  have hsecond := Expr.endAlike (e := d) hmade (hwritesEarly.agree hmade)
  obtain ⟨r, k₂, hlate⟩ := hsecond.ends.1 ⟨_, _, hrun⟩
  obtain ⟨rfl, hsize', hagree'⟩ := hsecond.results hrun hlate
  have hwritesLate := Expr.writes_nil hd hlate
  -- What `d` reaches was there before `e`, and what `e` reaches is not what `d` has made.
  have hlt : ∀ i, h₁.Reachable (fun i => i = env ∨ ResultCaptures (.ok v) i) i →
      i < h₁.frames.size := by
    obtain ⟨depth, hrun⟩ := hrun
    exact fun i hi => ((Node.expr d).reaches hmade hrun hi).2
  have hlt' : ∀ i, h₂.Reachable (fun i => i = env ∨ ResultCaptures (.ok w) i) i →
      (i < h.frames.size ∨ h₁.frames.size ≤ i) ∧ i < h₂.frames.size := by
    obtain ⟨depth, hrun'⟩ := hrun'
    intro i hi
    obtain ⟨hi | hi, hlast⟩ := (Node.expr e).reaches hmade₁ hrun' hi
    · exact ⟨.inl (hmade i (hsame.reachable_of hi)), hlast⟩
    · exact ⟨.inr hi, hlast⟩
  have hleft : ∀ i, h₁.Reachable (fun i => i = env ∨ ResultCaptures (.ok v) i) i →
      exchange h.frames.size h₁.frames.size k₁.frames.size i =
        extendRenaming id h.frames.size k₁.frames.size i :=
    fun i hi => exchange_of_lt (hlt i hi)
  have hright : ∀ i, h₂.Reachable (fun i => i = env ∨ ResultCaptures (.ok w) i) i →
      exchange h.frames.size h₁.frames.size k₁.frames.size i =
        extendRenaming id h₁.frames.size h.frames.size i := by
    intro i hi
    rcases (hlt' i hi).1 with hold | hnew
    · rw [exchange_of_old hold hwrites.size,
        extendRenaming_of_lt (Nat.lt_of_lt_of_le hold hwrites.size), id_eq]
    · rw [exchange_of_le hnew, extendRenaming_of_le hnew]
  refine ⟨exchange h.frames.size h₁.frames.size k₁.frames.size, _, _, k₁, k₂, hearly, hlate, ?_⟩
  constructor
  case old => exact fun i hi => exchange_of_old hi hwrites.size
  case injective =>
    exact fun i hi j hj heq =>
      exchange_injective hwrites.size hwrites'.size hsize hi hj heq
  case frames => omega
  case left =>
    exact (Value.rename_congr fun i hi => hleft i (.root (.inr ⟨v, .inl rfl, hi⟩))).symm
  case right =>
    exact (Value.rename_congr fun i hi => hright i (.root (.inr ⟨w, .inl rfl, hi⟩))).symm
  case left_agree => exact hagree'.of_same_left (hwrites'.agree hlt) hleft
  case right_agree =>
    refine (hagree.of_same_left .refl hright).of_same_right (fun i hi => (hlt' i hi).2) ?_
    exact fun j hj => hwritesLate.rel hj
  case operators =>
    -- An operator does not see which frames its operands captured.
    have hany : ∀ (ρ : FrameId → FrameId) (u : Value α),
        u.Related (fun _ _ => True) (u.rename ρ) := fun ρ u => by
      cases u with
      | int n => exact .int n
      | bool b => exact .bool b
      | null => exact .null
      | func c => exact .func trivial
    exact fun op => ((hany _ v).binary_eq op (hany _ w)).symm

/-- Expressions without `let` are pure, whatever functions they call. If `d` ends, then `e` ends
behind it as it would at once; with `d` for `e`, a second evaluation ends as the first. If `d` and
then `e` have values, then so have `e` and then `d`, and these are the same up to the names of the
frames that the two have made. -/
theorem expressions_without_let_are_pure {d e : Expr α} {env : FrameId} {h : Heap α}
    (hmade : ∀ i, h.Reachable (· = env) i → i < h.frames.size) (hd : d.lets = [])
    (he : e.lets = []) :
    (∀ r h₁, Eval.Ends (d.runs env) h r h₁ →
      EndAlike id (· = env) h h₁ (e.runs env) (e.runs env)) ∧
    ∀ v w h₁ h₂, Eval.Ends (d.runs env) h (.ok v) h₁ → Eval.Ends (e.runs env) h₁ (.ok w) h₂ →
      ∃ σ v' w' k₁ k₂, Eval.Ends (e.runs env) h (.ok w') k₁ ∧
        Eval.Ends (d.runs env) k₁ (.ok v') k₂ ∧
        Reordered σ env h.frames.size h₂ k₂ v w v' w' := by
  constructor
  · intro r h₁ hrun
    exact Expr.endAlike hmade ((Expr.writes_nil hd hrun).agree hmade)
  · intro v w h₁ h₂ hrun hrun'
    exact Expr.reordered hmade hd he hrun hrun'

/-- A frame that binds `f` to the function `fn(n) {fn() {n}}` of the frame 0. -/
def keeper : Frame Unit :=
  ⟨[("f", .func ⟨(), ["n"], [.expr (.callable (.func () [] [.expr (.callable (.name "n"))]))], 0⟩)],
    none⟩

/-- The heap of this frame, with others behind it. -/
def keepers (frames : List (Frame Unit)) : Heap Unit := ⟨(keeper :: frames).toArray⟩

/-- The call `f(n)`. -/
def keep (n : Int64) : Expr Unit := .call (.name "f") [.int n]

/-- The function `fn() {n}` in a frame. -/
def kept (env : FrameId) : Value Unit := .func ⟨(), [], [.expr (.callable (.name "n"))], env⟩

theorem reachable_keepers {i : FrameId} (hi : (keepers []).Reachable (· = 0) i) : i = 0 := by
  induction hi with
  | root hi => exact hi
  | outer _ hf ho ih =>
    subst ih
    cases hf
    cases ho
  | @binding _ j _ x v _ hf hv hcaptures ih =>
    subst ih
    obtain rfl : keeper = _ := Option.some.inj hf
    obtain ⟨c, rfl, rfl⟩ := hcaptures
    simp only [keeper, Bindings.find?, Option.ite_none_right_eq_some, Option.some.injEq,
      Value.func.injEq] at hv
    rw [← hv.2]

/-- The calls `f(1)` and `f(2)` make a frame each, which their values capture: the second call ends
alike behind the first, and both can change places. -/
theorem expressions_without_let_are_pure_closures :
    EndAlike id (· = 0) (keepers []) (keepers [⟨[("n", .int 1)], some 0⟩]) ((keep 2).runs 0)
        ((keep 2).runs 0) ∧
      ∃ σ v' w' k₁ k₂, Eval.Ends ((keep 2).runs 0) (keepers []) (.ok w') k₁ ∧
        Eval.Ends ((keep 1).runs 0) k₁ (.ok v') k₂ ∧
        Reordered σ 0 1 (keepers [⟨[("n", .int 1)], some 0⟩, ⟨[("n", .int 2)], some 0⟩]) k₂
          (kept 1) (kept 2) v' w' := by
  have hmade : ∀ i, (keepers []).Reachable (· = 0) i → i < (keepers []).frames.size := by
    intro i hi
    rw [reachable_keepers hi]
    decide
  have hrun : Eval.Ends ((keep 1).runs 0) (keepers []) (.ok (kept 1))
      (keepers [⟨[("n", .int 1)], some 0⟩]) := ⟨6, by cbv⟩
  have hrun' : Eval.Ends ((keep 2).runs 0) (keepers [⟨[("n", .int 1)], some 0⟩])
      (.ok (kept 2)) (keepers [⟨[("n", .int 1)], some 0⟩, ⟨[("n", .int 2)], some 0⟩]) :=
    ⟨6, by cbv⟩
  obtain ⟨hafter, hreorder⟩ :=
    @expressions_without_let_are_pure Unit (keep 1) (keep 2) 0 (keepers []) hmade rfl rfl
  exact ⟨hafter _ _ hrun, hreorder _ _ _ _ hrun hrun'⟩

end LetLang
