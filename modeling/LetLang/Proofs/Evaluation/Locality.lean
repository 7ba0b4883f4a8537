import LetLang.Evaluation.Depth
import LetLang.Proofs.Evaluation.Simulation
import LetLang.Proofs.Heap.Reachable

/-!
# Evaluation depends on what it can reach

Two heaps that agree on all frames that a node can reach from its environment, or a call from its
function and its arguments, make no difference to the evaluation. Both runs make their frames in
step, so a renaming of the reachable frames extends to those that are made on the way, and it is a
simulation (`Renaming.simulation`).
-/

set_option autoImplicit false

namespace LetLang

variable {α β : Type}

/-! ## Renamings as simulations -/

theorem exists_of_rel_some {γ : Type} {r : β → γ → Prop} {b : β} {found : Option γ}
    (h : Option.Rel r (some b) found) : ∃ c, found = some c ∧ r b c := by
  cases h with
  | some hbc => exact ⟨_, rfl, hbc⟩

/-- A renaming of the frames `live`, which keeps their order. All frames from `size` on are among
them, and are renamed in step from `size'` on. -/
structure Renaming where
  map : FrameId → FrameId
  live : FrameId → Prop
  size : Nat
  size' : Nat
  order : ∀ i j, live i → live j → i < j → map i < map j
  fresh : ∀ i, size ≤ i → live i ∧ map i = size' + (i - size)

namespace Renaming

variable (R : Renaming) {i j : FrameId}

theorem map_lt_iff (hi : R.live i) (hj : R.live j) : R.map i < R.map j ↔ i < j := by
  constructor
  · intro h
    rcases Nat.lt_trichotomy i j with hlt | rfl | hgt
    · exact hlt
    · exact absurd h (Nat.lt_irrefl _)
    · exact absurd h (Nat.lt_asymm (R.order j i hj hi hgt))
  · exact R.order i j hi hj

theorem map_injective (hi : R.live i) (hj : R.live j) (h : R.map i = R.map j) : i = j := by
  rcases Nat.lt_trichotomy i j with hlt | heq | hgt
  · exact absurd h (Nat.ne_of_lt (R.order i j hi hj hlt))
  · exact heq
  · exact absurd h.symm (Nat.ne_of_lt (R.order j i hj hi hgt))

/-- A live frame, and its name in the other heap. -/
def Envs (i j : FrameId) : Prop := R.live i ∧ j = R.map i

/-- The heaps have grown by as many frames from `size` and `size'`, and agree on live frames. -/
structure Heaps (h h' : Heap α) : Prop where
  le : R.size ≤ h.frames.size
  size : h'.frames.size + R.size = h.frames.size + R.size'
  frames : ∀ i, R.live i →
    Option.Rel (Frame.Related R.Envs) (h.frame? i) (h'.frame? (R.map i))

variable {R} {h h' : Heap α} {e e' : FrameId}

/-- Names are looked up in live frames only, and links are followed in both heaps or in none. -/
theorem Heaps.find? (hh : R.Heaps h h') (he : R.Envs e e') (x : String) :
    Option.Rel (Value.Related R.Envs) (h.find? e x) (h'.find? e' x) := by
  induction e using Nat.strongRecOn generalizing e' with
  | ind e ih =>
    -- Lookup follows links to older frames only, so the induction is on the frame.
    obtain ⟨hlive, rfl⟩ := he
    have hframes := hh.frames e hlive
    rw [Heap.find?_eq, Heap.find?_eq]
    generalize h.frame? e = found at hframes
    generalize h'.frame? (R.map e) = found' at hframes
    cases hframes with
    | none => exact .none
    | @some f f' hf =>
      have hx := hf.bindings x
      have houter := hf.outer
      obtain ⟨bindings, outer⟩ := f
      obtain ⟨bindings', outer'⟩ := f'
      simp only at hx houter ⊢
      generalize bindings.find? x = v at hx
      generalize bindings'.find? x = v' at hx
      cases hx with
      | some hv => exact .some hv
      | none =>
        cases houter with
        | none => exact .none
        | @some o o' ho =>
          obtain ⟨holive, rfl⟩ := ho
          -- The renaming keeps the order, so the link is followed in both heaps or in none.
          simp only [R.map_lt_iff holive hlive]
          split
          · next hlt => exact ih o hlt ⟨holive, rfl⟩
          · exact .none

theorem Heaps.insert (hh : R.Heaps h h') (he : R.Envs e e') {v v' : Value α}
    (hv : v.Related R.Envs v') (x : String) : R.Heaps (h.insert e x v) (h'.insert e' x v') := by
  obtain ⟨hlive, rfl⟩ := he
  refine ⟨?_, ?_, fun i hi => ?_⟩
  · rw [Heap.size_insert]
    exact hh.le
  · rw [Heap.size_insert, Heap.size_insert]
    exact hh.size
  · have hframes := hh.frames i hi
    by_cases hie : i = e
    · subst hie
      rw [Heap.frame?_insert_self, Heap.frame?_insert_self]
      generalize h.frame? i = found at hframes
      generalize h'.frame? (R.map i) = found' at hframes
      cases hframes with
      | none => exact .none
      | some hf => exact .some (hf.insert x hv)
    · have hne : R.map i ≠ R.map e := fun heq => hie (R.map_injective hi hlive heq)
      rw [h.frame?_insert_of_ne x v hie, h'.frame?_insert_of_ne x v' hne]
      exact hframes

/-- The next frame of one heap is renamed to the next frame of the other. -/
theorem Heaps.envs_size (hh : R.Heaps h h') : R.Envs h.frames.size h'.frames.size := by
  obtain ⟨hlive, hmap⟩ := R.fresh h.frames.size hh.le
  refine ⟨hlive, ?_⟩
  have hle := hh.le
  have hsize := hh.size
  have hnext : h'.frames.size = R.size' + (h.frames.size - R.size) := by omega
  exact hnext.trans hmap.symm

theorem Heaps.alloc (hh : R.Heaps h h') {f f' : Frame α} (hf : f.Related R.Envs f') :
    R.Heaps (h.alloc f).2 (h'.alloc f').2 := by
  have hle := hh.le
  have hsize := hh.size
  obtain ⟨hlive, hmap⟩ := hh.envs_size
  refine ⟨?_, ?_, fun i hi => ?_⟩
  · rw [Heap.size_alloc]
    omega
  · rw [Heap.size_alloc, Heap.size_alloc]
    omega
  · by_cases hie : i = h.frames.size
    · subst hie
      rw [← hmap, Heap.frame?_alloc_self, Heap.frame?_alloc_self]
      exact .some hf
    · -- The renaming is injective, so the new frame of the other heap is the name of no other.
      have hne : R.map i ≠ h'.frames.size := by
        intro heq
        exact hie (R.map_injective hi hlive (heq.trans hmap))
      rw [h.frame?_alloc_of_ne f hie, h'.frame?_alloc_of_ne f' hne]
      exact hh.frames i hi

/-- A renaming is a simulation. -/
def simulation (R : Renaming) (α : Type) : Simulation α where
  envs := R.Envs
  heaps := R.Heaps
  find? hh he x := hh.find? he x
  insert hh he hv x := hh.insert he hv x
  alloc hh hf := ⟨hh.envs_size, hh.alloc hf⟩

/-! ## Reachable frames are live -/

/-- Related values are renamed ones, and captured live frames. -/
theorem rename_of_related {v v' : Value α} (h : v.Related R.Envs v') :
    v' = v.rename R.map ∧ ∀ i, v.Captures i → R.live i := by
  cases h with
  | func henv =>
    obtain ⟨hlive, rfl⟩ := henv
    refine ⟨rfl, ?_⟩
    rintro i ⟨c, hc, rfl⟩
    cases hc
    exact hlive
  | _ =>
    refine ⟨rfl, ?_⟩
    rintro i ⟨c, hc, -⟩
    cases hc

theorem Heaps.live_of_reachable (hh : R.Heaps h h') {roots : FrameId → Prop}
    (hroots : ∀ i, roots i → R.live i) {i : FrameId} (hi : h.Reachable roots i) : R.live i := by
  induction hi with
  | root hi => exact hroots _ hi
  | @outer i o f _ hf ho hlive =>
    obtain ⟨f', -, hrelated⟩ := exists_of_rel_some (hf ▸ hh.frames i hlive)
    obtain ⟨o', -, henvs⟩ := exists_of_rel_some (ho ▸ hrelated.outer)
    exact henvs.1
  | @binding i j f x v _ hf hv hcaptures hlive =>
    obtain ⟨f', -, hrelated⟩ := exists_of_rel_some (hf ▸ hh.frames i hlive)
    obtain ⟨v', -, hvalue⟩ := exists_of_rel_some (hv ▸ hrelated.bindings x)
    exact (rename_of_related hvalue).2 j hcaptures

theorem renamed_of_related {f f' : Frame α} (h : f.Related R.Envs f') : f.Renamed R.map f' := by
  obtain ⟨houter, hbindings⟩ := h
  refine ⟨?_, fun x => ?_⟩
  · generalize f.outer = o at houter
    generalize f'.outer = o' at houter
    cases houter with
    | none => rfl
    | some ho => exact congrArg some ho.2
  · have hx := hbindings x
    generalize f.bindings.find? x = v at hx
    generalize f'.bindings.find? x = v' at hx
    cases hx with
    | none => rfl
    | some hv => exact congrArg some (rename_of_related hv).1

/-- Heaps that a renaming relates agree on all that can be reached from live frames. -/
theorem Heaps.agree (hh : R.Heaps h h') {roots : FrameId → Prop}
    (hroots : ∀ i, roots i → R.live i) : h.Agree R.map (h.Reachable roots) h' := by
  refine ⟨fun i hi => ?_, fun i j hi hj hlt => ?_⟩
  · have hframes := hh.frames i (hh.live_of_reachable hroots hi)
    generalize h.frame? i = found at hframes
    generalize h'.frame? (R.map i) = found' at hframes
    cases hframes with
    | none => exact .none
    | some hf => exact .some (renamed_of_related hf)
  · exact R.order i j (hh.live_of_reachable hroots hi) (hh.live_of_reachable hroots hj) hlt

end Renaming

/-! ## Heaps that agree on reachable frames -/

section Agree

variable {ρ : FrameId → FrameId} {roots : FrameId → Prop} {h h' : Heap α} {i : FrameId}

theorem extendRenaming_of_lt {size size' : Nat} (hi : i < size) :
    extendRenaming ρ size size' i = ρ i := if_pos hi

theorem extendRenaming_of_le {size size' : Nat} (hi : size ≤ i) :
    extendRenaming ρ size size' i = size' + (i - size) := if_neg (Nat.not_lt_of_le hi)

/-- A reachable frame has a counterpart. -/
theorem Heap.Agree.lt_size (hagree : h.Agree ρ (h.Reachable roots) h')
    (hi : h.Reachable roots i) (hlt : i < h.frames.size) : ρ i < h'.frames.size := by
  obtain ⟨f, hf⟩ := Heap.exists_frame?_of_lt hlt
  obtain ⟨f', hf', -⟩ := exists_of_rel_some (hf ▸ hagree.frames i hi)
  exact Heap.lt_size_of_frame?_eq_some hf'

/-- The renaming of the reachable frames and of all that are made afterwards. -/
def Heap.Agree.renaming (hagree : h.Agree ρ (h.Reachable roots) h')
    (hmade : ∀ i, h.Reachable roots i → i < h.frames.size) : Renaming where
  map := extendRenaming ρ h.frames.size h'.frames.size
  live i := h.Reachable roots i ∨ h.frames.size ≤ i
  size := h.frames.size
  size' := h'.frames.size
  order i j hi hj hlt := by
    rcases hi with hi | hi
    · rw [extendRenaming_of_lt (hmade i hi)]
      rcases hj with hj | hj
      · rw [extendRenaming_of_lt (hmade j hj)]
        exact hagree.order i j hi hj hlt
      · -- A frame that was there comes before one that is made later.
        rw [extendRenaming_of_le hj]
        exact Nat.lt_of_lt_of_le (hagree.lt_size hi (hmade i hi)) (Nat.le_add_right _ _)
    · have hj' : h.frames.size ≤ j := Nat.le_of_lt (Nat.lt_of_le_of_lt hi hlt)
      rw [extendRenaming_of_le hi, extendRenaming_of_le hj']
      exact Nat.add_lt_add_left (Nat.sub_lt_sub_right hi hlt) _
  fresh i hi := ⟨.inr hi, extendRenaming_of_le hi⟩

variable (hagree : h.Agree ρ (h.Reachable roots) h')
  (hmade : ∀ i, h.Reachable roots i → i < h.frames.size)

include hagree hmade

/-- Reachable frames are renamed by `ρ`. -/
theorem Heap.Agree.envs (hi : h.Reachable roots i) : (hagree.renaming hmade).Envs i (ρ i) :=
  ⟨.inl hi, (extendRenaming_of_lt (hmade i hi)).symm⟩

theorem Heap.Agree.related {v : Value α} (hv : ∀ i, v.Captures i → h.Reachable roots i) :
    v.Related (hagree.renaming hmade).Envs (v.rename ρ) := by
  cases v with
  | int v => exact .int v
  | bool b => exact .bool b
  | null => exact .null
  | func c => exact .func (hagree.envs hmade (hv c.env ⟨c, rfl, rfl⟩))

theorem Heap.Agree.frame_related {f f' : Frame α} (hi : h.Reachable roots i)
    (hf : h.frame? i = some f) (hrenamed : f.Renamed ρ f') :
    f.Related (hagree.renaming hmade).Envs f' := by
  obtain ⟨houter, hbindings⟩ := hrenamed
  refine ⟨?_, fun x => ?_⟩
  · rw [houter]
    cases ho : f.outer with
    | none => exact .none
    | some o => exact .some (hagree.envs hmade (.outer hi hf ho))
  · rw [hbindings x]
    cases hv : f.bindings.find? x with
    | none => exact .none
    | some v => exact .some (hagree.related hmade fun j hj => .binding hi hf hv hj)

theorem Heap.Agree.heaps : (hagree.renaming hmade).Heaps h h' := by
  -- A live frame is reachable, or is in neither heap yet.
  refine ⟨Nat.le_refl _, Nat.add_comm _ _, fun i hi => ?_⟩
  rcases hi with hi | hi
  · have hframes := hagree.frames i hi
    have hmap : (hagree.renaming hmade).map i = ρ i := extendRenaming_of_lt (hmade i hi)
    rw [hmap]
    cases hf : h.frame? i with
    | none =>
      rw [hf] at hframes
      generalize h'.frame? (ρ i) = found' at hframes ⊢
      cases hframes with
      | none => exact .none
    | some f =>
      obtain ⟨f', hf', hrenamed⟩ := exists_of_rel_some (hf ▸ hframes)
      rw [hf']
      exact .some (hagree.frame_related hmade hi hf hrenamed)
  · have hmap : (hagree.renaming hmade).map i = h'.frames.size + (i - h.frames.size) :=
      extendRenaming_of_le hi
    rw [hmap, h.frame?_eq_none_iff i |>.2 hi, h'.frame?_eq_none_iff _ |>.2 (Nat.le_add_right _ _)]
    exact .none

end Agree

/-! ## Runs that end alike -/

/-- Whether evaluations, given by the depth they may use, end on the heap `h` with a result and a
heap. -/
def Eval.Ends (run : Nat → Eval α β) (h : Heap α) (r : Except (Unwind α) β) (k : Heap α) : Prop :=
  ∃ depth, run depth h = some (r, k)

/-- Both runs end or none does. The result of the second is that of the first with frames renamed,
both have made equally many frames, and the heaps agree on all that can be reached from the roots or
the result. The renaming is `ρ` on the frames that were there, and takes the frames that the first
run makes to those that the second makes, in order. -/
structure EndAlike (ρ : FrameId → FrameId) (roots : FrameId → Prop) (h h' : Heap α)
    (run run' : Nat → Eval α (Value α)) : Prop where
  ends : (∃ r k, Eval.Ends run h r k) ↔ ∃ r k, Eval.Ends run' h' r k
  results : ∀ {r r' k k'}, Eval.Ends run h r k → Eval.Ends run' h' r' k' →
    r' = renameResult (extendRenaming ρ h.frames.size h'.frames.size) r ∧
    k'.frames.size + h.frames.size = k.frames.size + h'.frames.size ∧
    k.Agree (extendRenaming ρ h.frames.size h'.frames.size)
      (k.Reachable fun i => roots i ∨ ResultCaptures r i) k'

namespace Renaming

variable {R : Renaming} {h h' k k' : Heap α} {r r' : Except (Unwind α) (Value α)}

/-- What two related outcomes say of the results and of the heaps. -/
theorem Heaps.of_outcomes
    (houtcomes : (R.simulation α).Outcomes (Value.Related R.Envs) (some (r, k)) (some (r', k'))) :
    r' = renameResult R.map r ∧ (∀ i, ResultCaptures r i → R.live i) ∧ R.Heaps k k' := by
  cases houtcomes with
  | ok hv hk =>
    obtain ⟨hrename, hlive⟩ := rename_of_related hv
    refine ⟨by rw [hrename]; rfl, ?_, hk⟩
    rintro i ⟨v, hv | hv, hcaptures⟩
    · cases hv
      exact hlive i hcaptures
    · cases hv
  | unwind hu hk =>
    cases hu with
    | error e =>
      refine ⟨rfl, ?_, hk⟩
      rintro i ⟨v, hv | hv, -⟩ <;> cases hv
    | ret hv =>
      obtain ⟨hrename, hlive⟩ := rename_of_related hv
      refine ⟨by rw [hrename]; rfl, ?_, hk⟩
      rintro i ⟨v, hv | hv, hcaptures⟩
      · cases hv
      · cases hv
        exact hlive i hcaptures

end Renaming

/-- Runs that match in every depth end alike. -/
theorem Heap.Agree.endAlike {ρ : FrameId → FrameId} {roots : FrameId → Prop} {h h' : Heap α}
    (hagree : h.Agree ρ (h.Reachable roots) h')
    (hmade : ∀ i, h.Reachable roots i → i < h.frames.size) {run run' : Nat → Eval α (Value α)}
    (hrun : ∀ {d d'}, d ≤ d' → Eval.Le (run d) (run d'))
    (hrun' : ∀ {d d'}, d ≤ d' → Eval.Le (run' d) (run' d'))
    (hmatches : ∀ d, ((hagree.renaming hmade).simulation α).Matches
      (Value.Related (hagree.renaming hmade).Envs) (run d) (run' d)) :
    EndAlike ρ roots h h' run run' := by
  have hheaps := hagree.heaps hmade
  constructor
  · -- Runs of equal depth match, so one has an outcome if the other has one.
    constructor
    · rintro ⟨r, k, d, hd⟩
      have houtcomes := hmatches d h h' hheaps
      rw [hd] at houtcomes
      generalize hd' : run' d h' = out' at houtcomes
      cases houtcomes with
      | ok _ _ => exact ⟨_, _, d, hd'⟩
      | unwind _ _ => exact ⟨_, _, d, hd'⟩
    · rintro ⟨r', k', d, hd'⟩
      have houtcomes := hmatches d h h' hheaps
      rw [hd'] at houtcomes
      generalize hd : run d h = out at houtcomes
      cases houtcomes with
      | ok _ _ => exact ⟨_, _, d, hd⟩
      | unwind _ _ => exact ⟨_, _, d, hd⟩
  · rintro r r' k k' ⟨d, hd⟩ ⟨d', hd'⟩
    -- Both outcomes are those in the greater depth, where the runs match.
    have houtcomes := hmatches (max d d') h h' hheaps
    rw [hrun (Nat.le_max_left d d') h _ hd, hrun' (Nat.le_max_right d d') h' _ hd'] at houtcomes
    obtain ⟨hresult, hlive, hk⟩ := Renaming.Heaps.of_outcomes houtcomes
    refine ⟨hresult, hk.size, hk.agree fun i hi => ?_⟩
    rcases hi with hi | hi
    · exact .inl (.root hi)
    · exact hlive i hi

theorem Node.eval_le (node : Node α) (env : FrameId) {depth depth' : Nat} (h : depth ≤ depth') :
    Eval.Le (node.eval depth env) (node.eval depth' env) := by
  cases node with
  | expr e => exact Eval.expression_le env e h
  | stmt s => exact Eval.statement_le env s h
  | block body => exact Eval.block_le h env body

/-- The frames that functions among the values captured. -/
def CapturedBy (vs : List (Value α)) (i : FrameId) : Prop := ∃ v ∈ vs, v.Captures i

/-- Calls depend only on what the function and its arguments can reach, and other evaluations on
what their environment can reach. If two heaps agree on these frames, up to a renaming `ρ`, then the
runs on both end alike, whatever else the heaps hold. -/
theorem evaluation_depends_on_reachable (α : Type) :
    (∀ (ρ : FrameId → FrameId) (c : Closure α) (args : List (Value α)) (h h' : Heap α),
      (∀ i, h.Reachable (CapturedBy (.func c :: args)) i → i < h.frames.size) →
      h.Agree ρ (h.Reachable (CapturedBy (.func c :: args))) h' →
      EndAlike ρ (CapturedBy (.func c :: args)) h h' (fun depth => Eval.apply depth (.func c) args)
        fun depth => Eval.apply depth (Value.rename ρ (.func c)) (args.map (Value.rename ρ))) ∧
    (∀ (ρ : FrameId → FrameId) (node : Node α) (env : FrameId) (h h' : Heap α),
      (∀ i, h.Reachable (· = env) i → i < h.frames.size) →
      h.Agree ρ (h.Reachable (· = env)) h' →
      EndAlike ρ (· = env) h h' (fun depth => node.eval depth env)
        fun depth => node.eval depth (ρ env)) := by
  constructor
  · intro ρ c args h h' hmade hagree
    have hroot : ∀ v ∈ Value.func c :: args,
        v.Related (hagree.renaming hmade).Envs (v.rename ρ) :=
      fun v hv => hagree.related hmade fun i hi => .root ⟨v, hv, hi⟩
    have hargs : List.Forall₂ (Value.Related (hagree.renaming hmade).Envs) args
        (args.map (Value.rename ρ)) :=
      List.forall₂_map_right_iff.2
        (List.forall₂_same.2 fun v hv => hroot v (List.mem_cons_of_mem _ hv))
    refine hagree.endAlike hmade (fun hle => Eval.apply_le _ _ hle)
      (fun hle => Eval.apply_le _ _ hle) fun d => ?_
    exact (((hagree.renaming hmade).simulation α).matches_all d).apply
      (hroot _ List.mem_cons_self) hargs
  · intro ρ node env h h' hmade hagree
    refine hagree.endAlike hmade (fun hle => node.eval_le _ hle) (fun hle => node.eval_le _ hle)
      fun d => ?_
    exact ((hagree.renaming hmade).simulation α).matches_eval (hagree.envs hmade (.root rfl)) d node

/-- A frame that binds `x`, and a frame inside it that shadows `x`. -/
def shadowing : Heap Unit := ⟨#[⟨[("x", .int 1)], none⟩, ⟨[("x", .int 2)], some 0⟩]⟩

/-- The outer one of the two frames alone. -/
def unshadowed : Heap Unit := ⟨#[⟨[("x", .int 1)], none⟩]⟩

/-- The function `fn() {x}` in the outer frame. -/
def readsX : Closure Unit := ⟨(), [], [.expr (.callable (.name "x"))], 0⟩

theorem reachable_shadowing {roots : FrameId → Prop} (hroots : ∀ i, roots i → i = 0) {i : FrameId}
    (hi : shadowing.Reachable roots i) : i = 0 := by
  induction hi with
  | root hi => exact hroots _ hi
  | outer _ hf ho ih =>
    subst ih
    cases hf
    cases ho
  | @binding _ j _ x v _ hf hv hcaptures ih =>
    subst ih
    obtain rfl : (⟨[("x", .int 1)], none⟩ : Frame Unit) = _ := Option.some.inj hf
    obtain ⟨c, rfl, -⟩ := hcaptures
    simp [Bindings.find?] at hv

theorem agree_shadowing {roots : FrameId → Prop} (hroots : ∀ i, roots i → i = 0) :
    shadowing.Agree id (shadowing.Reachable roots) unshadowed := by
  refine ⟨fun i hi => ?_, fun i j _ _ hlt => hlt⟩
  rw [reachable_shadowing hroots hi]
  exact .some (Frame.renamed_id.2 ⟨rfl, fun _ => rfl⟩)

theorem lt_size_shadowing {roots : FrameId → Prop} (hroots : ∀ i, roots i → i = 0) (i : FrameId)
    (hi : shadowing.Reachable roots i) : i < shadowing.frames.size := by
  rw [reachable_shadowing hroots hi]
  decide

/-- With the frame that shadows `x` removed, calling `fn() {x}` in the outer frame, and looking `x`
up there, end as before. -/
theorem evaluation_depends_on_reachable_shadowing :
    EndAlike id (CapturedBy [.func readsX]) shadowing unshadowed
        (fun depth => Eval.apply depth (.func readsX) [])
        (fun depth => Eval.apply depth (.func readsX) []) ∧
      EndAlike id (· = 0) shadowing unshadowed
        (fun depth => (Node.expr (.callable (.name "x"))).eval depth 0)
        (fun depth => (Node.expr (.callable (.name "x"))).eval depth 0) := by
  have hcaptured : ∀ i, CapturedBy [.func readsX] i → i = 0 := by
    rintro i ⟨v, hv, c, rfl, rfl⟩
    cases List.mem_singleton.1 hv
    rfl
  have henv : ∀ i : FrameId, i = 0 → i = 0 := fun _ hi => hi
  exact ⟨(evaluation_depends_on_reachable Unit).1 id readsX [] shadowing unshadowed
      (lt_size_shadowing hcaptured) (agree_shadowing hcaptured),
    (evaluation_depends_on_reachable Unit).2 id (.expr (.callable (.name "x"))) 0 shadowing
      unshadowed (lt_size_shadowing henv) (agree_shadowing henv)⟩

end LetLang
