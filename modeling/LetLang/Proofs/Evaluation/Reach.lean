import LetLang.Proofs.Evaluation.Invariant

/-!
# What an evaluation reaches

An evaluation links and captures only frames that it could reach from its environment and frames
that it has made. So whatever is reachable afterwards, from the environment or from the result, was
reachable before or is new, and no frame that can be reached is missing (`Node.reaches`).
-/

set_option autoImplicit false

namespace LetLang

variable {α : Type}

/-! ## Regions of a heap -/

/-- Some of the frames that there are at first, and all that are made from the frame `first` on. -/
structure Region where
  base : FrameId → Prop
  first : Nat

/-- The frames of a region in a heap of the given size. -/
def Region.Has (g : Region) (size : Nat) (i : FrameId) : Prop := (g.base i ∨ g.first ≤ i) ∧ i < size

theorem Region.Has.mono {g : Region} {size size' : Nat} {i : FrameId} (hi : g.Has size i)
    (hle : size ≤ size') : g.Has size' i :=
  ⟨hi.1, Nat.lt_of_lt_of_le hi.2 hle⟩

/-- A heap whose frames in the region hold no frames but those of the region. -/
structure Heap.Confined (g : Region) (h : Heap α) : Prop where
  first_le : g.first ≤ h.frames.size
  frames : ∀ i f, g.Has h.frames.size i → h.frame? i = some f → f.Within (g.Has h.frames.size)

namespace Heap.Confined

variable {g : Region} {h : Heap α} {env : FrameId} {x : String} {v : Value α} {f : Frame α}

/-- A value that is found from a frame of the region captured frames of the region only. -/
theorem find? (hh : h.Confined g) (henv : g.Has h.frames.size env)
    (hfind : h.find? env x = some v) : v.Within (g.Has h.frames.size) := by
  induction env using Nat.strongRecOn with
  | ind env ih =>
    -- Lookup follows links to older frames only, so the induction is on the frame.
    rw [Heap.find?_eq] at hfind
    split at hfind
    · cases hfind
    · next f hf =>
      have hwithin := hh.frames env f henv hf
      split at hfind
      · next w hw =>
        cases hfind
        exact hwithin.bindings x _ hw
      · split at hfind
        · cases hfind
        · next o ho =>
          split at hfind
          · next hlt => exact ih o hlt (hwithin.outer o ho) hfind
          · cases hfind

/-- A binding of a value that captured frames of the region keeps the heap confined. -/
theorem insert (hh : h.Confined g) (hv : v.Within (g.Has h.frames.size)) :
    (h.insert env x v).Confined g := by
  refine ⟨by rw [Heap.size_insert]; exact hh.first_le, fun i f hi hf => ?_⟩
  rw [Heap.size_insert] at hi ⊢
  by_cases hie : i = env
  · subst hie
    rw [Heap.frame?_insert_self, Option.map_eq_some_iff] at hf
    obtain ⟨f₀, hf₀, rfl⟩ := hf
    exact (hh.frames i f₀ hi hf₀).insert x hv
  · rw [h.frame?_insert_of_ne x v hie] at hf
    exact hh.frames i f hi hf

/-- A new frame is in the region, as all frames made from then on. -/
theorem alloc (hh : h.Confined g) (hf : f.Within (g.Has h.frames.size)) :
    (h.alloc f).2.Confined g ∧ g.Has (h.frames.size + 1) h.frames.size := by
  have hmono : ∀ i, g.Has h.frames.size i → g.Has (h.frames.size + 1) i :=
    fun i hi => hi.mono (Nat.le_succ _)
  refine ⟨⟨?_, fun i f' hi hf' => ?_⟩, .inr hh.first_le, Nat.lt_succ_self _⟩
  · rw [Heap.size_alloc]
    exact Nat.le_succ_of_le hh.first_le
  · rw [Heap.size_alloc] at hi ⊢
    by_cases hie : i = h.frames.size
    · subst hie
      rw [Heap.frame?_alloc_self] at hf'
      cases hf'
      exact hf.mono hmono
    · rw [h.frame?_alloc_of_ne f hie] at hf'
      exact (hh.frames i f' ⟨hi.1, Heap.lt_size_of_frame?_eq_some hf'⟩ hf').mono hmono

/-- From a region nothing else can be reached. -/
theorem has_of_reachable (hh : h.Confined g) {roots : FrameId → Prop}
    (hroots : ∀ i, roots i → g.Has h.frames.size i) {i : FrameId} (hi : h.Reachable roots i) :
    g.Has h.frames.size i := by
  induction hi with
  | root hi => exact hroots _ hi
  | outer _ hf ho ih => exact (hh.frames _ _ ih hf).outer _ ho
  | binding _ hf hv hcaptures ih => exact (hh.frames _ _ ih hf).bindings _ _ hv _ hcaptures

end Heap.Confined

/-- Evaluations in a region stay there. -/
def Region.invariant (α : Type) (g : Region) : Invariant α where
  live := g.Has
  heap := Heap.Confined g
  live_mono := Region.Has.mono
  find? := Heap.Confined.find?
  insert := Heap.Confined.insert
  alloc := Heap.Confined.alloc

/-- What can be reached from the environment and the result after an evaluation could be reached
from the environment before, or was made by the evaluation; and all of it exists. -/
theorem Node.reaches (node : Node α) {depth : Nat} {env : FrameId} {h k : Heap α}
    {r : Except (Unwind α) (Value α)} (hmade : ∀ i, h.Reachable (· = env) i → i < h.frames.size)
    (hrun : node.eval depth env h = some (r, k)) {i : FrameId}
    (hi : k.Reachable (fun i => i = env ∨ ResultCaptures r i) i) :
    (h.Reachable (· = env) i ∨ h.frames.size ≤ i) ∧ i < k.frames.size := by
  -- The region of the frames that can be reached at first, and of all that are made afterwards.
  let g : Region := ⟨h.Reachable (· = env), h.frames.size⟩
  have hbase : ∀ i, g.Has h.frames.size i → h.Reachable (· = env) i := by
    rintro i ⟨hi | hi, hlt⟩
    · exact hi
    · exact absurd hlt (Nat.not_lt_of_le hi)
  have hconfined : h.Confined g := by
    refine ⟨Nat.le_refl _, fun i f hi hf => ⟨fun o ho => ?_, fun x v hv j hj => ?_⟩⟩
    · have hreach := Heap.Reachable.outer (hbase i hi) hf ho
      exact ⟨.inl hreach, hmade o hreach⟩
    · have hreach := Heap.Reachable.binding (hbase i hi) hf hv hj
      exact ⟨.inl hreach, hmade j hreach⟩
  have henv : g.Has h.frames.size env := ⟨.inl (.root rfl), hmade env (.root rfl)⟩
  have hkept := node.keeps (I := g.invariant α) henv depth h r k (Nat.le_refl _) hconfined hrun
  have hconfined' : k.Confined g := hkept.heap
  refine hconfined'.has_of_reachable ?_ hi
  rintro j (rfl | ⟨v, hv | hv, hcaptures⟩)
  · exact henv.mono hkept.size_le
  · exact hkept.result v hv j hcaptures
  · exact hkept.returned v hv j hcaptures

end LetLang
