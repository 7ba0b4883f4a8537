import LetLang.Evaluation.Basic
import LetLang.Proofs.Heap.Frames

/-!
# What a heap holds for a program

A frame is reachable from others through outer links and through the functions among its values.
Two heaps agree on frames if those hold the same, up to the names of frames: the renaming keeps the
order in which frames were made, but frames between them may be missing. Frames that are made
afterwards in both heaps are renamed in step (`extendRenaming`).
-/

set_option autoImplicit false

namespace LetLang

variable {α : Type}

/-! ## Renamed frames -/

/-- The value with the frame it captured renamed. -/
def Value.rename (ρ : FrameId → FrameId) : Value α → Value α
  | .func c => .func { c with env := ρ c.env }
  | v => v

/-- The reason to unwind with the frame it captured renamed. -/
def Unwind.rename (ρ : FrameId → FrameId) : Unwind α → Unwind α
  | .ret v => .ret (v.rename ρ)
  | .error e => .error e

/-- The result of an evaluation with the frame it captured renamed. -/
def renameResult (ρ : FrameId → FrameId) :
    Except (Unwind α) (Value α) → Except (Unwind α) (Value α)
  | .ok v => .ok (v.rename ρ)
  | .error u => .error (u.rename ρ)

/-- The frame `f'` holds what `f` holds: it is inside the renamed outer frame, and every name has
the renamed value. -/
structure Frame.Renamed (ρ : FrameId → FrameId) (f f' : Frame α) : Prop where
  outer : f'.outer = f.outer.map ρ
  bindings : ∀ x, f'.bindings.find? x = (f.bindings.find? x).map (Value.rename ρ)

@[simp] theorem Value.rename_id (v : Value α) : v.rename id = v := by
  cases v <;> rfl

/-- A frame with the same outer frame and the same bindings holds the same. -/
theorem Frame.renamed_id {f f' : Frame α} : f.Renamed id f' ↔
    f'.outer = f.outer ∧ ∀ x, f'.bindings.find? x = f.bindings.find? x := by
  have hrename : (Value.rename id : Value α → Value α) = id := funext Value.rename_id
  constructor
  · rintro ⟨houter, hbindings⟩
    simp only [hrename, Option.map_id_fun, id_eq] at houter hbindings
    exact ⟨houter, hbindings⟩
  · rintro ⟨houter, hbindings⟩
    refine ⟨?_, fun x => ?_⟩
    · rw [Option.map_id_fun, houter, id_eq]
    · rw [hrename, Option.map_id_fun, hbindings, id_eq]

/-- The renaming `ρ` of the first `size` frames, and of the frames made after them in the order in
which they are made: the next one becomes the frame `size'`. -/
def extendRenaming (ρ : FrameId → FrameId) (size size' : Nat) (i : FrameId) : FrameId :=
  if i < size then ρ i else size' + (i - size)

/-! ## Reachable frames -/

/-- Whether a value is a function that captured the frame. -/
def Value.Captures (v : Value α) (i : FrameId) : Prop := ∃ c, v = .func c ∧ c.env = i

/-- Whether a result is, or returns, a function that captured the frame. -/
def ResultCaptures (r : Except (Unwind α) (Value α)) (i : FrameId) : Prop :=
  ∃ v : Value α, (r = .ok v ∨ r = .error (.ret v)) ∧ v.Captures i

/-- The frames that can be reached from some frames, through outer links and through functions that
are bound in frames. -/
inductive Heap.Reachable (h : Heap α) (roots : FrameId → Prop) : FrameId → Prop
  | root {i : FrameId} : roots i → Reachable h roots i
  | outer {i o : FrameId} {f : Frame α} :
      Reachable h roots i → h.frame? i = some f → f.outer = some o → Reachable h roots o
  | binding {i j : FrameId} {f : Frame α} {x : String} {v : Value α} :
      Reachable h roots i → h.frame? i = some f → f.bindings.find? x = some v → v.Captures j →
      Reachable h roots j

/-- The heaps hold the same in the frames `live` of the first, which are named by `ρ` in the second
and lie there in the same order. -/
structure Heap.Agree (ρ : FrameId → FrameId) (live : FrameId → Prop) (h h' : Heap α) : Prop where
  frames : ∀ i, live i → Option.Rel (Frame.Renamed ρ) (h.frame? i) (h'.frame? (ρ i))
  order : ∀ i j, live i → live j → i < j → ρ i < ρ j

end LetLang
