import LetLang.Heap.Basic

/-!
# Frames behind a change of the heap

What a heap holds under the name of a frame after a binding was made, and after a frame was added;
what a lookup finds then, step by step outwards (`Heap.find?_eq`).
-/

set_option autoImplicit false

namespace LetLang.Heap

variable {α : Type} (h : Heap α) (e i : FrameId) (x : String) (v : Value α) (f : Frame α)

theorem frame?_eq_none_iff : h.frame? i = none ↔ h.frames.size ≤ i :=
  Array.getElem?_eq_none_iff

theorem lt_size_of_frame?_eq_some {h : Heap α} {i : FrameId} {f : Frame α}
    (hf : h.frame? i = some f) : i < h.frames.size := by
  obtain ⟨hlt, -⟩ := Array.getElem?_eq_some_iff.1 hf
  exact hlt

theorem exists_frame?_of_lt {h : Heap α} {i : FrameId} (hi : i < h.frames.size) :
    ∃ f, h.frame? i = some f :=
  ⟨h.frames[i], Array.getElem?_eq_getElem hi⟩

@[simp] theorem size_insert : (h.insert e x v).frames.size = h.frames.size :=
  Array.size_modify

@[simp] theorem size_alloc : (h.alloc f).2.frames.size = h.frames.size + 1 :=
  Array.size_push f

/-- A binding changes the frame in which it is made. -/
theorem frame?_insert_self : (h.insert e x v).frame? e = (h.frame? e).map (·.insert x v) := by
  unfold frame? insert
  rw [Array.getElem?_modify, if_pos rfl]

/-- A binding leaves the other frames as they are. -/
theorem frame?_insert_of_ne {e i : FrameId} (hne : i ≠ e) :
    (h.insert e x v).frame? i = h.frame? i := by
  unfold frame? insert
  rw [Array.getElem?_modify, if_neg hne.symm]

theorem frame?_alloc_self : (h.alloc f).2.frame? h.frames.size = some f :=
  Array.getElem?_push_size

/-- A new frame leaves the other names as they are, those of no frame among them. -/
theorem frame?_alloc_of_ne {i : FrameId} (hne : i ≠ h.frames.size) :
    (h.alloc f).2.frame? i = h.frame? i := by
  show (h.frames.push f)[i]? = h.frames[i]?
  rw [Array.getElem?_push, if_neg hne]

/-- The value of a name is that of the frame itself, or else of the older frame around it. -/
theorem find?_eq : h.find? e x =
    match h.frame? e with
    | none => none
    | some f =>
      match f.bindings.find? x with
      | some v => some v
      | none =>
        match f.outer with
        | none => none
        | some o => if o < e then h.find? o x else none := by
  unfold find?
  rw [chain]
  cases h.frame? e with
  | none => rfl
  | some f =>
    -- The chain starts with the frame itself, which decides if it binds the name.
    obtain ⟨bindings, outer⟩ := f
    cases hbindings : Bindings.find? x bindings with
    | some v => simp only [List.findSome?_cons, hbindings]
    | none =>
      simp only [List.findSome?_cons, hbindings]
      cases outer with
      | none => rfl
      | some o => by_cases ho : o < e <;> simp only [ho, if_true, if_false, List.findSome?_nil]

/-- The frames of an environment are its own and older ones, so only those decide which they are. -/
theorem chain_congr {h h' : Heap α} {e : FrameId} (heq : ∀ i ≤ e, h'.frame? i = h.frame? i) :
    h'.chain e = h.chain e := by
  induction e using Nat.strongRecOn with
  | ind e ih =>
    rw [chain, chain, heq e (Nat.le_refl e)]
    cases h.frame? e with
    | none => rfl
    | some f =>
      obtain ⟨bindings, outer⟩ := f
      cases outer with
      | none => rfl
      | some o =>
        by_cases ho : o < e
        · have hinner := ih o ho fun i hi => heq i (Nat.le_trans hi (Nat.le_of_lt ho))
          simp only [if_pos ho, hinner]
        · simp only [if_neg ho]

/-- Where no frame is, no name has a value. -/
theorem find?_of_size_le {e : FrameId} (he : h.frames.size ≤ e) : h.find? e x = none := by
  rw [find?_eq, (frame?_eq_none_iff h e).2 he]

/-- A new frame changes no lookup but those that start in it. -/
theorem find?_alloc_of_ne {e : FrameId} (hne : e ≠ h.frames.size) :
    (h.alloc f).2.find? e x = h.find? e x := by
  rcases Nat.lt_or_gt_of_ne hne with hlt | hgt
  · rw [find?, find?, chain_congr fun i hi => ?_]
    exact frame?_alloc_of_ne h f (Nat.ne_of_lt (Nat.lt_of_le_of_lt hi hlt))
  · -- Behind the new frame there is none, before and after it was added.
    rw [find?_of_size_le h x (Nat.le_of_lt hgt), find?_of_size_le]
    rw [size_alloc]
    exact hgt

end LetLang.Heap
