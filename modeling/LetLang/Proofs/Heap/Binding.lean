import LetLang.Proofs.Heap.Frames

/-!
# One binding and all lookups

A binding changes one frame wherever that lies on a chain, and leaves the chains as they are
otherwise (`Heap.chain_insert`). So a lookup finds the new value if it comes to the frame of the
binding before any other frame that binds the name (`Heap.Exposes`), and every other lookup finds
what it found before (`binding_changes_exposed_lookups`).
-/

set_option autoImplicit false

namespace LetLang

variable {α : Type}

/-! ## Chains of frames -/

/-- Frames with their names, from the innermost outwards. -/
abbrev FrameChain (α : Type) := List (FrameId × Frame α)

namespace FrameChain

/-- The value of a name along a chain: that of the first frame which binds it. -/
def find? (l : FrameChain α) (x : String) : Option (Value α) :=
  l.findSome? fun g => g.2.bindings.find? x

/-- The chain with a name bound in the frame `e`, if that lies on it. -/
def insert (l : FrameChain α) (e : FrameId) (x : String) (v : Value α) : FrameChain α :=
  l.map fun g => if g.1 = e then (e, g.2.insert x v) else g

/-- The frame `e` lies on the chain, and no frame before it binds `x`. -/
def Exposes (l : FrameChain α) (e : FrameId) (x : String) : Prop :=
  ∃ inner f outer, l = inner ++ (e, f) :: outer ∧ ∀ g ∈ inner, g.2.bindings.find? x = none

variable {l : FrameChain α} {e : FrameId} {g : FrameId × Frame α} {x y : String} {v : Value α}

theorem find?_of_bound (hv : g.2.bindings.find? x = some v) : find? (g :: l) x = some v := by
  rw [find?, List.findSome?_cons, hv]

theorem find?_of_free (hfree : g.2.bindings.find? x = none) : find? (g :: l) x = find? l x := by
  rw [find?, List.findSome?_cons, hfree]
  rfl

theorem insert_cons_self (hg : g.1 = e) :
    insert (g :: l) e x v = (e, g.2.insert x v) :: insert l e x v := by
  rw [insert, List.map_cons, if_pos hg]
  rfl

theorem insert_cons_of_ne (hg : g.1 ≠ e) : insert (g :: l) e x v = g :: insert l e x v := by
  rw [insert, List.map_cons, if_neg hg]
  rfl

theorem insert_of_not_mem (he : e ∉ l.map Prod.fst) : insert l e x v = l := by
  rw [insert, List.map_congr_left (g := id) fun g hg => ?_, List.map_id]
  refine if_neg fun heq => he ?_
  rw [← heq]
  exact List.mem_map_of_mem hg

/-- A frame that comes first is exposed. -/
theorem exposes_head (hg : g.1 = e) : Exposes (g :: l) e x :=
  ⟨[], g.2, l, by rw [← hg]; rfl, List.forall_mem_nil _⟩

/-- A frame that does not bind the name hides nothing behind it. -/
theorem Exposes.cons (h : Exposes l e x) (hfree : g.2.bindings.find? x = none) :
    Exposes (g :: l) e x := by
  obtain ⟨inner, f, outer, rfl, hinner⟩ := h
  exact ⟨g :: inner, f, outer, rfl, List.forall_mem_cons.2 ⟨hfree, hinner⟩⟩

/-- An exposed binding is found. -/
theorem find?_insert_of_exposes (h : Exposes l e x) : find? (insert l e x v) x = some v := by
  obtain ⟨inner, f, outer, rfl, hinner⟩ := h
  have hbound : ∀ g : Frame α, (g.insert x v).bindings.find? x = some v :=
    fun g => (Bindings.find?_insert x x v g.bindings).trans (if_pos rfl)
  induction inner with
  | nil =>
    rw [List.nil_append, insert_cons_self rfl]
    exact find?_of_bound (hbound f)
  | cons g inner ih =>
    obtain ⟨hfree, hinner⟩ := List.forall_mem_cons.1 hinner
    rw [List.cons_append]
    -- On a list of any frames, unlike a chain of a heap, `e` may lie before itself.
    by_cases hg : g.1 = e
    · rw [insert_cons_self hg]
      exact find?_of_bound (hbound g.2)
    · rw [insert_cons_of_ne hg, find?_of_free hfree]
      exact ih hinner

/-- A binding is not found behind another frame that binds the name. -/
theorem find?_insert_of_not_exposes (h : ¬ Exposes l e x) :
    find? (insert l e x v) x = find? l x := by
  induction l with
  | nil => rfl
  | cons g l ih =>
    rw [insert_cons_of_ne fun hg => h (exposes_head hg)]
    cases hv : g.2.bindings.find? x with
    | some w => rw [find?_of_bound hv, find?_of_bound hv]
    | none =>
      rw [find?_of_free hv, find?_of_free hv]
      exact ih fun hl => h (hl.cons hv)

/-- A binding leaves the other names of its frame alone. -/
theorem find?_insert_of_ne (hyx : y ≠ x) : find? (insert l e x v) y = find? l y := by
  rw [find?, find?, insert, List.findSome?_map]
  congr 1
  funext g
  by_cases hg : g.1 = e
  · rw [Function.comp_apply, if_pos hg]
    exact (Bindings.find?_insert x y v g.2.bindings).trans (if_neg hyx.symm)
  · rw [Function.comp_apply, if_neg hg]

end FrameChain

/-! ## Chains of a heap -/

namespace Heap

variable (h : Heap α) (e : FrameId) (x : String) (v : Value α)

/-- The frame `e` lies on the chain of `d`, and no frame before it binds `x`. -/
def Exposes (d e : FrameId) (x : String) : Prop := FrameChain.Exposes (h.chain d) e x

/-- The chain behind an outer link of the frame `d`. -/
def around (d : FrameId) : Option FrameId → FrameChain α
  | none => []
  | some o => if o < d then h.chain o else []

theorem chain_of_frame? {d : FrameId} {f : Frame α} (hf : h.frame? d = some f) :
    h.chain d = (d, f) :: h.around d f.outer := by
  obtain ⟨bindings, outer⟩ := f
  rw [chain, hf]
  cases outer <;> rfl

theorem chain_of_none {d : FrameId} (hd : h.frame? d = none) : h.chain d = [] := by
  rw [chain, hd]

/-- A binding changes no chain but for the frame in which it is made. -/
theorem chain_insert (d : FrameId) :
    (h.insert e x v).chain d = FrameChain.insert (h.chain d) e x v := by
  -- The frame around a frame is older, so the induction is on the frame.
  induction d using Nat.strongRecOn with
  | ind d ih =>
    have haround : ∀ outer, (h.insert e x v).around d outer =
        FrameChain.insert (h.around d outer) e x v := by
      intro outer
      cases outer with
      | none => rfl
      | some o =>
        rw [around, around]
        split
        · next ho => exact ih o ho
        · rfl
    by_cases hde : d = e
    · subst hde
      have hself := h.frame?_insert_self d x v
      cases hf : h.frame? d with
      | none =>
        rw [hf] at hself
        rw [chain_of_none _ hself, chain_of_none h hf]
        rfl
      | some f =>
        rw [hf] at hself
        rw [chain_of_frame? _ hself, chain_of_frame? h hf, FrameChain.insert_cons_self rfl,
          ← haround]
        rfl
    · have hsame := h.frame?_insert_of_ne x v hde
      cases hf : h.frame? d with
      | none =>
        rw [hf] at hsame
        rw [chain_of_none _ hsame, chain_of_none h hf]
        rfl
      | some f =>
        rw [hf] at hsame
        rw [chain_of_frame? _ hsame, chain_of_frame? h hf, FrameChain.insert_cons_of_ne hde,
          haround]

theorem find?_insert_eq (d : FrameId) (y : String) :
    (h.insert e x v).find? d y = FrameChain.find? (FrameChain.insert (h.chain d) e x v) y := by
  rw [← chain_insert]
  rfl

end Heap

/-- A binding of `k` in the frame `e` gives the new value to the lookups of `k` from which `e` is
exposed, and every other lookup finds what it found before. So each function that captured `e` sees
the new value, and a lookup that does not pass `e` cannot tell that anything was bound. -/
theorem binding_changes_exposed_lookups (h : Heap α) (e : FrameId) (k : String) (v : Value α) :
    (∀ d, h.Exposes d e k → (h.insert e k v).find? d k = some v) ∧
    (∀ d j, ¬ (j = k ∧ h.Exposes d e k) → (h.insert e k v).find? d j = h.find? d j) ∧
    (∀ c : Closure α, c.env = e → (h.frame? e).isSome →
      (h.insert e k v).find? c.env k = some v) ∧
    ∀ d, e ∉ (h.chain d).map Prod.fst → ∀ j, (h.insert e k v).find? d j = h.find? d j := by
  have hexposed : ∀ d, h.Exposes d e k → (h.insert e k v).find? d k = some v := by
    intro d hd
    rw [h.find?_insert_eq]
    exact FrameChain.find?_insert_of_exposes hd
  refine ⟨hexposed, fun d j hother => ?_, fun c hc he => ?_, fun d hd j => ?_⟩
  · rw [h.find?_insert_eq]
    by_cases hjk : j = k
    · subst hjk
      exact FrameChain.find?_insert_of_not_exposes fun hd => hother ⟨rfl, hd⟩
    · exact FrameChain.find?_insert_of_ne hjk
  · obtain ⟨f, hf⟩ := Option.isSome_iff_exists.1 he
    subst hc
    refine hexposed c.env ?_
    rw [Heap.Exposes, h.chain_of_frame? hf]
    exact FrameChain.exposes_head rfl
  · rw [h.find?_insert_eq, FrameChain.insert_of_not_mem hd]
    rfl

/-- The frame 0 binds `x` and `y`; the frame 1 lies inside it, and the frame 2 inside that binds `x`
too. The frame 3 is apart. -/
def nestedNames : Heap Unit :=
  ⟨#[⟨[("x", .int 1), ("y", .int 2)], none⟩, ⟨[], some 0⟩, ⟨[("x", .int 3)], some 1⟩, ⟨[], none⟩]⟩

/-- When `x` is bound in the frame 0 again, that is seen from the frame 1 and by a function that
captured the frame 0, but not from the frame 2, nor from the frame 3; and `y` is as it was. -/
theorem binding_changes_exposed_lookups_nested :
    let k := nestedNames.insert 0 "x" (.int 7)
    nestedNames.Exposes 1 0 "x" ∧ ¬ nestedNames.Exposes 2 0 "x" ∧
    k.find? 1 "x" = some (.int 7) ∧
    k.find? (Closure.mk () ["x"] [] 0 : Closure Unit).env "x" = some (.int 7) ∧
    k.find? 2 "x" = some (.int 3) ∧ k.find? 1 "y" = some (.int 2) ∧ k.find? 3 "x" = none := by
  have hchain : nestedNames.chain 1 =
      [(1, ⟨[], some 0⟩), (0, ⟨[("x", .int 1), ("y", .int 2)], none⟩)] := by
    have houter : nestedNames.chain 0 = [(0, ⟨[("x", .int 1), ("y", .int 2)], none⟩)] :=
      nestedNames.chain_of_frame? rfl
    have hinner : nestedNames.chain 1 = (1, ⟨[], some 0⟩) :: nestedNames.chain 0 :=
      nestedNames.chain_of_frame? rfl
    rw [hinner, houter]
  have hexposed : nestedNames.Exposes 1 0 "x" :=
    ⟨[(1, ⟨[], some 0⟩)], _, [], hchain, List.forall_mem_singleton.2 rfl⟩
  have hhidden : ¬ nestedNames.Exposes 2 0 "x" := by
    rintro ⟨inner, f, outer, hsplit, hfree⟩
    rw [nestedNames.chain_of_frame? (d := 2) rfl] at hsplit
    cases inner with
    | nil => cases hsplit
    | cons g inner =>
      obtain ⟨rfl, -⟩ := List.cons.inj hsplit
      cases hfree _ List.mem_cons_self
  have hx : nestedNames.find? 2 "x" = some (.int 3) := by rw [Heap.find?_eq]; rfl
  have hy : nestedNames.find? 1 "y" = some (.int 2) := by rw [Heap.find?, hchain]; rfl
  have halone : nestedNames.chain 3 = [(3, ⟨[], none⟩)] := nestedNames.chain_of_frame? rfl
  have hnone : nestedNames.find? 3 "x" = none := by rw [Heap.find?, halone]; rfl
  obtain ⟨hseen, hother, hcaptured, hapart⟩ :=
    binding_changes_exposed_lookups nestedNames 0 "x" (.int 7)
  refine ⟨hexposed, hhidden, hseen 1 hexposed, hcaptured _ rfl rfl, ?_, ?_, ?_⟩
  · exact (hother 2 "x" fun h => hhidden h.2).trans hx
  · exact (hother 1 "y" fun h => absurd h.1 (by decide)).trans hy
  · exact (hapart 3 (by rw [halone]; decide) "x").trans hnone

end LetLang
