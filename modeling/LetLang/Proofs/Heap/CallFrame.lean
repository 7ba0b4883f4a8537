import LetLang.Proofs.Heap.Frames
import Mathlib.Data.List.Forall2

/-!
# The frame of a call

A call binds the parameters of the function to the arguments one after another, so what one binding
keeps is kept by the frame of a call (`Closure.frame_keeps`), and a relation that is kept by two
bindings holds between the frames of two calls (`Closure.frame_rel`). Of several bindings of a name
the last one counts (`Frame.find?_insertAll_append`), and the pairs that are bound end where the
shorter of the two lists ends. `call_frame_lookup` is the main statement: what a name stands for in
the frame of a call, and that the frame changes nothing elsewhere.
-/

set_option autoImplicit false

namespace LetLang

variable {α β : Type}

/-! ## Several bindings one after another -/

namespace Frame

/-- The frame with names bound one after another. -/
def insertAll (f : Frame α) (bs : List (String × Value α)) : Frame α :=
  bs.foldl (fun frame b => frame.insert b.1 b.2) f

variable (f : Frame α) {bs : List (String × Value α)} {x : String} {v : Value α}

variable {f} in
/-- What each of several bindings keeps, they keep together. -/
theorem insertAll_keeps {P : Frame α → Prop} (hf : P f)
    (hinsert : ∀ g, P g → ∀ b ∈ bs, P (g.insert b.1 b.2)) : P (f.insertAll bs) :=
  List.foldlRecOn bs _ hf hinsert

variable {f} in
/-- A relation of two frames that is kept when related names are bound to related values is kept by
several such bindings. -/
theorem insertAll_rel {N : String → String → Prop} {V : Value α → Value β → Prop}
    {R : Frame α → Frame β → Prop}
    (hinsert : ∀ {f g x y v w}, R f g → N x y → V v w → R (f.insert x v) (g.insert y w))
    {xs ys : List String} {vs : List (Value α)} {ws : List (Value β)} {g : Frame β} (hf : R f g)
    (hxs : List.Forall₂ N xs ys) (hvs : List.Forall₂ V vs ws) :
    R (f.insertAll (xs.zip vs)) (g.insertAll (ys.zip ws)) := by
  -- The frames are filled pair by pair, so the induction is over frames that are filled in part.
  induction hxs generalizing f g vs ws with
  | nil => exact hf
  | cons hx _ ih =>
    cases hvs with
    | nil => exact hf
    | cons hv hvs => exact ih (hinsert hf hx hv) hvs

theorem outer_insertAll : (f.insertAll bs).outer = f.outer :=
  insertAll_keeps (P := fun g => g.outer = f.outer) rfl fun _ hg _ _ => hg

/-- A name that is not among the bound ones keeps its value. -/
theorem find?_insertAll_of_ne (hbs : ∀ b ∈ bs, b.1 ≠ x) :
    (f.insertAll bs).bindings.find? x = f.bindings.find? x := by
  refine insertAll_keeps (P := fun g => g.bindings.find? x = f.bindings.find? x) rfl ?_
  intro g hg b hb
  rw [Frame.insert, Bindings.find?_insert, if_neg (hbs b hb)]
  exact hg

/-- Of several bindings of a name the last one counts. -/
theorem find?_insertAll_append {before : List (String × Value α)} (hbs : ∀ b ∈ bs, b.1 ≠ x) :
    (f.insertAll (before ++ (x, v) :: bs)).bindings.find? x = some v := by
  have hsplit : f.insertAll (before ++ (x, v) :: bs) =
      ((f.insertAll before).insert x v).insertAll bs := by
    rw [insertAll, List.foldl_append, List.foldl_cons]
    rfl
  rw [hsplit, find?_insertAll_of_ne _ hbs]
  exact (Bindings.find?_insert x x v _).trans (if_pos rfl)

end Frame

/-! ## The frame of a call -/

namespace Closure

variable (c : Closure α) (args : List (Value α)) {x : String}

theorem frame_eq_insertAll :
    c.frame args = Frame.insertAll ⟨[], some c.env⟩ (c.parameters.zip args) := rfl

variable {c args} in
/-- What holds of the empty frame inside the captured one, and is kept when a name is bound to an
argument, holds of the frame of a call. -/
theorem frame_keeps {P : Frame α → Prop} (hempty : P ⟨[], some c.env⟩)
    (hinsert : ∀ f, P f → ∀ x, ∀ v ∈ args, P (f.insert x v)) : P (c.frame args) :=
  Frame.insertAll_keeps hempty fun f hf b hb => hinsert f hf b.1 b.2 (List.of_mem_zip hb).2

variable {c args} in
/-- A relation of two empty frames inside the captured ones that is kept when related names are
bound to related values holds between the frames of two calls. -/
theorem frame_rel {N : String → String → Prop} {V : Value α → Value β → Prop}
    {R : Frame α → Frame β → Prop} {d : Closure β} {args' : List (Value β)}
    (hinsert : ∀ {f g x y v w}, R f g → N x y → V v w → R (f.insert x v) (g.insert y w))
    (hempty : R ⟨[], some c.env⟩ ⟨[], some d.env⟩)
    (hparameters : List.Forall₂ N c.parameters d.parameters)
    (hargs : List.Forall₂ V args args') : R (c.frame args) (d.frame args') :=
  Frame.insertAll_rel hinsert hempty hparameters hargs

/-- A name bound by a pair from the `n`-th on is that of a parameter from there on that has an
argument. -/
theorem parameter_of_mem_drop {n : Nat} {b : String × Value α}
    (hb : b ∈ (c.parameters.zip args).drop n) :
    ∃ j, n ≤ j ∧ j < args.length ∧ c.parameters[j]? = some b.1 := by
  obtain ⟨k, hk⟩ := List.mem_iff_getElem?.1 hb
  rw [List.getElem?_drop] at hk
  obtain ⟨hparameter, hargument⟩ := List.getElem?_zip_eq_some.1 hk
  obtain ⟨hlength, -⟩ := List.getElem?_eq_some_iff.1 hargument
  exact ⟨n + k, Nat.le_add_right n k, hlength, hparameter⟩

/-- Of the parameters of one name, the last one that has an argument gives its value. -/
theorem find?_frame_of_last {i : Nat} (hi : i < args.length) (hx : c.parameters[i]? = some x)
    (hlast : ∀ j, i < j → j < args.length → c.parameters[j]? ≠ some x) :
    (c.frame args).bindings.find? x = some args[i] := by
  have hpair : (c.parameters.zip args)[i]? = some (x, args[i]) :=
    List.getElem?_zip_eq_some.2 ⟨hx, List.getElem?_eq_getElem hi⟩
  obtain ⟨hlt, hget⟩ := List.getElem?_eq_some_iff.1 hpair
  have hsplit : c.parameters.zip args = (c.parameters.zip args).take i ++
      (x, args[i]) :: (c.parameters.zip args).drop (i + 1) := by
    rw [← hget, List.getElem_cons_drop, List.take_append_drop]
  rw [frame_eq_insertAll, hsplit]
  refine Frame.find?_insertAll_append _ fun b hb hname => ?_
  obtain ⟨j, hj, hlength, hparameter⟩ := c.parameter_of_mem_drop args hb
  exact hlast j hj hlength (hname ▸ hparameter)

/-- A name is unbound in the frame if no parameter of the name has an argument. -/
theorem find?_frame_of_none (hnone : ∀ i < args.length, c.parameters[i]? ≠ some x) :
    (c.frame args).bindings.find? x = none := by
  rw [frame_eq_insertAll, ← List.drop_zero (l := c.parameters.zip args)]
  refine Frame.find?_insertAll_of_ne _ fun b hb hname => ?_
  obtain ⟨j, -, hlength, hparameter⟩ := c.parameter_of_mem_drop args hb
  exact hnone j hlength (hname ▸ hparameter)

end Closure

/-- In the frame of a call, a name has the argument of the last parameter of the name that has one,
and if there is none the value that it has where the function was made. Every other environment is
as it was before the call. -/
theorem call_frame_lookup (h : Heap α) (c : Closure α) (args : List (Value α)) :
    let call := h.alloc (c.frame args)
    (∀ x i (hi : i < args.length), c.parameters[i]? = some x →
      (∀ j, i < j → j < args.length → c.parameters[j]? ≠ some x) →
        call.2.find? call.1 x = some args[i]) ∧
    (∀ x, (∀ i < args.length, c.parameters[i]? ≠ some x) →
      call.2.find? call.1 x = h.find? c.env x) ∧
    ∀ e ≠ call.1, ∀ x, call.2.find? e x = h.find? e x := by
  intro call
  have hframe : call.2.frame? call.1 = some (c.frame args) := h.frame?_alloc_self _
  have houter : (c.frame args).outer = some c.env := Frame.outer_insertAll _
  have helse : ∀ e ≠ call.1, ∀ x, call.2.find? e x = h.find? e x :=
    fun e he x => h.find?_alloc_of_ne x _ he
  refine ⟨fun x i hi hx hlast => ?_, fun x hnone => ?_, helse⟩
  · rw [Heap.find?_eq, hframe]
    simp only [c.find?_frame_of_last args hi hx hlast]
  · rw [Heap.find?_eq, hframe]
    simp only [c.find?_frame_of_none args hnone, houter]
    by_cases henv : c.env < call.1
    · rw [if_pos henv, helse c.env (Nat.ne_of_lt henv)]
    · rw [if_neg henv, h.find?_of_size_le x (Nat.not_lt.1 henv)]

/-- One frame that binds `x` and `z`. -/
def outerNames : Heap Unit := ⟨#[⟨[("x", .int 9), ("z", .int 7)], none⟩]⟩

/-- A function of this frame with two parameters `x` and a last parameter `z`. -/
def repeatedParameter : Closure Unit := ⟨(), ["x", "y", "x", "z"], [], 0⟩

/-- With three arguments the second `x` counts, and `z` has the value that it has outside. -/
theorem call_frame_lookup_repeated :
    let call := outerNames.alloc (repeatedParameter.frame [.int 1, .int 2, .int 3])
    (∀ j, 2 < j → j < 3 → repeatedParameter.parameters[j]? ≠ some "x") ∧
    (∀ i < 3, repeatedParameter.parameters[i]? ≠ some "z") ∧
    call.2.find? call.1 "x" = some (.int 3) ∧ call.2.find? call.1 "z" = some (.int 7) ∧
    call.2.find? 0 "x" = some (.int 9) := by
  have hlast : ∀ j, 2 < j → j < 3 → repeatedParameter.parameters[j]? ≠ some "x" := by
    intro j hlow hhigh
    omega
  have hnone : ∀ i < 3, repeatedParameter.parameters[i]? ≠ some "z" := by decide
  obtain ⟨hargument, houtside, helse⟩ :=
    call_frame_lookup outerNames repeatedParameter [.int 1, .int 2, .int 3]
  have hz : outerNames.find? 0 "z" = some (.int 7) := by rw [Heap.find?_eq]; rfl
  have hx : outerNames.find? 0 "x" = some (.int 9) := by rw [Heap.find?_eq]; rfl
  exact ⟨hlast, hnone, hargument "x" 2 (by decide) rfl hlast, (houtside "z" hnone).trans hz,
    (helse 0 (by decide) "x").trans hx⟩

end LetLang
