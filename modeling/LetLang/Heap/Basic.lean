import LetLang.Value.Basic

/-!
# The heap of frames

A frame binds names to values and may lie inside an outer frame. Frames live in a heap and are
named by the order in which they were made; an environment is the name of its innermost frame.
A frame is made inside one that exists, so an outer frame is older than the frames inside it.
`Heap.chain` follows a link only if this is so, and therefore ends in every heap.
-/

namespace LetLang

variable {α : Type}

/-- Bindings of names, each name at most once. -/
abbrev Bindings (α : Type) := List (String × Value α)

namespace Bindings

/-- Binds a name. An earlier value of the name is replaced. -/
def insert (x : String) (v : Value α) : Bindings α → Bindings α
  | [] => [(x, v)]
  | (y, w) :: rest => if y = x then (x, v) :: rest else (y, w) :: insert x v rest

/-- The value of a name. -/
def find? (x : String) : Bindings α → Option (Value α)
  | [] => none
  | (y, w) :: rest => if y = x then some w else find? x rest

/-- The name that is bound has the new value, and every other name has what it had. -/
theorem find?_insert (x y : String) (v : Value α) (bs : Bindings α) :
    find? y (insert x v bs) = if x = y then some v else find? y bs := by
  induction bs with
  | nil => simp [insert, find?]
  | cons b bs ih =>
    by_cases hx : b.1 = x
    · by_cases hy : x = y <;> simp [insert, find?, hx, hy]
    · by_cases hy : b.1 = y
      · have hne : x ≠ y := fun h => hx (hy.trans h.symm)
        simp [insert, find?, hy, hne, hne.symm]
      · simp [insert, find?, hx, hy, ih]

/-- Puts a name into an ascending list of names, unless it is there. -/
def insertName (x : String) : List String → List String
  | [] => [x]
  | y :: ys => if x < y then x :: y :: ys else if x = y then y :: ys else y :: insertName x ys

/-- The bound names, ascending by their characters, each once. -/
def names : Bindings α → List String
  | [] => []
  | (x, _) :: rest => insertName x (names rest)

theorem mem_insertName {x y : String} {names : List String} :
    y ∈ insertName x names ↔ y = x ∨ y ∈ names := by
  induction names with
  | nil => simp [insertName]
  | cons z zs ih =>
    unfold insertName
    split
    · simp
    · split
      · next heq => simp [heq]
      · simp [ih, or_left_comm]

/-- The names are those that have a value. -/
theorem mem_names {y : String} {bs : Bindings α} : y ∈ bs.names ↔ (bs.find? y).isSome := by
  induction bs with
  | nil => simp [names, find?]
  | cons b bs ih =>
    rw [names, mem_insertName, ih, find?]
    by_cases h : b.1 = y
    · simp [h]
    · simp [h, Ne.symm h]

end Bindings

/-- A frame: its bindings and the frame around it. -/
structure Frame (α : Type) where
  bindings : Bindings α
  outer : Option FrameId

/-- Binds a name in a frame. -/
def Frame.insert (f : Frame α) (x : String) (v : Value α) : Frame α :=
  { f with bindings := f.bindings.insert x v }

/-- The frame of a call: inside the captured frame, with the parameters bound to the arguments
in order. Parameters without an argument stay unbound, arguments without a parameter are
dropped, and of two parameters of one name the later one counts. -/
def Closure.frame (f : Closure α) (args : List (Value α)) : Frame α :=
  (f.parameters.zip args).foldl (fun frame b => frame.insert b.1 b.2) ⟨[], some f.env⟩

/-- All frames, in the order in which they were made. -/
structure Heap (α : Type) where
  frames : Array (Frame α)

namespace Heap

/-- The heap without frames. -/
def empty : Heap α := ⟨#[]⟩

/-- The frame of the given name. -/
def frame? (h : Heap α) (e : FrameId) : Option (Frame α) := h.frames[e]?

/-- Adds a frame, and says its name. -/
def alloc (h : Heap α) (f : Frame α) : FrameId × Heap α := (h.frames.size, ⟨h.frames.push f⟩)

/-- Adds an empty frame inside the given one, or outside all others. -/
def enclose (h : Heap α) (outer : Option FrameId) : FrameId × Heap α := h.alloc ⟨[], outer⟩

/-- Binds a name in the innermost frame of an environment. -/
def insert (h : Heap α) (e : FrameId) (x : String) (v : Value α) : Heap α :=
  ⟨h.frames.modify e (·.insert x v)⟩

/-- The frames of an environment, from the innermost outwards. -/
def chain (h : Heap α) (e : FrameId) : List (FrameId × Frame α) :=
  match h.frame? e with
  | none => []
  | some f =>
    (e, f) ::
      match f.outer with
      | none => []
      | some o => if o < e then h.chain o else []
termination_by e

/-- The value of a name in an environment: that of the innermost frame which binds it. -/
def find? (h : Heap α) (e : FrameId) (x : String) : Option (Value α) :=
  (h.chain e).findSome? fun f => f.2.bindings.find? x

end Heap

end LetLang
