import LetLang.Heap.Listing
import LetLang.Proofs.Evaluation.Reach

/-!
# Outer links lead to older frames

A function may lie in the frame that it captured, so frames can reach themselves. Outer links cannot
go round: whatever a host does with a heap, by making environments, binding values and evaluating
programs, every frame stays inside an older one, no link and no function points at a missing frame,
and no link is ever changed. So lookup and listing, which follow the links without looking where
they lead, come to an end in every environment (`heap_stays_grounded`).
-/

set_option autoImplicit false

namespace LetLang

variable {α : Type}

/-! ## Following outer links -/

/-- Looking a name up: in the frame itself, or else in the frame around it, wherever that is. -/
inductive Heap.Finds (h : Heap α) (x : String) : FrameId → Option (Value α) → Prop
  | here {e : FrameId} {f : Frame α} {v : Value α} :
      h.frame? e = some f → f.bindings.find? x = some v → Finds h x e (some v)
  | nowhere {e : FrameId} {f : Frame α} :
      h.frame? e = some f → f.bindings.find? x = none → f.outer = none → Finds h x e none
  | around {e o : FrameId} {f : Frame α} {found : Option (Value α)} :
      h.frame? e = some f → f.bindings.find? x = none → f.outer = some o → Finds h x o found →
      Finds h x e found

/-- Listing an environment: the frame itself, and the frame around it, wherever that is. -/
inductive Heap.Lists (h : Heap α) : FrameId → String → Prop
  | outermost {e : FrameId} {f : Frame α} :
      h.frame? e = some f → f.outer = none → Lists h e (frameListing f.bindings.names "None")
  | inside {e o : FrameId} {f : Frame α} {text : String} :
      h.frame? e = some f → f.outer = some o → Lists h o text →
      Lists h e (frameListing f.bindings.names ("Some(" ++ text ++ ")"))

namespace Heap

variable {h : Heap α} {e o : FrameId} {f : Frame α} {x : String} {v : Value α}

theorem find?_of_bound (hf : h.frame? e = some f) (hv : f.bindings.find? x = some v) :
    h.find? e x = some v := by
  rw [find?_eq, hf]
  simp only [hv]

theorem find?_of_outermost (hf : h.frame? e = some f) (hv : f.bindings.find? x = none)
    (ho : f.outer = none) : h.find? e x = none := by
  rw [find?_eq, hf]
  simp only [hv, ho]

/-- A name that a frame does not bind is looked up in the frame around it. -/
theorem find?_of_inside (hf : h.frame? e = some f) (hv : f.bindings.find? x = none)
    (ho : f.outer = some o) (hlt : o < e) : h.find? e x = h.find? o x := by
  rw [find?_eq h e, hf]
  simp only [hv, ho, if_pos hlt]

theorem listing_of_outermost (hf : h.frame? e = some f) (ho : f.outer = none) :
    h.listing e = frameListing f.bindings.names "None" := by
  have hnames : h.names e = [f.bindings.names] := by
    rw [names, chain, hf]
    simp only [ho, List.map_cons, List.map_nil]
  rw [listing, hnames]
  rfl

/-- The listing of a frame holds that of the frame around it. -/
theorem listing_of_inside (hf : h.frame? e = some f) (ho : f.outer = some o) (hlt : o < e)
    (hmade : o < h.frames.size) :
    h.listing e = frameListing f.bindings.names ("Some(" ++ h.listing o ++ ")") := by
  have hnames : h.names e = f.bindings.names :: h.names o := by
    rw [names, chain, hf]
    simp only [ho, if_pos hlt, List.map_cons]
    rfl
  obtain ⟨g, hg⟩ := exists_frame?_of_lt hmade
  have hinner : ∃ rest, h.names o = g.bindings.names :: rest := by
    rw [names, chain, hg]
    exact ⟨_, rfl⟩
  obtain ⟨rest, hrest⟩ := hinner
  rw [listing, hnames, listing, hrest]
  rfl

/-- What is listed is there. -/
theorem Lists.made {text : String} (hlists : h.Lists e text) : e < h.frames.size := by
  cases hlists with
  | outermost hf _ => exact lt_size_of_frame?_eq_some hf
  | inside hf _ _ => exact lt_size_of_frame?_eq_some hf

end Heap

/-! ## Grounded heaps -/

/-- All frames. -/
def Region.whole : Region := ⟨fun _ => True, 0⟩

theorem Region.has_whole {size : Nat} {i : FrameId} : whole.Has size i ↔ i < size :=
  ⟨fun hi => hi.2, fun hi => ⟨.inl trivial, hi⟩⟩

/-- A heap in which no frame is missing that a frame holds, and every frame is older than those
inside it. -/
structure Heap.Grounded (h : Heap α) : Prop where
  confined : h.Confined .whole
  older : ∀ i f o, h.frame? i = some f → f.outer = some o → o < i

/-- All frames of `h` are frames of `k`, inside the same frames as before. -/
def Heap.KeepsLinks (h k : Heap α) : Prop :=
  ∀ i f, h.frame? i = some f → ∃ f', k.frame? i = some f' ∧ f'.outer = f.outer

namespace Heap

variable {h k l : Heap α} {e i : FrameId} {x : String} {v : Value α} {f : Frame α}

theorem KeepsLinks.refl (h : Heap α) : h.KeepsLinks h := fun _ f hf => ⟨f, hf, rfl⟩

/-- Links that are kept twice are kept. -/
theorem KeepsLinks.trans (hk : h.KeepsLinks k) (hl : k.KeepsLinks l) : h.KeepsLinks l := by
  intro i f hf
  obtain ⟨f', hf', houter⟩ := hk i f hf
  obtain ⟨f'', hf'', houter'⟩ := hl i f' hf'
  exact ⟨f'', hf'', houter'.trans houter⟩

/-- A binding changes no link. -/
theorem keepsLinks_insert (h : Heap α) (e : FrameId) (x : String) (v : Value α) :
    h.KeepsLinks (h.insert e x v) := by
  intro i f hf
  by_cases hie : i = e
  · subst hie
    refine ⟨f.insert x v, ?_, rfl⟩
    rw [frame?_insert_self, hf, Option.map_some]
  · exact ⟨f, (h.frame?_insert_of_ne x v hie).trans hf, rfl⟩

/-- A new frame changes no link of those that are there. -/
theorem keepsLinks_alloc (h : Heap α) (f : Frame α) : h.KeepsLinks (h.alloc f).2 := by
  intro i f' hf'
  have hne : i ≠ h.frames.size := Nat.ne_of_lt (lt_size_of_frame?_eq_some hf')
  exact ⟨f', (h.frame?_alloc_of_ne f hne).trans hf', rfl⟩

namespace Grounded

theorem empty : (Heap.empty : Heap α).Grounded :=
  ⟨⟨Nat.le_refl 0, fun _ _ hi _ => absurd hi.2 (Nat.not_lt_zero _)⟩,
    fun _ _ _ hf _ => absurd (lt_size_of_frame?_eq_some hf) (Nat.not_lt_zero _)⟩

/-- A binding of a value that captured frames of the heap keeps it grounded. -/
theorem insert (hh : h.Grounded) (hv : v.Within (Region.whole.Has h.frames.size)) :
    (h.insert e x v).Grounded := by
  refine ⟨hh.confined.insert hv, fun i f o hf ho => ?_⟩
  -- A binding leaves the links alone.
  obtain ⟨f₀, hf₀⟩ : ∃ f₀, h.frame? i = some f₀ := by
    refine exists_frame?_of_lt ?_
    rw [← h.size_insert e x v]
    exact lt_size_of_frame?_eq_some hf
  obtain ⟨f', hf', houter⟩ := h.keepsLinks_insert e x v i f₀ hf₀
  obtain rfl : f = f' := Option.some.inj (hf.symm.trans hf')
  exact hh.older i f₀ o hf₀ (houter ▸ ho)

/-- A frame is made inside a frame that is there, and so inside an older one. -/
theorem alloc (hh : h.Grounded) (hf : f.Within (Region.whole.Has h.frames.size)) :
    (h.alloc f).2.Grounded := by
  refine ⟨(hh.confined.alloc hf).1, fun i f' o hf' ho => ?_⟩
  by_cases hie : i = h.frames.size
  · subst hie
    rw [frame?_alloc_self] at hf'
    cases hf'
    exact (hf.outer o ho).2
  · rw [h.frame?_alloc_of_ne f hie] at hf'
    exact hh.older i f' o hf' ho

theorem within (hh : h.Grounded) (hf : h.frame? i = some f) :
    f.Within (Region.whole.Has h.frames.size) :=
  hh.confined.frames i f (Region.has_whole.2 (lt_size_of_frame?_eq_some hf)) hf

/-- Following the links in search of a name ends with the value of the name. -/
theorem finds_iff (hh : h.Grounded) (he : e < h.frames.size) {found : Option (Value α)} :
    h.Finds x e found ↔ found = h.find? e x := by
  constructor
  · intro hfinds
    clear he
    induction hfinds with
    | here hf hv => exact (find?_of_bound hf hv).symm
    | nowhere hf hv ho => exact (find?_of_outermost hf hv ho).symm
    | around hf hv ho _ ih => rw [ih, find?_of_inside hf hv ho (hh.older _ _ _ hf ho)]
  · rintro rfl
    -- The frame around a frame is older, so the induction is on the frame.
    induction e using Nat.strongRecOn with
    | ind e ih =>
      obtain ⟨f, hf⟩ := exists_frame?_of_lt he
      cases hv : f.bindings.find? x with
      | some v =>
        rw [find?_of_bound hf hv]
        exact .here hf hv
      | none =>
        cases ho : f.outer with
        | none =>
          rw [find?_of_outermost hf hv ho]
          exact .nowhere hf hv ho
        | some o =>
          have hlt := hh.older e f o hf ho
          rw [find?_of_inside hf hv ho hlt]
          exact .around hf hv ho (ih o hlt (Nat.lt_trans hlt he))

/-- Following the links in order to list an environment ends with its listing. -/
theorem lists_iff (hh : h.Grounded) (he : e < h.frames.size) {text : String} :
    h.Lists e text ↔ text = h.listing e := by
  constructor
  · intro hlists
    clear he
    induction hlists with
    | outermost hf ho => exact (listing_of_outermost hf ho).symm
    | inside hf ho hlists ih => rw [ih, listing_of_inside hf ho (hh.older _ _ _ hf ho) hlists.made]
  · rintro rfl
    induction e using Nat.strongRecOn with
    | ind e ih =>
      obtain ⟨f, hf⟩ := exists_frame?_of_lt he
      cases ho : f.outer with
      | none =>
        rw [listing_of_outermost hf ho]
        exact .outermost hf ho
      | some o =>
        have hlt := hh.older e f o hf ho
        have hmade := Nat.lt_trans hlt he
        rw [listing_of_inside hf ho hlt hmade]
        exact .inside hf ho (ih o hlt hmade)

end Grounded

end Heap

/-! ## Evaluations -/

/-- Evaluations keep a heap grounded that has kept its links since it was `h`. -/
def Heap.Grounded.invariant (h : Heap α) : Invariant α where
  live := Region.whole.Has
  heap := fun k => k.Grounded ∧ h.KeepsLinks k
  live_mono := Region.Has.mono
  find? := fun hk => hk.1.confined.find?
  insert := fun hk hv => ⟨hk.1.insert hv, hk.2.trans (Heap.keepsLinks_insert _ _ _ _)⟩
  alloc := fun hk hf => ⟨⟨hk.1.alloc hf, hk.2.trans (Heap.keepsLinks_alloc _ _)⟩,
    Region.has_whole.2 (Nat.lt_succ_self _)⟩

/-! ## What a host can do -/

/-- The value that an evaluation gives to its host. -/
def resultValue? : Except (Unwind α) (Value α) → Option (Value α)
  | .ok v => some v
  | .error (.ret v) => some v
  | .error (.error _) => none

/-- A heap, and the values that evaluations on it have given so far. -/
structure Scene (α : Type) where
  heap : Heap α
  given : List (Value α)

namespace Scene

/-- The values that a host has: those that are no functions, those that it was given, and those that
are bound in a frame. -/
inductive Has (s : Scene α) : Value α → Prop
  | plain {v : Value α} : (∀ c, v ≠ .func c) → Has s v
  | given {v : Value α} : v ∈ s.given → Has s v
  | bound {i : FrameId} {f : Frame α} {x : String} {v : Value α} :
      s.heap.frame? i = some f → f.bindings.find? x = some v → Has s v

/-- What a host can do: make an environment outside all others, inside another one, or for a call of
a function; bind a name to a value; and evaluate a node, which may end with a value, return or
fail. -/
inductive Step : Scene α → Scene α → Prop
  | outermost {s : Scene α} : Step s ⟨(s.heap.enclose none).2, s.given⟩
  | enclose {s : Scene α} {e : FrameId} :
      e < s.heap.frames.size → Step s ⟨(s.heap.enclose (some e)).2, s.given⟩
  | call {s : Scene α} {c : Closure α} {args : List (Value α)} :
      s.Has (.func c) → (∀ v ∈ args, s.Has v) → Step s ⟨(s.heap.alloc (c.frame args)).2, s.given⟩
  | insert {s : Scene α} {e : FrameId} {v : Value α} (x : String) :
      e < s.heap.frames.size → s.Has v → Step s ⟨s.heap.insert e x v, s.given⟩
  | eval {s : Scene α} {e : FrameId} {node : Node α} {depth : Nat}
      {r : Except (Unwind α) (Value α)} {k : Heap α} :
      e < s.heap.frames.size → node.eval depth e s.heap = some (r, k) →
      Step s ⟨k, (resultValue? r).toList ++ s.given⟩

/-- What becomes of a scene by any number of steps. -/
abbrev Reaches : Scene α → Scene α → Prop := Relation.ReflTransGen Step

/-- The scene without frames and values. -/
def start : Scene α := ⟨.empty, []⟩

/-- A scene whose heap is grounded and has the frames that given functions captured. -/
structure Grounded (s : Scene α) : Prop where
  heap : s.heap.Grounded
  given : ∀ v ∈ s.given, v.Within (Region.whole.Has s.heap.frames.size)

variable {s s' : Scene α}

/-- The values at hand captured frames of the heap. -/
theorem Grounded.within_of_has {v : Value α} (hs : s.Grounded) (hv : s.Has v) :
    v.Within (Region.whole.Has s.heap.frames.size) := by
  cases hv with
  | plain hplain => exact Value.within_of_ne hplain
  | given hmem => exact hs.given v hmem
  | bound hf hx => exact (hs.heap.within hf).bindings _ _ hx

/-- Making a frame that holds frames which are there. -/
theorem Grounded.alloc {f : Frame α} (hs : s.Grounded)
    (hf : f.Within (Region.whole.Has s.heap.frames.size)) :
    Grounded ⟨(s.heap.alloc f).2, s.given⟩ ∧ s.heap.KeepsLinks (s.heap.alloc f).2 := by
  refine ⟨⟨hs.heap.alloc hf, fun v hv => ?_⟩, s.heap.keepsLinks_alloc f⟩
  refine (hs.given v hv).mono fun i hi => hi.mono ?_
  rw [Heap.size_alloc]
  exact Nat.le_succ _

/-- An empty frame, outside all others or inside a frame that is there. -/
theorem Grounded.enclose {outer : Option FrameId} (hs : s.Grounded)
    (houter : ∀ e ∈ outer, e < s.heap.frames.size) :
    Grounded ⟨(s.heap.enclose outer).2, s.given⟩ ∧
      s.heap.KeepsLinks (s.heap.enclose outer).2 :=
  hs.alloc ⟨fun e he => Region.has_whole.2 (houter e he), fun x v hv => by cases hv⟩

/-- A step leaves a grounded scene grounded, and changes no link. -/
theorem Grounded.step (hs : s.Grounded) (hstep : Step s s') :
    s'.Grounded ∧ s.heap.KeepsLinks s'.heap := by
  cases hstep with
  | outermost => exact hs.enclose fun e he => by cases he
  | enclose he =>
    refine hs.enclose fun e' he' => ?_
    obtain rfl := Option.some.inj he'
    exact he
  | @call c args hc hargs =>
    refine hs.alloc (Closure.frame_within ?_ fun v hv => hs.within_of_has (hargs v hv))
    exact hs.within_of_has hc c.env ⟨c, rfl, rfl⟩
  | insert x he hv =>
    refine ⟨⟨hs.heap.insert (hs.within_of_has hv), fun w hw => ?_⟩, s.heap.keepsLinks_insert _ _ _⟩
    rw [Heap.size_insert]
    exact hs.given w hw
  | @eval e node depth r k he hrun =>
    have hkept := node.keeps (I := Heap.Grounded.invariant s.heap) (Region.has_whole.2 he) depth
      s.heap r k (Nat.le_refl _) ⟨hs.heap, .refl _⟩ hrun
    obtain ⟨hgrounded, hlinks⟩ := hkept.heap
    refine ⟨⟨hgrounded, fun v hv => ?_⟩, hlinks⟩
    -- What the evaluation gives is within its heap, and what was there before is all the more.
    rcases List.mem_append.1 hv with hv | hv
    · cases r with
      | ok w =>
        obtain rfl := List.mem_singleton.1 hv
        exact hkept.result v rfl
      | error u =>
        cases u with
        | ret w =>
          obtain rfl := List.mem_singleton.1 hv
          exact hkept.returned v rfl
        | error e => cases hv
    · exact (hs.given v hv).mono fun i hi => hi.mono hkept.size_le

/-- Any number of steps keeps a scene grounded, and keeps all its links. -/
theorem Grounded.reaches (hs : s.Grounded) (hreaches : s.Reaches s') :
    s'.Grounded ∧ s.heap.KeepsLinks s'.heap := by
  induction hreaches with
  | refl => exact ⟨hs, .refl _⟩
  | tail _ hstep ih =>
    obtain ⟨hgrounded, hlinks⟩ := ih
    obtain ⟨hgrounded', hlinks'⟩ := hgrounded.step hstep
    exact ⟨hgrounded', hlinks.trans hlinks'⟩

theorem grounded_start : (start : Scene α).Grounded := ⟨.empty, fun v hv => by cases hv⟩

end Scene

/-- The heap stays well-founded. Whatever a host has done with the empty heap, every outer link
leads to an older frame and stays as it was made, whatever the host does next; every function that
is bound in a frame or was given to the host captured a frame that is there; and in every
environment, following the links ends, both in search of a name and in order to list the
environment. -/
theorem heap_stays_grounded {s : Scene α} (hs : Scene.start.Reaches s) :
    (∀ i f, s.heap.frame? i = some f →
      (∀ o, f.outer = some o → o < i ∧ (s.heap.frame? o).isSome) ∧
      ∀ x c, f.bindings.find? x = some (.func c) → (s.heap.frame? c.env).isSome) ∧
    (∀ c, .func c ∈ s.given → (s.heap.frame? c.env).isSome) ∧
    (∀ s', s.Reaches s' → ∀ i f, s.heap.frame? i = some f →
      ∃ f', s'.heap.frame? i = some f' ∧ f'.outer = f.outer) ∧
    ∀ e, (s.heap.frame? e).isSome →
      (∀ x found, s.heap.Finds x e found ↔ found = s.heap.find? e x) ∧
      ∀ text, s.heap.Lists e text ↔ text = s.heap.listing e := by
  obtain ⟨hgrounded, -⟩ := Scene.grounded_start.reaches hs
  have hmade : ∀ {i}, Region.whole.Has s.heap.frames.size i → (s.heap.frame? i).isSome := by
    intro i hi
    obtain ⟨f, hf⟩ := Heap.exists_frame?_of_lt hi.2
    rw [hf]
    rfl
  refine ⟨fun i f hf => ⟨fun o ho => ?_, fun x c hc => ?_⟩, fun c hc => ?_, fun s' hs' => ?_,
    fun e he => ?_⟩
  · exact ⟨hgrounded.heap.older i f o hf ho, hmade ((hgrounded.heap.within hf).outer o ho)⟩
  · exact hmade ((hgrounded.heap.within hf).bindings x _ hc c.env ⟨c, rfl, rfl⟩)
  · exact hmade (hgrounded.given _ hc c.env ⟨c, rfl, rfl⟩)
  · exact (hgrounded.reaches hs').2
  · obtain ⟨f, hf⟩ := Option.isSome_iff_exists.1 he
    have hlt := Heap.lt_size_of_frame?_eq_some hf
    exact ⟨fun x found => hgrounded.heap.finds_iff hlt, fun text => hgrounded.heap.lists_iff hlt⟩

/-- The function `fn() {f}` that captured the frame 0. -/
def recursive : Closure Unit := ⟨(), [], [.expr (.callable (.name "f"))], 0⟩

/-- The frame 0 binds `f` to this function, and the frame 1 is that of a call of it. -/
def recursiveScene : Scene Unit :=
  ⟨⟨#[⟨[("f", .func recursive)], none⟩, ⟨[], some 0⟩]⟩, [.func recursive]⟩

/-- An environment is made, a program binds `f` and returns it, a frame is made for a call of `f`,
and a program fails there. The frame 0 holds a function that captured it, but looking `f` up from
the frame 1 and listing that frame end there. -/
theorem heap_stays_grounded_recursive :
    Scene.start.Reaches recursiveScene ∧
      recursiveScene.heap.Finds "f" 1 (some (.func recursive)) ∧
      recursiveScene.heap.Lists 1
        (frameListing [] ("Some(" ++ frameListing ["f"] "None" ++ ")")) := by
  have hreaches : Scene.start.Reaches recursiveScene := by
    have hreturn : (Node.block [.letDecl "f" (.callable (.func () [] recursive.body)),
        .ret (.callable (.name "f"))]).eval 4 0 (⟨#[⟨[], none⟩]⟩ : Heap Unit) =
          some (.error (.ret (.func recursive)), ⟨#[⟨[("f", .func recursive)], none⟩]⟩) := by
      cbv
    have hfail : (Node.stmt (.letDecl "x" (.callable (.name "g")))).eval 2 1
        recursiveScene.heap = some (.error (.error (.unboundName "g")), recursiveScene.heap) := by
      cbv
    refine .tail (.tail (.tail (.tail .refl .outermost) (.eval ?_ hreturn)) ?_) (.eval ?_ hfail)
    · exact Nat.zero_lt_one
    · exact .call (c := recursive) (.given List.mem_cons_self) (List.forall_mem_nil _)
    · exact Nat.one_lt_two
  obtain ⟨-, -, -, hends⟩ := heap_stays_grounded hreaches
  obtain ⟨hfinds, hlists⟩ := hends 1 rfl
  refine ⟨hreaches, (hfinds "f" _).2 (by cbv), (hlists _).2 ?_⟩
  have houter : recursiveScene.heap.listing 0 = frameListing ["f"] "None" :=
    Heap.listing_of_outermost (f := ⟨[("f", .func recursive)], none⟩) rfl rfl
  have hinside : recursiveScene.heap.listing 1 =
      frameListing [] ("Some(" ++ recursiveScene.heap.listing 0 ++ ")") :=
    Heap.listing_of_inside (f := ⟨[], some 0⟩) rfl rfl Nat.zero_lt_one Nat.zero_lt_two
  rw [hinside, houter]

end LetLang
