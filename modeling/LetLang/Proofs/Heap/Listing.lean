import LetLang.Heap.Listing
import LetLang.Proofs.Heap.Frames
import LetLang.Proofs.Text.ByteOrder
import LetLang.Proofs.Text.Decoding

/-!
# Listings of environments

The names of a frame are listed in the order of their bytes, in whatever order they were bound
(`Bindings.names_eq_iff`). A listing is taken apart from the front: a quoted name shows where it
ends, whatever characters it has, the bracket ends the names of a frame, and the first character
behind them tells whether there is another frame (`outerListing_append_injective`). So two
environments have one listing exactly if they bind the same names frame by frame
(`listing_determines_names`).
-/

set_option autoImplicit false

namespace LetLang

variable {α β : Type}

/-! ## The names of a frame -/

namespace Bindings

theorem pairwise_insertName (x : String) {names : List String} (h : names.Pairwise (· < ·)) :
    (insertName x names).Pairwise (· < ·) := by
  induction names with
  | nil => exact List.pairwise_singleton _ x
  | cons y ys ih =>
    obtain ⟨hy, hys⟩ := List.pairwise_cons.1 h
    rw [insertName]
    split
    · next hlt =>
      refine List.pairwise_cons.2 ⟨List.forall_mem_cons.2 ⟨hlt, fun z hz => ?_⟩, h⟩
      exact lt_trans hlt (hy z hz)
    · split
      · exact h
      · next hge hne =>
        have hlt : y < x := lt_of_le_of_ne (not_lt.1 hge) (Ne.symm hne)
        refine List.pairwise_cons.2 ⟨fun z hz => ?_, ih hys⟩
        rcases mem_insertName.1 hz with rfl | hz
        · exact hlt
        · exact hy z hz

/-- The names are ascending, and so each is there once. -/
theorem pairwise_names (bs : Bindings α) : bs.names.Pairwise (· < ·) := by
  induction bs with
  | nil => exact .nil
  | cons b bs ih => exact pairwise_insertName b.1 ih

/-- Bindings of the same names have one list of names, whatever their order and their values. -/
theorem names_eq_iff {bs : Bindings α} {bs' : Bindings β} :
    bs.names = bs'.names ↔ ∀ x, (bs.find? x).isSome ↔ (bs'.find? x).isSome := by
  constructor
  · intro h x
    rw [← mem_names, ← mem_names, h]
  · intro h
    refine bs.pairwise_names.eq_of_mem_iff bs'.pairwise_names fun x => ?_
    rw [mem_names, mem_names]
    exact h x

end Bindings

/-! ## Listings that are read back -/

/-- The characters behind the first of several quoted names, with the bracket that ends them. -/
def moreNames : List String → List Char
  | [] => [']']
  | x :: xs => ',' :: ' ' :: ((Text.quoted x).toList ++ moreNames xs)

theorem toList_nameList_nil : (nameList []).toList = ['[', ']'] := by
  decide

theorem toList_nameList_cons (x : String) (xs : List String) :
    (nameList (x :: xs)).toList = '[' :: ((Text.quoted x).toList ++ moreNames xs) := by
  have hlisted : (commaSeparated ((x :: xs).map Text.quoted)).toList ++ [']'] =
      (Text.quoted x).toList ++ moreNames xs := by
    rw [commaSeparated]
    induction xs generalizing x with
    | nil =>
      rw [List.map_singleton, String.intercalate_singleton]
      rfl
    | cons y ys ih =>
      rw [List.map_cons, List.map_cons, String.intercalate_cons_cons, ← List.map_cons, moreNames,
        ← ih y]
      simp
  rw [← hlisted]
  simp [nameList]

theorem moreNames_append_injective {xs ys : List String} {rest rest' : List Char}
    (h : moreNames xs ++ rest = moreNames ys ++ rest') : xs = ys ∧ rest = rest' := by
  induction xs generalizing ys with
  | nil =>
    cases ys with
    | nil => exact ⟨rfl, (List.cons.inj h).2⟩
    | cons y ys => exact absurd (List.cons.inj h).1 (by decide)
  | cons x xs ih =>
    cases ys with
    | nil => exact absurd (List.cons.inj h).1 (by decide)
    | cons y ys =>
      simp only [moreNames, List.cons_append, List.append_assoc, List.cons.injEq, true_and] at h
      obtain ⟨rfl, htail⟩ := Text.quoted_append_injective h
      obtain ⟨rfl, hrest⟩ := ih htail
      exact ⟨rfl, hrest⟩

/-- The names of a frame are told apart from what follows. -/
theorem nameList_append_injective {xs ys : List String} {rest rest' : List Char}
    (h : (nameList xs).toList ++ rest = (nameList ys).toList ++ rest') :
    xs = ys ∧ rest = rest' := by
  -- Behind the bracket stands a quote, or the bracket that ends an empty list.
  have hquote : ∀ x cs ds, ']' :: ds ≠ (Text.quoted x).toList ++ cs := by
    intro x cs ds heq
    rw [Text.toList_quoted] at heq
    exact absurd (List.cons.inj heq).1 (by decide)
  cases xs with
  | nil =>
    cases ys with
    | nil => exact ⟨rfl, List.append_cancel_left h⟩
    | cons y ys =>
      simp only [toList_nameList_nil, toList_nameList_cons, List.cons_append,
        List.append_assoc] at h
      exact absurd (List.cons.inj h).2 (hquote _ _ _)
  | cons x xs =>
    cases ys with
    | nil =>
      simp only [toList_nameList_nil, toList_nameList_cons, List.cons_append,
        List.append_assoc] at h
      exact absurd (List.cons.inj h).2.symm (hquote _ _ _)
    | cons y ys =>
      rw [toList_nameList_cons, toList_nameList_cons, List.cons_append, List.cons_append,
        List.append_assoc, List.append_assoc] at h
      obtain ⟨rfl, htail⟩ := Text.quoted_append_injective (List.cons.inj h).2
      obtain ⟨rfl, hrest⟩ := moreNames_append_injective htail
      exact ⟨rfl, hrest⟩

theorem toList_frameListing (names : List String) (outer : String) (rest : List Char) :
    (frameListing names outer).toList ++ rest = "Environment \x7b names: ".toList ++
      ((nameList names).toList ++ (", outer: ".toList ++
        (outer.toList ++ (" \x7d".toList ++ rest)))) := by
  have hlisting : frameListing names outer = "Environment \x7b names: " ++ nameList names ++
      ", outer: " ++ outer ++ " \x7d" := rfl
  simp only [hlisting, String.toList_append, List.append_assoc]

theorem toList_outerListing_cons (names : List String) (rows : List (List String))
    (rest : List Char) : (outerListing (names :: rows)).toList ++ rest = "Some(".toList ++
      ((frameListing names (outerListing rows)).toList ++ (")".toList ++ rest)) := by
  have hlisting : outerListing (names :: rows) =
      "Some(" ++ frameListing names (outerListing rows) ++ ")" := rfl
  simp only [hlisting, String.toList_append, List.append_assoc]

/-- The names that a frame is listed with are told apart from what is listed around it. -/
theorem frameListing_append {names names' : List String} {outer outer' : String}
    {rest rest' : List Char}
    (h : (frameListing names outer).toList ++ rest = (frameListing names' outer').toList ++ rest') :
    names = names' ∧
      outer.toList ++ (" \x7d".toList ++ rest) = outer'.toList ++ (" \x7d".toList ++ rest') := by
  rw [toList_frameListing, toList_frameListing] at h
  obtain ⟨rfl, houter⟩ := nameList_append_injective (List.append_cancel_left h)
  exact ⟨rfl, List.append_cancel_left houter⟩

/-- The listing of several frames, one inside the other, is told apart from what follows. -/
theorem outerListing_append_injective {rows rows' : List (List String)} {rest rest' : List Char}
    (h : (outerListing rows).toList ++ rest = (outerListing rows').toList ++ rest') :
    rows = rows' ∧ rest = rest' := by
  have hnone : ∀ cs ds, "None".toList ++ cs ≠ "Some(".toList ++ ds :=
    fun cs ds heq => absurd (List.cons.inj heq).1 (by decide)
  induction rows generalizing rows' rest rest' with
  | nil =>
    cases rows' with
    | nil => exact ⟨rfl, List.append_cancel_left h⟩
    | cons names' rows' =>
      rw [toList_outerListing_cons] at h
      exact absurd h (hnone _ _)
  | cons names rows ih =>
    cases rows' with
    | nil =>
      rw [toList_outerListing_cons] at h
      exact absurd h.symm (hnone _ _)
    | cons names' rows' =>
      rw [toList_outerListing_cons, toList_outerListing_cons] at h
      obtain ⟨rfl, houter⟩ := frameListing_append (List.append_cancel_left h)
      obtain ⟨rfl, hrest⟩ := ih houter
      exact ⟨rfl, List.append_cancel_left (List.append_cancel_left hrest)⟩

/-! ## Environments -/

/-- The frames bind the same names. -/
def Frame.SameNames (f : Frame α) (g : Frame β) : Prop :=
  ∀ x, (f.bindings.find? x).isSome ↔ (g.bindings.find? x).isSome

/-- The list has the names that the frame binds, in the order of their bytes and each once. -/
structure Frame.ListedBy (f : Frame α) (names : List String) : Prop where
  mem_iff : ∀ x, x ∈ names ↔ (f.bindings.find? x).isSome
  ascending : names.Pairwise fun x y => Text.bytes x < Text.bytes y

theorem Frame.listedBy_names (f : Frame α) : f.ListedBy f.bindings.names where
  mem_iff _ := Bindings.mem_names
  ascending := f.bindings.pairwise_names.imp Text.bytes_lt_of_lt

namespace Heap

variable {h : Heap α} {h' : Heap β} {e e' : FrameId}

/-- The names of an environment are those of its frame, and of the frames around it. -/
theorem listing_eq (he : (h.frame? e).isSome) :
    ∃ names rows, h.names e = names :: rows ∧
      h.listing e = frameListing names (outerListing rows) := by
  obtain ⟨f, hf⟩ := Option.isSome_iff_exists.1 he
  have hnames : ∃ rows, h.names e = f.bindings.names :: rows := by
    rw [names, chain, hf]
    exact ⟨_, rfl⟩
  obtain ⟨rows, hrows⟩ := hnames
  exact ⟨_, rows, hrows, by rw [listing, hrows]⟩

theorem listing_eq_iff_names (he : (h.frame? e).isSome) (he' : (h'.frame? e').isSome) :
    h.listing e = h'.listing e' ↔ h.names e = h'.names e' := by
  obtain ⟨names, rows, hnames, hlisting⟩ := listing_eq he
  obtain ⟨names', rows', hnames', hlisting'⟩ := listing_eq he'
  rw [hlisting, hlisting', hnames, hnames']
  constructor
  · intro heq
    have hlist : (frameListing names (outerListing rows)).toList ++ [] =
        (frameListing names' (outerListing rows')).toList ++ [] := by rw [heq]
    obtain ⟨rfl, houter⟩ := frameListing_append hlist
    obtain ⟨rfl, -⟩ := outerListing_append_injective houter
    rfl
  · rintro heq
    obtain ⟨rfl, rfl⟩ := List.cons.inj heq
    rfl

theorem names_eq_iff : h.names e = h'.names e' ↔
    List.Forall₂ (fun f f' => f.2.SameNames f'.2) (h.chain e) (h'.chain e') := by
  rw [names, names, ← List.forall₂_eq_eq_eq, List.forall₂_map_left_iff, List.forall₂_map_right_iff]
  simp only [Bindings.names_eq_iff]
  rfl

end Heap

/-- Two environments of any heaps have one listing exactly if as many frames lie on their chains and
these bind the same names, one after the other, to whatever values and in whatever order. What is
listed for a frame are the names that it binds, in the order of their bytes and each once. -/
theorem listing_determines_names (h : Heap α) (h' : Heap β) (e e' : FrameId)
    (he : (h.frame? e).isSome) (he' : (h'.frame? e').isSome) :
    (h.listing e = h'.listing e' ↔
      List.Forall₂ (fun f f' => f.2.SameNames f'.2) (h.chain e) (h'.chain e')) ∧
    ∃ names rows, h.listing e = frameListing names (outerListing rows) ∧
      List.Forall₂ (fun f names => f.2.ListedBy names) (h.chain e) (names :: rows) := by
  refine ⟨(Heap.listing_eq_iff_names he he').trans Heap.names_eq_iff, ?_⟩
  obtain ⟨names, rows, hnames, hlisting⟩ := Heap.listing_eq he
  refine ⟨names, rows, hlisting, ?_⟩
  rw [← hnames, Heap.names, List.forall₂_map_right_iff, List.forall₂_same]
  exact fun f _ => f.2.listedBy_names

/-- The frame 1 lies inside the frame 0, one of whose names looks like two names that are listed. -/
def delimiterNames : Heap Unit :=
  ⟨#[⟨[("b", .int 1), ("a\", \"c", .null)], none⟩, ⟨[], some 0⟩]⟩

/-- The frame 2 lies inside the frame 1, where the same names are bound in another order, and the
frame 3 inside the frame 0, where three names are bound. -/
def otherNames : Heap Nat :=
  ⟨#[⟨[("a", .null), ("b", .null), ("c", .null)], none⟩,
    ⟨[("a\", \"c", .bool true), ("b", .null)], none⟩, ⟨[], some 1⟩, ⟨[], some 0⟩]⟩

/-- The listing shows two names; it is that of the frame 2, and not that of the frame 3. -/
theorem listing_determines_names_quoted :
    delimiterNames.listing 1 = otherNames.listing 2 ∧
    delimiterNames.listing 1 ≠ otherNames.listing 3 ∧
    delimiterNames.listing 1 = "Environment \x7b names: [], outer: " ++
      "Some(Environment \x7b names: [\"a\\\", \\\"c\", \"b\"], outer: None \x7d) \x7d" := by
  have hnames : delimiterNames.names 1 = [[], ["a\", \"c", "b"]] := by cbv
  have hsame : otherNames.names 2 = [[], ["a\", \"c", "b"]] := by cbv
  have hapart : otherNames.names 3 = [[], ["a", "b", "c"]] := by cbv
  have hlisting := fun e he => (listing_determines_names delimiterNames otherNames 1 e rfl he).1
  refine ⟨(hlisting 2 rfl).2 (Heap.names_eq_iff.1 (hnames.trans hsame.symm)), fun heq => ?_, ?_⟩
  · have hlists := Heap.names_eq_iff.2 ((hlisting 3 rfl).1 heq)
    rw [hnames, hapart] at hlists
    exact absurd hlists (by decide)
  · rw [Heap.listing, hnames]
    decide +kernel

end LetLang
