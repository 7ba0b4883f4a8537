import LetLang.Heap.Basic
import LetLang.Text.Quoted

/-!
# Listings of environments

The names bound in an environment, frame by frame from the innermost outwards.
-/

namespace LetLang

variable {α : Type}

/-- Quoted names between brackets. -/
def nameList (names : List String) : String :=
  "[" ++ commaSeparated (names.map Text.quoted) ++ "]"

/-- The listing of a frame with the given names, around it a listing of the outer frame. -/
def frameListing (names : List String) (outer : String) : String :=
  "Environment \x7b names: " ++ nameList names ++ ", outer: " ++ outer ++ " \x7d"

/-- The listing of the frames around a frame. -/
def outerListing : List (List String) → String
  | [] => "None"
  | names :: rest => "Some(" ++ frameListing names (outerListing rest) ++ ")"

/-- The names of an environment, frame by frame. -/
def Heap.names (h : Heap α) (e : FrameId) : List (List String) :=
  (h.chain e).map fun f => f.2.bindings.names

/-- The listing of an environment. -/
def Heap.listing (h : Heap α) (e : FrameId) : String :=
  match h.names e with
  | [] => frameListing [] "None"
  | names :: rest => frameListing names (outerListing rest)

end LetLang
