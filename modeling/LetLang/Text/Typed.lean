import LetLang.Text.Cluster.Basic

/-!
# Typed lines

A line can be typed with corrections: a backspace takes back the cluster before it, and is no part
of the line itself. A line without a backspace is what was typed (`corrected_of_not_mem`).
-/

namespace LetLang.Text

/-- The character that takes back the cluster before it. -/
def backspace : Char := '\x08'

/-- What is left of a line that is being typed: its characters, and the length of each of its
clusters in bytes, both from the end. The length of a cluster is kept in one byte, so it is the
length modulo 256. -/
structure Typed where
  chars : List Char
  sizes : List UInt8

namespace Typed

/-- The characters without the last `n` bytes, both given from the end. There is no such list if
the bytes end within a character. -/
def dropBytes : Nat → List Char → Option (List Char)
  | 0, cs => some cs
  | _ + 1, [] => none
  | n + 1, c :: cs => if c.utf8Size ≤ n + 1 then dropBytes (n + 1 - c.utf8Size) cs else none

/-- The line with one cluster more. -/
def add (t : Typed) (cluster : List Char) : Typed :=
  ⟨cluster.reverse ++ t.chars, .ofNat ((cluster.map Char.utf8Size).foldr (· + ·) 0) :: t.sizes⟩

/-- The line without its last cluster. In an empty line nothing is taken back. -/
def takeBack (t : Typed) : Option Typed :=
  match t.sizes with
  | [] => some t
  | size :: sizes => (dropBytes size.toNat t.chars).map fun chars => ⟨chars, sizes⟩

/-- The line after the next cluster that is typed. -/
def step (t : Typed) (cluster : List Char) : Option Typed :=
  if cluster = [backspace] then t.takeBack else some (t.add cluster)

end Typed

/-- The line that is left of what was typed. There is none if a correction ends within a
character. -/
def corrected (typed : String) : Option String :=
  ((clusters typed.toList).foldlM Typed.step ⟨[], []⟩).map fun t => String.ofList t.chars.reverse

/-- Clusters without a backspace are added one after the other. -/
theorem foldlM_step_of_not_mem {clusters : List (List Char)} (h : [backspace] ∉ clusters)
    (t : Typed) : ∃ sizes, clusters.foldlM Typed.step t =
      some ⟨clusters.flatten.reverse ++ t.chars, sizes⟩ := by
  induction clusters generalizing t with
  | nil => exact ⟨t.sizes, by simp⟩
  | cons cluster clusters ih =>
    simp only [List.mem_cons, not_or] at h
    obtain ⟨sizes, hsizes⟩ := ih h.2 (t.add cluster)
    refine ⟨sizes, ?_⟩
    simp only [List.foldlM_cons, Typed.step, if_neg (Ne.symm h.1)]
    simpa [Typed.add] using hsizes

/-- A line without a backspace is what was typed. -/
theorem corrected_of_not_mem {typed : String} (h : backspace ∉ typed.toList) :
    corrected typed = some typed := by
  have hmem : [backspace] ∉ clusters typed.toList := fun hc =>
    h (by rw [← flatten_clusters typed.toList]; exact List.mem_flatten.mpr ⟨_, hc, by simp⟩)
  obtain ⟨sizes, hsizes⟩ := foldlM_step_of_not_mem hmem ⟨[], []⟩
  simp [corrected, hsizes, flatten_clusters]

end LetLang.Text
