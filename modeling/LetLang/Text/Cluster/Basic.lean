import LetLang.Text.Cluster.Role

/-!
# Clusters

Divides a text into clusters, by the rules for extended grapheme clusters. No character is lost
(`flatten_clusters`), and no cluster is empty (`nil_not_mem_clusters`).
-/

namespace LetLang.Text

/-- Whether the characters before end in a pictograph and what binds to it, the nearest first. -/
def endsInPicture (before : List Role) : Bool :=
  (before.dropWhile Role.isExtending).head? = some .pictograph

/-- Whether the characters before end in a consonant that is linked to the next one, the nearest
first. -/
def endsInConjunct (before : List Role) : Bool :=
  (before.takeWhile Role.keepsConjunct).contains .linker &&
    (before.dropWhile Role.keepsConjunct).head? = some .consonant

/-- Whether the characters before end in half a flag, the nearest first. -/
def endsInHalfFlag (before : List Role) : Bool :=
  (before.takeWhile (· = .regional)).length % 2 = 1

/-- Whether a character of the role `next` goes on with the cluster of the characters before it,
whose roles are given, the nearest first. -/
def joins (before : List Role) (next : Role) : Bool :=
  match before, next with
  | [], _ => false
  | .carriageReturn :: _, .lineFeed => true
  | .carriageReturn :: _, _ | .lineFeed :: _, _ | .control :: _, _ => false
  | _, .carriageReturn | _, .lineFeed | _, .control => false
  | .leadingJamo :: _, .leadingJamo | .leadingJamo :: _, .vowelJamo
  | .leadingJamo :: _, .openSyllable | .leadingJamo :: _, .closedSyllable => true
  | .openSyllable :: _, .vowelJamo | .openSyllable :: _, .trailingJamo
  | .vowelJamo :: _, .vowelJamo | .vowelJamo :: _, .trailingJamo => true
  | .closedSyllable :: _, .trailingJamo | .trailingJamo :: _, .trailingJamo => true
  | _, .extending | _, .nonJoiner | _, .linker | _, .joiner | _, .spacing => true
  | .preceding :: _, _ => true
  | .joiner :: roles, .pictograph => endsInPicture roles
  | roles, .consonant => endsInConjunct roles
  | roles, .regional => endsInHalfFlag roles
  | _, _ => false

/-- The clusters of the characters that are left. The cluster that was begun is given from its
end, with the roles of its characters. -/
def clustersFrom (cluster : List Char) (roles : List Role) : List Char → List (List Char)
  | [] => [cluster.reverse]
  | c :: cs =>
    let role := Role.of c
    if joins roles role then clustersFrom (c :: cluster) (role :: roles) cs
    else cluster.reverse :: clustersFrom [c] [role] cs

/-- The clusters of a text. -/
def clusters : List Char → List (List Char)
  | [] => []
  | c :: cs => clustersFrom [c] [.of c] cs

theorem flatten_clustersFrom (cluster : List Char) (roles : List Role) (cs : List Char) :
    (clustersFrom cluster roles cs).flatten = cluster.reverse ++ cs := by
  induction cs generalizing cluster roles with
  | nil => simp [clustersFrom]
  | cons c cs ih =>
    simp only [clustersFrom]
    split <;> simp [ih]

/-- The clusters hold the whole text, in order. -/
theorem flatten_clusters (cs : List Char) : (clusters cs).flatten = cs := by
  cases cs with
  | nil => rfl
  | cons c cs => simp [clusters, flatten_clustersFrom]

theorem nil_not_mem_clustersFrom {cluster : List Char} (h : cluster ≠ []) (roles : List Role)
    (cs : List Char) : [] ∉ clustersFrom cluster roles cs := by
  induction cs generalizing cluster roles with
  | nil => simpa [clustersFrom] using h
  | cons c cs ih =>
    simp only [clustersFrom]
    split
    · exact ih (by simp) _
    · simp [h, ih]

/-- No cluster is empty. -/
theorem nil_not_mem_clusters (cs : List Char) : [] ∉ clusters cs := by
  cases cs with
  | nil => simp [clusters]
  | cons c cs => exact nil_not_mem_clustersFrom (by simp) _ cs

end LetLang.Text
