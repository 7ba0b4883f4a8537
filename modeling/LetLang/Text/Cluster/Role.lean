import LetLang.Text.Cluster.Conjunct
import LetLang.Text.Cluster.Pictograph
import LetLang.Text.Cluster.Spacing
import LetLang.Text.Combining

/-!
# Roles in a cluster

A cluster is what a reader takes for one character. The role of a character says how it binds to
its neighbours; it refines the Unicode property `Grapheme_Cluster_Break` by the parts that a
character can have in a picture or a conjunct.
-/

namespace LetLang.Text

/-- How a character binds to its neighbours. -/
inductive Role where
  | carriageReturn
  | lineFeed
  | control
  /-- Binds to the character before it. -/
  | extending
  /-- Binds to the character before it, and keeps two consonants apart. -/
  | nonJoiner
  /-- Binds to the character before it, and two consonants to a conjunct. -/
  | linker
  /-- Binds to the character before it, and two pictographs to one picture. -/
  | joiner
  /-- Binds to the character before it, beside which it stands. -/
  | spacing
  /-- Binds to the character behind it. -/
  | preceding
  /-- One half of a flag. -/
  | regional
  | leadingJamo
  | vowelJamo
  | trailingJamo
  /-- A syllable without a trailing part. -/
  | openSyllable
  /-- A syllable with a trailing part. -/
  | closedSyllable
  | consonant
  | pictograph
  | other
  deriving DecidableEq

/-- Code points with the property `Grapheme_Cluster_Break=Control`, and the two of a line break. -/
def controlRanges : Ranges :=
  [(0x0, 0x1f), (0x7f, 0x9f), (0xad, 0xad), (0x61c, 0x61c), (0x180e, 0x180e), (0x200b, 0x200b),
   (0x200e, 0x200f), (0x2028, 0x202e), (0x2060, 0x206f), (0xfeff, 0xfeff), (0xfff0, 0xfffb),
   (0x13430, 0x1343f), (0x1bca0, 0x1bca3), (0x1d173, 0x1d17a), (0xe0000, 0xe001f),
   (0xe0080, 0xe00ff), (0xe01f0, 0xe0fff)]

/-- Code points with the property `Grapheme_Cluster_Break=Prepend`. -/
def precedingRanges : Ranges :=
  [(0x600, 0x605), (0x6dd, 0x6dd), (0x70f, 0x70f), (0x890, 0x891), (0x8e2, 0x8e2), (0xd4e, 0xd4e),
   (0x110bd, 0x110bd), (0x110cd, 0x110cd), (0x111c2, 0x111c3), (0x113d1, 0x113d1),
   (0x1193f, 0x1193f), (0x11941, 0x11941), (0x11a84, 0x11a89), (0x11d46, 0x11d46),
   (0x11f02, 0x11f02)]

/-- Code points that bind to the character before them without being marks: two voicing signs,
the shades of skin and the tags of a flag. -/
def modifierRanges : Ranges := [(0xff9e, 0xff9f), (0x1f3fb, 0x1f3ff), (0xe0020, 0xe007f)]

/-- Code points with the property `Hangul_Syllable_Type=L`. -/
def leadingJamoRanges : Ranges := [(0x1100, 0x115f), (0xa960, 0xa97c)]

/-- Code points with the property `Grapheme_Cluster_Break=V`. -/
def vowelJamoRanges : Ranges :=
  [(0x1160, 0x11a7), (0xd7b0, 0xd7c6), (0x16d63, 0x16d63), (0x16d67, 0x16d6a)]

/-- Code points with the property `Hangul_Syllable_Type=T`. -/
def trailingJamoRanges : Ranges := [(0x11a8, 0x11ff), (0xd7cb, 0xd7fb)]

/-- The syllables, ordered by their leading, vowel and trailing parts. -/
def syllableRanges : Ranges := [(0xac00, 0xd7a3)]

/-- Halves of flags. -/
def regionalRanges : Ranges := [(0x1f1e6, 0x1f1ff)]

/-- The role of a character. There are 28 trailing parts, counted with the lack of one, so the
open syllables come first of 28 each. -/
def Role.of (c : Char) : Role :=
  if c = '\r' then .carriageReturn
  else if c = '\n' then .lineFeed
  else if controlRanges.contains c then .control
  else if c = '\u200c' then .nonJoiner
  else if c = '\u200d' then .joiner
  else if isLinker c then .linker
  else if isCombining c || modifierRanges.contains c then .extending
  else if isSpacing c then .spacing
  else if precedingRanges.contains c then .preceding
  else if regionalRanges.contains c then .regional
  else if leadingJamoRanges.contains c then .leadingJamo
  else if vowelJamoRanges.contains c then .vowelJamo
  else if trailingJamoRanges.contains c then .trailingJamo
  else if syllableRanges.contains c then
    if (c.toNat - 0xac00) % 28 = 0 then .openSyllable else .closedSyllable
  else if isConsonant c then .consonant
  else if isPictograph c then .pictograph
  else .other

/-- Whether the role binds a character to the one before it without room of its own. -/
def Role.isExtending : Role → Bool
  | .extending | .nonJoiner | .linker => true
  | _ => false

/-- Whether the role keeps a conjunct open. -/
def Role.keepsConjunct : Role → Bool
  | .extending | .joiner | .linker => true
  | _ => false

end LetLang.Text
