import LetLang.Proofs.Scan.Words
import LetLang.Text.Pad
import LetLang.Text.Quoted

/-!
# Texts that are read back

A text that is put together from parts can be taken apart again if the end of each part is seen. A
run of characters ends before the first one that does not belong to it (`append_injective_of_head`),
which settles hexadecimal numbers and columns. A quoted text ends at the first quote that is not
escaped, and the escapes tell which characters they stand for (`quoted_append_injective`). Lines
end at line breaks (`lines_intercalate`), of which a quoted text has none.
-/

set_option autoImplicit false

namespace LetLang.Text

/-- Two runs of chosen characters, each before a character that is not chosen or at the end of the
text, are one run. -/
theorem append_injective_of_head {chosen : Char → Bool} {cs ds rest rest' : List Char}
    (hcs : ∀ c ∈ cs, chosen c = true) (hds : ∀ c ∈ ds, chosen c = true)
    (hrest : ∀ c ∈ rest.head?, chosen c = false) (hrest' : ∀ c ∈ rest'.head?, chosen c = false)
    (h : cs ++ rest = ds ++ rest') : cs = ds ∧ rest = rest' := by
  obtain ⟨htake, hdrop⟩ := takeWhile_append_of_head hcs hrest
  obtain ⟨htake', hdrop'⟩ := takeWhile_append_of_head hds hrest'
  rw [h] at htake hdrop
  exact ⟨htake.symm.trans htake', hdrop.symm.trans hdrop'⟩

/-! ## Hexadecimal numbers -/

/-- The digits of numbers in base sixteen. -/
def hexDigits : List Char :=
  ['0', '1', '2', '3', '4', '5', '6', '7', '8', '9', 'a', 'b', 'c', 'd', 'e', 'f']

theorem digitChar_mem_hexDigits {n : Nat} (hn : n < 16) : n.digitChar ∈ hexDigits := by
  have htable : ∀ n < 16, Nat.digitChar n ∈ hexDigits := by decide
  exact htable n hn

theorem digitChar_injective {m n : Nat} (hm : m < 16) (hn : n < 16)
    (h : m.digitChar = n.digitChar) : m = n := by
  have htable : ∀ m < 16, ∀ n < 16, Nat.digitChar m = Nat.digitChar n → m = n := by decide
  exact htable m hm n hn h

/-- A number of one digit is that digit; the digits of a greater one start with those of its
sixteenth part. -/
theorem toDigits_eq (n : Nat) : Nat.toDigits 16 n =
    if n < 16 then [n.digitChar] else Nat.toDigits 16 (n / 16) ++ [(n % 16).digitChar] :=
  Nat.toDigits_eq_if (by decide)

theorem mem_hexDigits_of_mem_toDigits {n : Nat} {c : Char} (hc : c ∈ Nat.toDigits 16 n) :
    c ∈ hexDigits := by
  induction n using Nat.strongRecOn with
  | ind n ih =>
    rw [toDigits_eq] at hc
    split at hc
    · next hlt =>
      rw [List.mem_singleton.1 hc]
      exact digitChar_mem_hexDigits hlt
    · next hge =>
      rcases List.mem_append.1 hc with hc | hc
      · exact ih (n / 16) (by omega) hc
      · rw [List.mem_singleton.1 hc]
        exact digitChar_mem_hexDigits (Nat.mod_lt n (by decide))

theorem toDigits_append_ne (n : Nat) (c d : Char) : Nat.toDigits 16 n ++ [c] ≠ [d] := by
  intro h
  obtain ⟨hnil, -⟩ := List.append_inj' (h.trans (List.nil_append [d]).symm) rfl
  exact Nat.toDigits_ne_nil hnil

theorem toDigits_injective {m n : Nat} (h : Nat.toDigits 16 m = Nat.toDigits 16 n) : m = n := by
  induction m using Nat.strongRecOn generalizing n with
  | ind m ih =>
    rw [toDigits_eq m, toDigits_eq n] at h
    by_cases hm : m < 16 <;> by_cases hn : n < 16
    · rw [if_pos hm, if_pos hn] at h
      exact digitChar_injective hm hn (List.cons.inj h).1
    · rw [if_pos hm, if_neg hn] at h
      exact absurd h.symm (toDigits_append_ne _ _ _)
    · rw [if_neg hm, if_pos hn] at h
      exact absurd h (toDigits_append_ne _ _ _)
    · rw [if_neg hm, if_neg hn] at h
      obtain ⟨hinit, hlast⟩ := List.append_inj' h rfl
      have hdiv : m / 16 = n / 16 := ih (m / 16) (by omega) hinit
      have hmod : m % 16 = n % 16 := digitChar_injective (Nat.mod_lt m (by decide))
        (Nat.mod_lt n (by decide)) (List.cons.inj hlast).1
      omega

/-- A number before a brace is told apart from what follows. -/
theorem toDigits_append_injective {m n : Nat} {rest rest' : List Char}
    (h : Nat.toDigits 16 m ++ '\x7d' :: rest = Nat.toDigits 16 n ++ '\x7d' :: rest') :
    m = n ∧ rest = rest' := by
  have hdigit : ∀ k, ∀ c ∈ Nat.toDigits 16 k, (c != '\x7d') = true := by
    intro k c hc
    have hnone : '\x7d' ∉ hexDigits := by decide
    rw [bne_iff_ne]
    rintro rfl
    exact hnone (mem_hexDigits_of_mem_toDigits hc)
  have hbrace : ∀ (cs : List Char), ∀ c ∈ ('\x7d' :: cs).head?, (c != '\x7d') = false := by
    rintro cs c ⟨⟩
    rfl
  obtain ⟨hdigits, hrest⟩ :=
    append_injective_of_head (hdigit m) (hdigit n) (hbrace rest) (hbrace rest') h
  exact ⟨toDigits_injective hdigits, (List.cons.inj hrest).2⟩

/-! ## Escapes -/

/-- The characters that have an escape of their own, each with the character behind the
backslash. -/
def marks : List (Char × Char) :=
  [('\x00', '0'), ('\t', 't'), ('\r', 'r'), ('\n', 'n'), ('"', '"'), ('\\', '\\')]

theorem marks_functional {c d m : Char} (hc : (c, m) ∈ marks) (hd : (d, m) ∈ marks) : c = d := by
  have htable : ∀ p ∈ marks, ∀ q ∈ marks, p.2 = q.2 → p.1 = q.1 := by decide
  exact htable _ hc _ hd rfl

/-- A character stands for itself, has a mark, or is named by its code point. -/
theorem escape_cases (c : Char) :
    (c ∉ marks.map Prod.fst ∧ escape c = [c]) ∨
      (∃ m, (c, m) ∈ marks ∧ escape c = ['\\', m]) ∨
      escape c = '\\' :: 'u' :: '\x7b' :: (Nat.toDigits 16 c.toNat ++ ['\x7d']) := by
  unfold escape
  split
  case h_7 hnul htab hreturn hnewline hquote hbackslash =>
    split
    · exact .inr (.inr rfl)
    · refine .inl ⟨?_, rfl⟩
      simp only [marks, List.map_cons, List.map_nil, List.mem_cons, List.not_mem_nil, or_false,
        not_or]
      exact ⟨hnul, htab, hreturn, hnewline, hquote, hbackslash⟩
  all_goals exact .inr (.inl ⟨_, by decide, rfl⟩)

/-- What is written for a character is told apart from what follows, and determines the
character. -/
theorem escape_append_injective {c d : Char} {rest rest' : List Char}
    (h : escape c ++ rest = escape d ++ rest') : c = d ∧ rest = rest' := by
  have hbackslash : ∀ b, b ∉ marks.map Prod.fst → b ≠ '\\' := by
    rintro b hb rfl
    exact hb (by decide)
  have hcode : ∀ b, (b, 'u') ∉ marks := by
    intro b hb
    have htable : ∀ p ∈ marks, p.2 ≠ 'u' := by decide
    exact htable _ hb rfl
  -- Two forms of one sort are compared in full; two of different sorts differ at their first
  -- character, or behind the backslash.
  rcases escape_cases c with ⟨hc, hcs⟩ | ⟨m, hc, hcs⟩ | hcs <;>
    rcases escape_cases d with ⟨hd, hds⟩ | ⟨n, hd, hds⟩ | hds <;>
    rw [hcs, hds] at h
  · exact List.cons.inj h
  · exact absurd (List.cons.inj h).1 (hbackslash c hc)
  · exact absurd (List.cons.inj h).1 (hbackslash c hc)
  · exact absurd (List.cons.inj h).1.symm (hbackslash d hd)
  · obtain ⟨-, h⟩ := List.cons.inj h
    obtain ⟨rfl, hrest⟩ := List.cons.inj h
    exact ⟨marks_functional hc hd, hrest⟩
  · obtain ⟨-, h⟩ := List.cons.inj h
    obtain ⟨rfl, -⟩ := List.cons.inj h
    exact absurd hc (hcode c)
  · exact absurd (List.cons.inj h).1.symm (hbackslash d hd)
  · obtain ⟨-, h⟩ := List.cons.inj h
    obtain ⟨rfl, -⟩ := List.cons.inj h
    exact absurd hd (hcode d)
  · simp only [List.cons_append, List.append_assoc, List.cons.injEq, true_and,
      List.nil_append] at h
    obtain ⟨hnumber, hrest⟩ := toDigits_append_injective h
    exact ⟨Char.toNat_inj.1 hnumber, hrest⟩

/-- No escape starts with a quote. -/
theorem head?_escape_ne (c : Char) (rest : List Char) : (escape c ++ rest).head? ≠ some '"' := by
  rcases escape_cases c with ⟨hc, heq⟩ | ⟨m, -, heq⟩ | heq <;> rw [heq]
  · intro hquote
    obtain rfl : c = '"' := Option.some.inj hquote
    exact hc (by decide)
  · exact fun hquote => absurd (Option.some.inj hquote) (by decide)
  · exact fun hquote => absurd (Option.some.inj hquote) (by decide)

theorem newline_not_mem_escape (c : Char) : '\n' ∉ escape c := by
  rcases escape_cases c with ⟨hc, heq⟩ | ⟨m, hm, heq⟩ | heq <;> rw [heq]
  · intro hnewline
    rw [← List.mem_singleton.1 hnewline] at hc
    exact hc (by decide)
  · have htable : ∀ p ∈ marks, '\n' ∉ ['\\', p.2] := by decide
    exact htable (c, m) hm
  · have hdigits : '\n' ∉ Nat.toDigits 16 c.toNat :=
      fun hnewline => absurd (mem_hexDigits_of_mem_toDigits hnewline) (by decide)
    simp [hdigits]

/-! ## Quoted texts -/

theorem toList_quoted (s : String) :
    (quoted s).toList = '"' :: (s.toList.flatMap escape ++ ['"']) := by
  rw [quoted, String.toList_ofList, List.cons_append]

/-- The quote that ends a quoted text is the first one that is not escaped. -/
theorem escaped_append_injective {cs ds rest rest' : List Char}
    (h : cs.flatMap escape ++ '"' :: rest = ds.flatMap escape ++ '"' :: rest') :
    cs = ds ∧ rest = rest' := by
  induction cs generalizing ds with
  | nil =>
    cases ds with
    | nil => exact ⟨rfl, (List.cons.inj h).2⟩
    | cons d ds =>
      rw [List.flatMap_cons, List.append_assoc] at h
      exact absurd (congrArg List.head? h).symm (head?_escape_ne d _)
  | cons c cs ih =>
    cases ds with
    | nil =>
      rw [List.flatMap_cons, List.append_assoc] at h
      exact absurd (congrArg List.head? h) (head?_escape_ne c _)
    | cons d ds =>
      rw [List.flatMap_cons, List.flatMap_cons, List.append_assoc, List.append_assoc] at h
      obtain ⟨rfl, htail⟩ := escape_append_injective h
      obtain ⟨rfl, hrest⟩ := ih htail
      exact ⟨rfl, hrest⟩

/-- A quoted text is told apart from what follows, and determines the text. -/
theorem quoted_append_injective {s t : String} {rest rest' : List Char}
    (h : (quoted s).toList ++ rest = (quoted t).toList ++ rest') : s = t ∧ rest = rest' := by
  rw [toList_quoted, toList_quoted, List.cons_append, List.cons_append, List.append_assoc,
    List.append_assoc] at h
  obtain ⟨htext, hrest⟩ := escaped_append_injective (List.cons.inj h).2
  exact ⟨String.toList_inj.1 htext, hrest⟩

theorem quoted_injective {s t : String} (h : quoted s = quoted t) : s = t := by
  have hlist : (quoted s).toList ++ [] = (quoted t).toList ++ [] := by rw [h]
  exact (quoted_append_injective hlist).1

theorem newline_not_mem_quoted (s : String) : '\n' ∉ (quoted s).toList := by
  have hbody : '\n' ∉ s.toList.flatMap escape := by
    intro hnewline
    obtain ⟨c, -, hc⟩ := List.mem_flatMap.1 hnewline
    exact newline_not_mem_escape c hc
  rw [toList_quoted]
  simp [hbody]

/-! ## Columns -/

theorem toList_padLeft (width : Nat) (s : String) :
    (padLeft ' ' width s).toList = List.replicate (width - s.length) ' ' ++ s.toList := by
  rw [padLeft, fill, String.toList_append, String.toList_ofList]

theorem toList_padRight (width : Nat) (s : String) :
    (padRight ' ' width s).toList = s.toList ++ List.replicate (width - s.length) ' ' := by
  rw [padRight, fill, String.toList_append, String.toList_ofList]

/-- What may stand in a column: one or more characters, none of them a space or a line break. -/
structure IsEntry (cs : List Char) : Prop where
  ne_nil : cs ≠ []
  blank_not_mem : ' ' ∉ cs
  newline_not_mem : '\n' ∉ cs

namespace IsEntry

variable {cs ds : List Char}

theorem solid (h : IsEntry cs) : ∀ c ∈ cs, (c != ' ') = true := by
  intro c hc
  rw [bne_iff_ne]
  rintro rfl
  exact h.blank_not_mem hc

theorem head (h : IsEntry cs) (rest : List Char) :
    ∀ c ∈ (cs ++ rest).head?, (c == ' ') = false := by
  intro c hc
  rw [List.head?_append_of_ne_nil cs h.ne_nil] at hc
  exact beq_eq_false_iff_ne.2 (bne_iff_ne.1 (h.solid c (List.mem_of_head? hc)))

/-- Between blanks, an entry is told apart from what stands before it and behind it. -/
theorem append_injective {m n : Nat} {rest rest' : List Char} (hcs : IsEntry cs) (hds : IsEntry ds)
    (h : List.replicate m ' ' ++ (cs ++ ' ' :: rest) =
      List.replicate n ' ' ++ (ds ++ ' ' :: rest')) : cs = ds ∧ rest = rest' := by
  have hblanks : ∀ k, ∀ c ∈ List.replicate k ' ', (c == ' ') = true := by
    intro k c hc
    rw [List.eq_of_mem_replicate hc]
    rfl
  have hend : ∀ es : List Char, ∀ c ∈ (' ' :: es).head?, (c != ' ') = false := by
    rintro es c ⟨⟩
    rfl
  obtain ⟨-, hentries⟩ :=
    append_injective_of_head (hblanks m) (hblanks n) (hcs.head _) (hds.head _) h
  obtain ⟨hentry, hrest⟩ :=
    append_injective_of_head hcs.solid hds.solid (hend rest) (hend rest') hentries
  exact ⟨hentry, (List.cons.inj hrest).2⟩

end IsEntry

/-! ## Lines -/

/-- The lines of a text, between which line breaks stand. The empty text has none. -/
def lines (text : String) : List String :=
  if text = "" then [] else (text.toList.splitOn '\n').map String.ofList

/-- Texts set one below the other are the lines of the whole, if none is empty or broken itself. -/
theorem lines_intercalate {rows : List String}
    (hrows : ∀ row ∈ rows, row ≠ "" ∧ '\n' ∉ row.toList) :
    lines ("\n".intercalate rows) = rows := by
  cases rows with
  | nil => rfl
  | cons row rows =>
    have hunbroken : ∀ l ∈ (row :: rows).map String.toList, '\n' ∉ l := by
      intro l hl
      obtain ⟨text, htext, rfl⟩ := List.mem_map.1 hl
      exact (hrows text htext).2
    have hsplit : ("\n".intercalate (row :: rows)).toList.splitOn '\n' =
        (row :: rows).map String.toList := by
      rw [String.toList_intercalate]
      exact List.splitOn_intercalate '\n' hunbroken (List.cons_ne_nil _ _)
    -- Were the whole empty, its only piece would be empty, and that is the first row.
    have hne : "\n".intercalate (row :: rows) ≠ "" := by
      intro hempty
      rw [hempty] at hsplit
      have hrow : [] = row.toList := (List.cons.inj hsplit).1
      exact (hrows row List.mem_cons_self).1 (String.toList_eq_nil_iff.1 hrow.symm)
    rw [lines, if_neg hne, hsplit, List.map_map]
    simp

end LetLang.Text
