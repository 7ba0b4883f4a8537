import LetLang.Proofs.Text.Decoding
import LetLang.Run.Basic

/-!
# The listing of tokens

A row shows all of its token: the place and the kind stand in columns, where the first space ends
the entry however wide it is, and the text is quoted (`Token.row_injective`). No row holds a line
break, so the rows are the lines of the listing, and two sources have one listing exactly if they
have the same tokens at the same places (`listing_determines_tokens`).
-/

set_option autoImplicit false

namespace LetLang

/-! ## Entries of a row -/

theorem TokenKind.name_injective {kind kind' : TokenKind} (h : kind.name = kind'.name) :
    kind = kind' := by
  have hfound := ofName?_name kind
  rw [h, ofName?_name] at hfound
  exact (Option.some.inj hfound).symm

theorem TokenKind.isEntry_name (kind : TokenKind) : Text.IsEntry kind.name.toList := by
  have htable : ∀ kind ∈ all, kind.name.toList ≠ [] ∧ ' ' ∉ kind.name.toList ∧
      '\n' ∉ kind.name.toList := by
    decide
  obtain ⟨hne, hblank, hnewline⟩ := htable kind kind.mem_all
  exact ⟨hne, hblank, hnewline⟩

theorem isEntry_toString (n : Nat) : Text.IsEntry (toString n).toList := by
  rw [Nat.toString_eq_repr, Nat.toList_repr]
  obtain ⟨hne, hdigit⟩ := digits_toDigits n
  exact ⟨hne, fun hblank => absurd (hdigit ' ' hblank) (by decide),
    fun hnewline => absurd (hdigit '\n' hnewline) (by decide)⟩

namespace Token

/-- The place and the kind stand behind spaces and before one, and the quoted text stands last. -/
theorem toList_row (t : Token) : t.row.toList =
    List.replicate (5 - (toString t.start).length) ' ' ++ ((toString t.start).toList ++
      ' ' :: (List.replicate 1 ' ' ++ (t.kind.name.toList ++
        ' ' :: (List.replicate (12 - t.kind.name.length) ' ' ++
          (Text.quoted t.text).toList)))) := by
  -- The space behind the column of the kind is the first of all behind the kind.
  have hspace : ∀ (n : Nat) (cs : List Char),
      List.replicate n ' ' ++ ' ' :: cs = ' ' :: (List.replicate n ' ' ++ cs) := by
    intro n cs
    rw [← List.singleton_append, ← List.append_assoc, ← List.replicate_succ', List.replicate_succ,
      List.cons_append]
  have hone : " ".toList = [' '] := by decide
  have htwo : "  ".toList = [' ', ' '] := by decide
  simp only [row, String.toList_append, Text.toList_padLeft, Text.toList_padRight, hone, htwo,
    List.append_assoc, List.cons_append, List.nil_append, hspace, List.replicate_one]

/-- A row shows all of its token. -/
theorem row_injective {t u : Token} (h : t.row = u.row) : t = u := by
  have hrow := congrArg String.toList h
  rw [toList_row, toList_row] at hrow
  obtain ⟨hstart, hrow⟩ := (isEntry_toString t.start).append_injective (isEntry_toString _) hrow
  obtain ⟨hkind, hrow⟩ := t.kind.isEntry_name.append_injective u.kind.isEntry_name hrow
  replace hstart : t.start = u.start := Nat.repr_injective (String.toList_inj.1 hstart)
  replace hkind : t.kind = u.kind := TokenKind.name_injective (String.toList_inj.1 hkind)
  rw [hkind] at hrow
  have htext : t.text = u.text :=
    Text.quoted_injective (String.toList_inj.1 (List.append_cancel_left hrow))
  cases t
  cases u
  rw [Token.mk.injEq]
  exact ⟨hkind, htext, hstart⟩

theorem newline_not_mem_row (t : Token) : '\n' ∉ t.row.toList := by
  have hspaces : ∀ n, '\n' ∉ List.replicate n ' ' :=
    fun n hnewline => absurd (List.eq_of_mem_replicate hnewline) (by decide)
  have hspace : '\n' ≠ ' ' := by decide
  rw [toList_row]
  simp only [List.mem_append, List.mem_cons, not_or]
  exact ⟨hspaces _, (isEntry_toString t.start).newline_not_mem, hspace, hspaces _,
    t.kind.isEntry_name.newline_not_mem, hspace, hspaces _, Text.newline_not_mem_quoted t.text⟩

theorem row_ne_empty (t : Token) : t.row ≠ "" := by
  intro hempty
  have hrow := t.toList_row
  rw [hempty] at hrow
  simp at hrow

/-- The rows are the lines of a listing. -/
theorem lines_rows (tokens : List Token) : Text.lines (rows tokens) = tokens.map row := by
  refine Text.lines_intercalate fun text htext => ?_
  obtain ⟨t, -, rfl⟩ := List.mem_map.1 htext
  exact ⟨t.row_ne_empty, t.newline_not_mem_row⟩

/-- A listing shows all of its tokens. -/
theorem rows_injective {tokens tokens' : List Token} (h : rows tokens = rows tokens') :
    tokens = tokens' := by
  have hlines := congrArg Text.lines h
  rw [lines_rows, lines_rows] at hlines
  exact List.map_injective_iff.2 (fun _ _ => row_injective) hlines

end Token

/-- The listing of a source has one line for each token and is empty if there is none. Two sources
have one listing exactly if they have the same tokens: of the same kinds, with the same texts and at
the same places. -/
theorem listing_determines_tokens (source : String) :
    Text.lines (tokenListing source) = (scan source).map Token.row ∧
    (tokenListing source = "" ↔ scan source = []) ∧
    ∀ other : String, tokenListing source = tokenListing other ↔ scan source = scan other := by
  have hrows : ∀ tokens, tokenListing source = Token.rows tokens ↔ scan source = tokens :=
    fun _ => ⟨Token.rows_injective, congrArg Token.rows⟩
  exact ⟨Token.lines_rows (scan source), hrows [], fun other => hrows (scan other)⟩

/-- The text of the row is a quote, and the place is wider than its column. -/
example : (Token.mk .illegal "\"" 123456).row = "123456  illegal      \"\\\"\"" := by cbv

end LetLang
