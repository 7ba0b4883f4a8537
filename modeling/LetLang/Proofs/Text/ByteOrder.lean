import Mathlib

/-!
# The order of texts

Texts are ordered by their characters, and so are their bytes in UTF-8 (`bytes_lt_of_lt`). The first
byte of a character is the greater the more bytes follow it, and two characters with the same number
of bytes are compared digit by digit: the bytes hold their code points in base sixty-four.
-/

set_option autoImplicit false

namespace LetLang.Text

/-- The bytes of a text in UTF-8. -/
def bytes (s : String) : List UInt8 := s.toByteArray.data.toList

theorem bytes_eq (s : String) : bytes s = s.toList.flatMap String.utf8EncodeChar := by
  rw [bytes, ← String.ofList_toList (s := s), String.toByteArray_ofList, List.utf8Encode,
    String.toList_ofList, List.data_toByteArray]

theorem cons_ofNat_lt_iff {a b : Nat} {bs cs : List UInt8} (ha : a < 256) (hb : b < 256) :
    UInt8.ofNat a :: bs < UInt8.ofNat b :: cs ↔ a < b ∨ a = b ∧ bs < cs := by
  rw [List.cons_lt_cons_iff, UInt8.lt_iff_toNat_lt, ← UInt8.toNat_inj,
    UInt8.toNat_ofNat_of_lt' ha, UInt8.toNat_ofNat_of_lt' hb]

/-! ## Digits of code points -/

/-- The last `k` digits of a number in base sixty-four, as the bytes behind the first one of a
character. -/
def trailingBytes : Nat → Nat → List UInt8
  | 0, _ => []
  | k + 1, n => trailingBytes k (n / 64) ++ [UInt8.ofNat (n % 64 + 128)]

/-- Of two numbers that agree before their last digits, the greater one has the greater last
digits, whatever follows them. -/
theorem trailingBytes_append_lt {k m n : Nat} (hlt : m < n) (heq : m / 64 ^ k = n / 64 ^ k)
    (rest rest' : List UInt8) : trailingBytes k m ++ rest < trailingBytes k n ++ rest' := by
  induction k generalizing m n rest rest' with
  | zero =>
    rw [Nat.pow_zero, Nat.div_one, Nat.div_one] at heq
    exact absurd heq (Nat.ne_of_lt hlt)
  | succ k ih =>
    rw [trailingBytes, trailingBytes, List.append_assoc, List.append_assoc]
    rcases Nat.lt_or_eq_of_le (Nat.div_le_div_right (Nat.le_of_lt hlt)) with hdiv | hdiv
    · rw [Nat.pow_succ', ← Nat.div_div_eq_div_mul, ← Nat.div_div_eq_div_mul] at heq
      exact ih hdiv heq _ _
    · -- Only the last digits differ.
      have hlast : m % 64 < n % 64 := by omega
      rw [hdiv]
      refine List.append_left_lt ((cons_ofNat_lt_iff (by omega) (by omega)).2 (.inl ?_))
      exact Nat.add_lt_add_right hlast 128

/-- What the first byte of a character has besides digits, if `k` bytes follow it. -/
def leadMark : Nat → Nat
  | 0 => 0
  | 1 => 0xc0
  | 2 => 0xe0
  | 3 => 0xf0
  | _ => 0xf8

/-- The least code point of a character with `k` bytes behind the first one. -/
def leastPoint : Nat → Nat
  | 0 => 0
  | 1 => 0x80
  | 2 => 0x800
  | 3 => 0x10000
  | _ => 0x110000

theorem leadMark_le : ∀ l ≤ 4, ∀ k ≤ l, leadMark k ≤ leadMark l := by decide

theorem leastPoint_le : ∀ l ≤ 3, ∀ k ≤ l, leastPoint k ≤ leastPoint l := by decide

/-- The digits in the first byte do not reach the mark of longer characters. -/
theorem lead_lt {k n : Nat} (hk : k ≤ 3) (hn : n < leastPoint (k + 1)) :
    n / 64 ^ k + leadMark k < leadMark (k + 1) := by
  interval_cases k <;> simp only [leastPoint, leadMark] at hn ⊢ <;> omega

/-- The bytes of a character. -/
theorem utf8EncodeChar_eq (c : Char) : ∃ k ≤ 3, leastPoint k ≤ c.toNat ∧
    c.toNat < leastPoint (k + 1) ∧ String.utf8EncodeChar c =
      UInt8.ofNat (c.toNat / 64 ^ k + leadMark k) :: trailingBytes k c.toNat := by
  have hmax : c.toNat < 0x110000 := by
    rcases c.valid with h | ⟨-, h⟩
    · exact Nat.lt_trans h (by decide)
    · exact h
  have hcode : c.val.toNat = c.toNat := rfl
  unfold String.utf8EncodeChar
  rw [hcode]
  generalize c.toNat = n at hmax ⊢
  have hdiv : ∀ a b, n / (a * b) = n / a / b := fun a b => (Nat.div_div_eq_div_mul n a b).symm
  dsimp only
  -- One case for each number of bytes. The encoder reduces the digit in the first byte too, which
  -- is small enough as it is.
  split
  · next h1 =>
    refine ⟨0, by decide, Nat.zero_le n, Nat.lt_succ_of_le h1, ?_⟩
    rw [Nat.pow_zero, Nat.div_one]
    rfl
  · split
    · next h1 h2 =>
      refine ⟨1, by decide, Nat.lt_of_not_le h1, Nat.lt_succ_of_le h2, ?_⟩
      rw [Nat.mod_eq_of_lt (show n / 64 < 32 by omega)]
      rfl
    · split
      · next h1 h2 h3 =>
        refine ⟨2, by decide, Nat.lt_of_not_le h2, Nat.lt_succ_of_le h3, ?_⟩
        rw [Nat.mod_eq_of_lt (show n / 4096 < 16 by omega)]
        rfl
      · next h1 h2 h3 =>
        refine ⟨3, by decide, Nat.lt_of_not_le h3, hmax, ?_⟩
        rw [Nat.mod_eq_of_lt (show n / 262144 < 8 by omega), hdiv 64 64]
        rfl

/-- Of two characters the greater one has the greater bytes, whatever follows them. -/
theorem utf8EncodeChar_append_lt {c d : Char} (h : c < d) (rest rest' : List UInt8) :
    String.utf8EncodeChar c ++ rest < String.utf8EncodeChar d ++ rest' := by
  obtain ⟨k, hk, hlow, hhigh, hc⟩ := utf8EncodeChar_eq c
  obtain ⟨l, hl, hlow', hhigh', hd⟩ := utf8EncodeChar_eq d
  have hlt : c.toNat < d.toNat := h
  have hlead := lead_lt hk hhigh
  have hlead' := lead_lt hl hhigh'
  have hmark := leadMark_le 4 (Nat.le_refl 4) (k + 1) (Nat.succ_le_succ hk)
  have hmark' := leadMark_le 4 (Nat.le_refl 4) (l + 1) (Nat.succ_le_succ hl)
  have hbyte : leadMark 4 < 256 := by decide
  -- All characters with fewer bytes come before those with more.
  have hkl : k ≤ l := by
    by_contra hlk
    have hle := leastPoint_le k hk (l + 1) (Nat.lt_of_not_le hlk)
    omega
  rw [hc, hd, List.cons_append, List.cons_append, cons_ofNat_lt_iff (by omega) (by omega)]
  rcases Nat.lt_or_eq_of_le hkl with hkl | rfl
  · left
    calc c.toNat / 64 ^ k + leadMark k < leadMark (k + 1) := hlead
      _ ≤ leadMark l := leadMark_le l (by omega) (k + 1) hkl
      _ ≤ d.toNat / 64 ^ l + leadMark l := Nat.le_add_left _ _
  · have hle : c.toNat / 64 ^ k ≤ d.toNat / 64 ^ k := Nat.div_le_div_right (Nat.le_of_lt hlt)
    rcases Nat.lt_or_eq_of_le hle with hdiv | hdiv
    · exact .inl (Nat.add_lt_add_right hdiv _)
    · exact .inr ⟨by rw [hdiv], trailingBytes_append_lt hlt hdiv rest rest'⟩

/-! ## Texts -/

/-- Of two texts the greater one has the greater bytes. -/
theorem bytes_lt_of_lt {s t : String} (h : s < t) : bytes s < bytes t := by
  have hlist : ∀ cs ds : List Char, cs < ds →
      cs.flatMap String.utf8EncodeChar < ds.flatMap String.utf8EncodeChar := by
    intro cs ds hlt
    induction hlt with
    | @nil d ds =>
      obtain ⟨k, -, -, -, hd⟩ := utf8EncodeChar_eq d
      rw [List.flatMap_nil, List.flatMap_cons, hd]
      exact .nil
    | rel hcd =>
      rw [List.flatMap_cons, List.flatMap_cons]
      exact utf8EncodeChar_append_lt hcd _ _
    | cons _ ih =>
      rw [List.flatMap_cons, List.flatMap_cons]
      exact List.append_left_lt ih
  rw [bytes_eq, bytes_eq]
  exact hlist _ _ (String.lt_iff_toList_lt.1 h)

end LetLang.Text
