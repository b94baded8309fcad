import DumpVault.Proofs.Segments

/-!
# Keys in the order of their bytes

Texts are compared character by character, keys are to be compared byte by byte. Of two characters
the greater one is written with more bytes or with a greater byte where they first differ, so both
orders are the same.
-/
namespace DumpVault

theorem utf8EncodeChar_ne_nil (c : Char) : String.utf8EncodeChar c ≠ [] := by
  fun_cases String.utf8EncodeChar c <;> exact List.cons_ne_nil _ _

/-- Numbers are compared by their digits to the base 64, the last three of them apart. -/
theorem sextets_lt {m n : Nat} (h : m < n) : m / 262144 < n / 262144 ∨
    m / 262144 = n / 262144 ∧ (m / 4096 % 64 < n / 4096 % 64 ∨
      m / 4096 % 64 = n / 4096 % 64 ∧ (m / 64 % 64 < n / 64 % 64 ∨
        m / 64 % 64 = n / 64 % 64 ∧ m % 64 < n % 64)) := by
  have hdigits : ∀ k : Nat,
      k = 262144 * (k / 262144) + 4096 * (k / 4096 % 64) + 64 * (k / 64 % 64) + k % 64 := by
    omega
  have hm := hdigits m
  have hn := hdigits n
  omega

/-- What is written behind two different characters does not decide their order. -/
theorem utf8EncodeChar_append_lt {c d : Char} (h : c < d) (us vs : List UInt8) :
    String.utf8EncodeChar c ++ us < String.utf8EncodeChar d ++ vs := by
  have hlt : c.val.toNat < d.val.toNat := h
  have hsize : c.val.toNat < 1114112 := by
    rcases c.valid with hlow | ⟨_, hhigh⟩
    · exact Nat.lt_trans hlow (by decide)
    · exact hhigh
  have hsize' : d.val.toNat < 1114112 := by
    rcases d.valid with hlow | ⟨_, hhigh⟩
    · exact Nat.lt_trans hlow (by decide)
    · exact hhigh
  have hdigits := sextets_lt hlt
  -- one case for each pair of lengths; the first bytes of different lengths differ
  fun_cases String.utf8EncodeChar c <;> fun_cases String.utf8EncodeChar d
  all_goals
    simp +zetaDelta only [List.cons_append, List.nil_append, List.cons_lt_cons_iff,
      UInt8.lt_iff_toNat_lt, ← UInt8.toNat_inj, UInt8.toNat_ofNat']
  case case1.case1 | case2.case2 | case3.case3 | case4.case4 =>
    simp (disch := omega) only [Nat.mod_eq_of_lt]
    by_cases hrest : us < vs <;> simp only [hrest, and_true, and_false, or_false] <;> omega
  all_goals exact Or.inl (by omega)

def Key.bytes (k : Key) : List UInt8 := k.text.toUTF8.toList

theorem flatMap_utf8EncodeChar_lt {cs ds : List Char} (h : cs < ds) :
    cs.flatMap String.utf8EncodeChar < ds.flatMap String.utf8EncodeChar := by
  induction cs generalizing ds with
  | nil =>
    cases ds with
    | nil => exact absurd h (List.lt_irrefl _)
    | cons d ds =>
      rw [List.flatMap_nil, List.flatMap_cons]
      cases hd : String.utf8EncodeChar d with
      | nil => exact absurd hd (utf8EncodeChar_ne_nil d)
      | cons b rest => exact List.nil_lt_cons _ _
  | cons c cs ih =>
    cases ds with
    | nil => exact absurd h (List.not_lt_nil _)
    | cons d ds =>
      rw [List.flatMap_cons, List.flatMap_cons]
      rcases List.cons_lt_cons_iff.mp h with hlt | ⟨rfl, hlt⟩
      · exact utf8EncodeChar_append_lt hlt _ _
      · exact List.append_left_lt (ih hlt)

/-- The order of texts is the order of their bytes. -/
theorem Key.bytes_lt_iff {a b : Key} : a.bytes < b.bytes ↔ a.text < b.text := by
  have hmono : ∀ {a b : Key}, a.text < b.text → a.bytes < b.bytes := by
    intro a b h
    rw [bytes, bytes, toUTF8_toList, toUTF8_toList]
    exact flatMap_utf8EncodeChar_lt h
  refine ⟨fun h => String.not_le.mp fun hle => ?_, hmono⟩
  by_cases heq : a.text = b.text
  · rw [bytes, bytes, heq] at h
    exact List.lt_irrefl _ h
  · have hlt : b.text < a.text := String.not_le.mp fun hge => heq (String.le_antisymm hge hle)
    exact List.lt_asymm h (hmono hlt)

end DumpVault
