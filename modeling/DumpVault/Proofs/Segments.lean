import DumpVault.Proofs.Places
import DumpVault.Store.Path

/-!
# Written segments

A segment is written byte by byte, but what is written can be told character by character: a plain
character stands for itself and any other gives at least three characters, the first of them a
percent sign. So a segment is written as itself exactly when all its characters are plain, and what
has been written is a name that no staged file has. The bytes of a segment can be read back from
what is written, so different segments are written differently.
-/
namespace DumpVault

theorem toList_loop_eq (bytes : ByteArray) (i : Nat) (taken : List UInt8) :
    ByteArray.toList.loop bytes i taken = taken.reverse ++ bytes.data.toList.drop i := by
  fun_induction ByteArray.toList.loop bytes i taken with
  | case1 i taken hlt ih =>
    have hlen : i < bytes.data.toList.length := by simpa using hlt
    have hget : bytes.get! i = bytes.data.toList[i] := by
      change bytes.data[i]! = _
      rw [getElem!_pos bytes.data i hlt, Array.getElem_toList]
    rw [ih, List.drop_eq_getElem_cons hlen, hget, List.reverse_cons, List.append_assoc]
    rfl
  | case2 i taken hlt =>
    rw [List.drop_eq_nil_of_le (by simpa using hlt), List.append_nil]

theorem toList_eq_data_toList (bytes : ByteArray) : bytes.toList = bytes.data.toList := by
  rw [ByteArray.toList, toList_loop_eq]
  simp

theorem toUTF8_toList (s : String) :
    s.toUTF8.toList = s.toList.flatMap String.utf8EncodeChar := by
  rw [toList_eq_data_toList, String.toUTF8_eq_toByteArray, ← String.utf8Encode_toList,
    List.utf8Encode, List.toList_data_toByteArray]

namespace StorePath

def isPlainChar (c : Char) : Bool :=
  0x20 ≤ c.toNat && c.toNat < 0x7f && !reserved.contains c

def encodeChar (c : Char) : List Char := (String.utf8EncodeChar c).flatMap encodeByte

theorem utf8EncodeChar_of_ascii {c : Char} (h : c.toNat ≤ 0x7f) :
    String.utf8EncodeChar c = [UInt8.ofNat c.toNat] := by
  rw [String.utf8EncodeChar]
  exact if_pos h

theorem toNat_ofNat_of_ascii {c : Char} (h : c.toNat ≤ 0x7f) :
    (UInt8.ofNat c.toNat).toNat = c.toNat := by
  rw [UInt8.toNat_ofNat', Nat.mod_eq_of_lt (by omega)]

/-- The first byte of a character beyond ASCII is none that stands for itself. -/
theorem utf8EncodeChar_of_not_ascii {c : Char} (h : 0x7f < c.toNat) :
    ∃ b rest, String.utf8EncodeChar c = b :: rest ∧ 0x7f < b.toNat := by
  have hv : ¬ c.val.toNat ≤ 0x7f := Nat.not_le.mpr h
  fun_cases String.utf8EncodeChar c with
  | case1 _ hle => exact absurd hle hv
  | case2 => exact ⟨_, _, rfl, by rw [UInt8.toNat_ofNat']; omega⟩
  | case3 => exact ⟨_, _, rfl, by rw [UInt8.toNat_ofNat']; omega⟩
  | case4 => exact ⟨_, _, rfl, by rw [UInt8.toNat_ofNat']; omega⟩

theorem encodeByte_of_not_plain {b : UInt8} (h : isPlain b = false) :
    encodeByte b = ['%', hexDigit (b.toNat / 16), hexDigit (b.toNat % 16)] := by
  rw [encodeByte, h]
  rfl

theorem isPlain_ofNat {c : Char} (h : c.toNat ≤ 0x7f) :
    isPlain (UInt8.ofNat c.toNat) = isPlainChar c := by
  have hn := toNat_ofNat_of_ascii h
  have hlow : (0x20 ≤ UInt8.ofNat c.toNat) ↔ 0x20 ≤ c.toNat := by
    rw [UInt8.le_iff_toNat_le, hn]
    rfl
  have hhigh : (UInt8.ofNat c.toNat < 0x7f) ↔ c.toNat < 0x7f := by
    rw [UInt8.lt_iff_toNat_lt, hn]
    rfl
  simp only [isPlain, isPlainChar, hlow, hhigh, hn, Char.ofNat_toNat]

theorem encodeChar_of_plain {c : Char} (h : isPlainChar c = true) : encodeChar c = [c] := by
  have hascii : c.toNat ≤ 0x7f := by
    simp only [isPlainChar, Bool.and_eq_true, decide_eq_true_eq] at h
    omega
  have hplain : isPlain (UInt8.ofNat c.toNat) = true := by rw [isPlain_ofNat hascii, h]
  rw [encodeChar, utf8EncodeChar_of_ascii hascii, List.flatMap_singleton, encodeByte, hplain,
    toNat_ofNat_of_ascii hascii, Char.ofNat_toNat]
  rfl

theorem encodeChar_of_not_plain {c : Char} (h : isPlainChar c = false) :
    ∃ a b rest, encodeChar c = '%' :: a :: b :: rest := by
  have hfirst : ∃ b rest, String.utf8EncodeChar c = b :: rest ∧ isPlain b = false := by
    by_cases hascii : c.toNat ≤ 0x7f
    · exact ⟨_, _, utf8EncodeChar_of_ascii hascii, by rw [isPlain_ofNat hascii, h]⟩
    · obtain ⟨b, rest, hbytes, hhigh⟩ := utf8EncodeChar_of_not_ascii (Nat.not_le.mp hascii)
      refine ⟨b, rest, hbytes, ?_⟩
      have hnot : ¬ b < 0x7f := by
        rw [UInt8.lt_iff_toNat_lt]
        exact Nat.not_lt.mpr (Nat.le_of_lt hhigh)
      simp [isPlain, hnot]
  obtain ⟨b, rest, hbytes, hplain⟩ := hfirst
  rw [encodeChar, hbytes, List.flatMap_cons, encodeByte_of_not_plain hplain]
  exact ⟨_, _, _, rfl⟩

theorem isPlainChar_hexDigit {n : Nat} (h : n < 16) : isPlainChar (hexDigit n) = true := by
  have hall : ∀ m < 16, isPlainChar (hexDigit m) = true := by decide
  exact hall n h

/-- What is written is plain, percent signs apart. -/
theorem plain_of_mem_encodeChar {c d : Char} (h : d ∈ encodeChar c) :
    d = '%' ∨ isPlainChar d = true := by
  obtain ⟨b, _, hb⟩ := List.mem_flatMap.mp h
  have hsize := b.toNat_lt
  cases hplain : isPlain b with
  | false =>
    rw [encodeByte_of_not_plain hplain] at hb
    simp only [List.mem_cons, List.not_mem_nil, or_false] at hb
    rcases hb with rfl | rfl | rfl
    · exact .inl rfl
    · exact .inr (isPlainChar_hexDigit (by omega))
    · exact .inr (isPlainChar_hexDigit (Nat.mod_lt _ (by omega)))
  | true =>
    rw [encodeByte, hplain, if_pos rfl, List.mem_singleton] at hb
    have hlow : b.toNat < 0x7f := by
      simp only [isPlain, Bool.and_eq_true, decide_eq_true_eq, UInt8.lt_iff_toNat_lt] at hplain
      exact hplain.1.2
    have hascii : ∀ n < 0x7f, (Char.ofNat n).toNat = n := by decide
    have hchar := hascii b.toNat hlow
    refine .inr ?_
    rw [hb, ← isPlain_ofNat (by omega), hchar, UInt8.ofNat_toNat, hplain]

theorem toList_encodeSegment {s : String} (hself : s ≠ ".") (hup : s ≠ "..") :
    (encodeSegment s).toList = s.toList.flatMap encodeChar := by
  rw [encodeSegment, if_neg (by simpa using hself), if_neg (by simpa using hup),
    String.toList_ofList, toUTF8_toList, List.flatMap_assoc]
  rfl

theorem length_le_length_encode (cs : List Char) :
    cs.length ≤ (cs.flatMap encodeChar).length ∧
      ((cs.flatMap encodeChar).length = cs.length → ∀ c ∈ cs, isPlainChar c = true) := by
  induction cs with
  | nil => simp
  | cons c cs ih =>
    rw [List.flatMap_cons, List.length_append, List.length_cons]
    cases hplain : isPlainChar c with
    | true =>
      rw [encodeChar_of_plain hplain, List.length_singleton]
      refine ⟨by omega, fun h d hd => ?_⟩
      rcases List.mem_cons.mp hd with rfl | hd
      · exact hplain
      · exact ih.2 (by omega) d hd
    | false =>
      obtain ⟨a, b, rest, hchar⟩ := encodeChar_of_not_plain hplain
      rw [hchar]
      simp only [List.length_cons]
      exact ⟨by omega, fun h => by omega⟩

theorem flatMap_encodeChar_of_plain {cs : List Char} (h : ∀ c ∈ cs, isPlainChar c = true) :
    cs.flatMap encodeChar = cs := by
  induction cs with
  | nil => rfl
  | cons c cs ih =>
    rw [List.flatMap_cons, encodeChar_of_plain (h c List.mem_cons_self),
      ih fun d hd => h d (List.mem_cons_of_mem c hd)]
    rfl

/-- A segment is written as itself exactly when its characters are plain and it is no dot name. -/
theorem encodeSegment_eq_self_iff (s : String) :
    encodeSegment s = s ↔ (∀ c ∈ s.toList, isPlainChar c = true) ∧ s ≠ "." ∧ s ≠ ".." := by
  constructor
  · intro h
    have hself : s ≠ "." := by
      rintro rfl
      exact absurd h (by decide)
    have hup : s ≠ ".." := by
      rintro rfl
      exact absurd h (by decide)
    have hchars := toList_encodeSegment hself hup
    rw [h] at hchars
    exact ⟨(length_le_length_encode s.toList).2 (by rw [← hchars]), hself, hup⟩
  · rintro ⟨hplain, hself, hup⟩
    apply String.toList_inj.mp
    rw [toList_encodeSegment hself hup, flatMap_encodeChar_of_plain hplain]

theorem plain_of_mem_encodeSegment {s : String} {c : Char} (h : c ∈ (encodeSegment s).toList) :
    c = '%' ∨ isPlainChar c = true := by
  have hdots : ∀ t : String, (t.toList.all fun d => d == '%' || isPlainChar d) = true →
      c ∈ t.toList → c = '%' ∨ isPlainChar c = true := by
    intro t ht hc
    simpa using List.all_eq_true.mp ht c hc
  by_cases hs : s = "."
  · subst hs
    exact hdots "%2E" (by decide) h
  · by_cases hs' : s = ".."
    · subst hs'
      exact hdots "%2E%2E" (by decide) h
    · rw [toList_encodeSegment hs hs'] at h
      obtain ⟨d, _, hd⟩ := List.mem_flatMap.mp h
      exact plain_of_mem_encodeChar hd

/-- A segment that is not written as itself grows, and a percent sign stands in what is written. -/
theorem encodeSegment_of_ne_self {s : String} (h : encodeSegment s ≠ s) :
    '%' ∈ (encodeSegment s).toList ∧ s.length < (encodeSegment s).length := by
  by_cases hself : s = "."
  · subst hself
    decide
  · by_cases hup : s = ".."
    · subst hup
      decide
    · have hchars := toList_encodeSegment hself hup
      have hlength := length_le_length_encode s.toList
      have hplain : ¬ ∀ c ∈ s.toList, isPlainChar c = true :=
        fun hplain => h ((encodeSegment_eq_self_iff s).mpr ⟨hplain, hself, hup⟩)
      refine ⟨?_, ?_⟩
      · simp only [Classical.not_forall] at hplain
        obtain ⟨c, hc, hchar⟩ := hplain
        obtain ⟨a, b, rest, hwritten⟩ := encodeChar_of_not_plain (Bool.eq_false_iff.mpr hchar)
        rw [hchars]
        exact List.mem_flatMap.mpr ⟨c, hc, by simp [hwritten]⟩
      · rw [← String.length_toList, ← String.length_toList, hchars]
        have hne : (s.toList.flatMap encodeChar).length ≠ s.toList.length :=
          fun heq => hplain (hlength.2 heq)
        omega

theorem isName_encodeSegment {s : String} (h : s ≠ "") : IsName (encodeSegment s) := by
  have hslash : '/' ∉ (encodeSegment s).toList := fun hmem =>
    absurd (plain_of_mem_encodeSegment hmem) (by decide)
  by_cases hself : s = "."
  · subst hself
    exact ⟨by decide, by decide, by decide, hslash⟩
  · by_cases hup : s = ".."
    · subst hup
      exact ⟨by decide, by decide, by decide, hslash⟩
    · -- a dot name would be plain, so the segment would be that name itself
      have hdots : ∀ t : String, t.toList.all isPlainChar = true → encodeSegment s = t → s = t := by
        intro t ht hst
        refine Classical.byContradiction fun hne => ?_
        have hpercent := (encodeSegment_of_ne_self (s := s) fun h => hne (h.symm.trans hst)).1
        rw [hst] at hpercent
        exact absurd (List.all_eq_true.mp ht '%' hpercent) (by decide)
      refine ⟨?_, fun hs => hself (hdots _ (by decide) hs), fun hs => hup (hdots _ (by decide) hs),
        hslash⟩
      exact fun hs => h (hdots _ (by decide) hs)

theorem ne_empty_of_mem_split {s part : String} (h : part ∈ split s) : part ≠ "" := by
  simpa using (List.mem_filter.mp h).2

theorem isClean_ofKey (k : Key) : Location.IsClean (ofKey k).segments := by
  intro s hs
  obtain ⟨part, hpart, rfl⟩ := List.mem_map.mp hs
  exact isName_encodeSegment (ne_empty_of_mem_split hpart)

theorem plain_of_mem_ofKey {k : Key} {s : String} (hs : s ∈ (ofKey k).segments) {c : Char}
    (hc : c ∈ s.toList) : c = '%' ∨ isPlainChar c = true := by
  obtain ⟨part, _, rfl⟩ := List.mem_map.mp hs
  exact plain_of_mem_encodeSegment hc

/-- A path whose segments are names is read back from its text. -/
theorem split_text {p : StorePath} (h : Location.IsClean p.segments) (hne : p.segments ≠ []) :
    split p.text = p.segments := by
  rw [split, text, slashParts_intercalate (fun s hs => (h s hs).noSlash) hne]
  exact List.filter_eq_self.mpr fun s hs => by simpa using (h s hs).nonempty

def digitOf (c : Char) : Nat :=
  if c.toNat < 'A'.toNat then c.toNat - '0'.toNat else c.toNat - 'A'.toNat + 10

/-- The bytes that have been written. -/
def decode : List Char → List UInt8
  | [] => []
  | '%' :: high :: low :: rest => UInt8.ofNat (digitOf high * 16 + digitOf low) :: decode rest
  | c :: rest => UInt8.ofNat c.toNat :: decode rest

theorem digitOf_hexDigit {n : Nat} (h : n < 16) : digitOf (hexDigit n) = n := by
  have hall : ∀ m < 16, digitOf (hexDigit m) = m := by decide
  exact hall n h

theorem decode_encodeByte (b : UInt8) (rest : List Char) :
    decode (encodeByte b ++ rest) = b :: decode rest := by
  have hsize := b.toNat_lt
  cases hplain : isPlain b with
  | false =>
    rw [encodeByte_of_not_plain hplain]
    have hhigh : digitOf (hexDigit (b.toNat / 16)) = b.toNat / 16 := digitOf_hexDigit (by omega)
    have hlow : digitOf (hexDigit (b.toNat % 16)) = b.toNat % 16 := digitOf_hexDigit (by omega)
    have hbyte : b.toNat / 16 * 16 + b.toNat % 16 = b.toNat := Nat.div_add_mod' b.toNat 16
    simp only [List.cons_append, List.nil_append, decode, hhigh, hlow, hbyte, UInt8.ofNat_toNat]
  | true =>
    have hlow : b.toNat < 0x7f := by
      simp only [isPlain, Bool.and_eq_true, decide_eq_true_eq, UInt8.lt_iff_toNat_lt] at hplain
      exact hplain.1.2
    have hascii : ∀ n < 0x7f, (Char.ofNat n).toNat = n := by decide
    have hpercent : Char.ofNat b.toNat ≠ '%' := by
      intro h
      simp [isPlain, h, reserved] at hplain
    rw [encodeByte, hplain, if_pos rfl, List.singleton_append, decode, hascii _ hlow,
      UInt8.ofNat_toNat]
    exact fun _ _ _ h => absurd h hpercent

theorem decode_flatMap_encodeByte (bytes : List UInt8) :
    decode (bytes.flatMap encodeByte) = bytes := by
  induction bytes with
  | nil => rfl
  | cons b bytes ih => rw [List.flatMap_cons, decode_encodeByte, ih]

theorem decode_encodeSegment (s : String) : decode (encodeSegment s).toList = s.toUTF8.toList := by
  rw [encodeSegment]
  split
  · next h =>
      rw [eq_of_beq h, toUTF8_toList]
      decide
  · split
    · next h =>
      rw [eq_of_beq h, toUTF8_toList]
      decide
    · rw [String.toList_ofList, decode_flatMap_encodeByte]

/-- Different segments are written differently. -/
theorem encodeSegment_injective : Function.Injective encodeSegment := by
  intro s t h
  have hbytes : s.toUTF8.toList = t.toUTF8.toList := by
    rw [← decode_encodeSegment, h, decode_encodeSegment]
  rw [toList_eq_data_toList, toList_eq_data_toList] at hbytes
  have hdata : s.toUTF8 = t.toUTF8 := ByteArray.ext (Array.toList_inj.mp hbytes)
  exact String.toByteArray_inj.mp hdata

/-- Two keys have one path exactly when they have the same parts. -/
theorem ofKey_eq_iff {k l : Key} : ofKey k = ofKey l ↔ split k.text = split l.text := by
  rw [ofKey, ofKey, StorePath.mk.injEq]
  exact List.map_inj_right fun _ _ => @encodeSegment_injective _ _

theorem mem_intercalate {sep c : Char} {parts : List (List Char)} :
    (c ∈ [sep].intercalate parts → c = sep ∨ ∃ cs ∈ parts, c ∈ cs) ∧
      ∀ cs ∈ parts, c ∈ cs → c ∈ [sep].intercalate parts := by
  induction parts with
  | nil => simp
  | cons first parts ih =>
    cases parts with
    | nil =>
      rw [List.intercalate_singleton]
      refine ⟨fun h => .inr ⟨first, List.mem_singleton_self first, h⟩, fun cs hcs hc => ?_⟩
      rwa [← List.mem_singleton.mp hcs]
    | cons second parts =>
      rw [List.intercalate_cons_cons]
      refine ⟨fun h => ?_, fun cs hcs hc => ?_⟩
      · rcases List.mem_append.mp h with h | h
        · rcases List.mem_append.mp h with h | h
          · exact .inr ⟨first, List.mem_cons_self, h⟩
          · exact .inl (List.mem_singleton.mp h)
        · rcases ih.1 h with h | ⟨cs, hcs, hc⟩
          · exact .inl h
          · exact .inr ⟨cs, List.mem_cons_of_mem _ hcs, hc⟩
      · rcases List.mem_cons.mp hcs with rfl | hcs
        · exact List.mem_append_left _ (List.mem_append_left _ hc)
        · exact List.mem_append_right _ (ih.2 cs hcs hc)

theorem text_toList (p : StorePath) :
    p.text.toList = ['/'].intercalate (p.segments.map String.toList) := by
  rw [text, String.toList_intercalate]
  rfl

theorem mem_text_of_mem {p : StorePath} {s : String} (hs : s ∈ p.segments) {c : Char}
    (hc : c ∈ s.toList) : c ∈ p.text.toList := by
  rw [text_toList]
  exact mem_intercalate.2 _ (List.mem_map_of_mem hs) hc

theorem mem_of_mem_text {p : StorePath} {c : Char} (h : c ∈ p.text.toList) :
    c = '/' ∨ ∃ s ∈ p.segments, c ∈ s.toList := by
  rw [text_toList] at h
  rcases mem_intercalate.1 h with h | ⟨cs, hcs, hc⟩
  · exact .inl h
  · obtain ⟨s, hs, rfl⟩ := List.mem_map.mp hcs
    exact .inr ⟨s, hs, hc⟩

end StorePath
end DumpVault
