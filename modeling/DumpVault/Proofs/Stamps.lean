import DumpVault.Proofs.ByteOrder
import DumpVault.Proofs.Chronology

/-!
# Stamps read back

A number is read up to its last digit or up to its greatest width. What a stamp writes is read
number by number, with the mark behind each number, and the date and the time of day that are read
are the ones of the second that was written. So a minted key names its second and no other one. What
is read from any text is the start of a second.
-/
namespace DumpVault

namespace Text

variable {most width n : Nat} {ds rest : List Char}

theorem isDigit_eq (c : Char) : isDigit c = c.isDigit := rfl

theorem valueOf_padded (width n : Nat) : valueOf (padded width n) = n := value_padded width n

theorem isBlank_of_isDigit {c : Char} (h : c.isDigit = true) : isBlank c = false := by
  obtain ⟨hlow, hhigh⟩ := code_of_isDigit h
  simp only [isBlank, Bool.or_eq_false_iff, Bool.and_eq_false_iff, decide_eq_false_iff_not,
    beq_eq_false_iff_ne]
  omega

theorem padded_ne_nil (width n : Nat) : padded width n ≠ [] :=
  fun h => Nat.toDigits_ne_nil (List.append_eq_nil_iff.mp h).2

/-- A row of digits is taken as a whole where the width ends or no digit follows. -/
theorem takeDigits_row (hds : ∀ c ∈ ds, c.isDigit = true) (hwidth : ds.length ≤ most)
    (hend : ds.length = most ∨ ∀ c ∈ rest.head?, c.isDigit = false) :
    takeDigits most (ds ++ rest) = (ds, rest) := by
  induction ds generalizing most with
  | nil =>
    cases most with
    | zero => rfl
    | succ most =>
      cases rest with
      | nil => rfl
      | cons c rest =>
        have hc : c.isDigit = false := (hend.resolve_left (Nat.succ_ne_zero most).symm) c rfl
        simp [takeDigits, isDigit_eq, hc]
  | cons d ds ih =>
    obtain ⟨hd, hds⟩ := List.forall_mem_cons.mp hds
    cases most with
    | zero => exact absurd hwidth (Nat.not_succ_le_zero _)
    | succ most =>
      have hrow := ih hds (Nat.le_of_succ_le_succ hwidth) (hend.imp_left Nat.succ.inj)
      simp [takeDigits, isDigit_eq, hd, hrow]

theorem dropWhile_padded (width n : Nat) (rest : List Char) :
    (padded width n ++ rest).dropWhile isBlank = padded width n ++ rest := by
  cases hrow : padded width n with
  | nil => exact absurd hrow (padded_ne_nil width n)
  | cons d ds =>
    have hd : d.isDigit = true := isDigit_of_mem_padded (hrow ▸ List.mem_cons_self)
    simp [isBlank_of_isDigit hd]

end Text

namespace Calendar
open Text

namespace Stamp

variable {width n : Nat} {cs rest : List Char}

theorem number?_padded (hwidth : 0 < width) (hn : n < 10 ^ width) (rest : List Char) :
    number? width (padded width n ++ rest) = some (n, rest) := by
  have hlength := length_padded hwidth hn
  have htaken : takeDigits width (padded width n ++ rest) = (padded width n, rest) :=
    takeDigits_row (fun _ => isDigit_of_mem_padded) (Nat.le_of_eq hlength) (.inl hlength)
  rw [number?, dropWhile_padded, htaken]
  cases hrow : padded width n with
  | nil => exact absurd hrow (padded_ne_nil width n)
  | cons d ds => simp [← hrow, valueOf_padded]

theorem unbounded?_padded (width n : Nat) (hend : ∀ c ∈ rest.head?, c.isDigit = false) :
    unbounded? (padded width n ++ rest) = some (n, rest) := by
  have htaken : takeDigits (padded width n ++ rest).length (padded width n ++ rest) =
      (padded width n, rest) :=
    takeDigits_row (fun _ => isDigit_of_mem_padded) (by simp) (.inr hend)
  rw [unbounded?, htaken]
  cases hrow : padded width n with
  | nil => exact absurd hrow (padded_ne_nil width n)
  | cons d ds => simp [← hrow, valueOf_padded]

theorem year?_of_isDigit {c : Char} (hc : c.isDigit = true) (cs : List Char) :
    year? (c :: cs) = (number? 4 (c :: cs)).map fun (n, rest) => ((n : Int), rest) := by
  have hdrop : (c :: cs).dropWhile isBlank = c :: cs := by simp [isBlank_of_isDigit hc]
  rw [year?, hdrop]
  split
  · rename_i heq
    rw [(List.cons.inj heq).1] at hc
    cases hc
  · rename_i heq
    rw [(List.cons.inj heq).1] at hc
    cases hc
  · rfl

theorem year?_yearText (year : Int) (hend : ∀ c ∈ rest.head?, c.isDigit = false) :
    year? (yearText year ++ rest) = some (year, rest) := by
  rw [yearText]
  split
  case isTrue hplain =>
    have hnumber := number?_padded (by decide) (show year.toNat < 10 ^ 4 by omega) rest
    cases hrow : padded 4 year.toNat with
    | nil => exact absurd hrow (padded_ne_nil 4 year.toNat)
    | cons d ds =>
      have hd : d.isDigit = true := isDigit_of_mem_padded (hrow ▸ List.mem_cons_self)
      rw [hrow] at hnumber
      rw [List.cons_append] at hnumber ⊢
      rw [year?_of_isDigit hd, hnumber]
      simp only [Option.map_some, Int.toNat_of_nonneg hplain.1]
  case isFalse hplain =>
    have hdigits := unbounded?_padded 4 year.natAbs hend
    rw [List.cons_append]
    split
    case isTrue hneg =>
      have hblank : isBlank '-' = false := by decide
      simp only [year?, List.dropWhile_cons, hblank, Bool.false_eq_true, if_false, hdigits,
        Option.map_some, Int.ofNat_natAbs_of_nonpos (Int.le_of_lt hneg), Int.neg_neg]
    case isFalse hneg =>
      have hblank : isBlank '+' = false := by decide
      simp only [year?, List.dropWhile_cons, hblank, Bool.false_eq_true, if_false, hdigits,
        Option.map_some, Int.natAbs_of_nonneg (Int.not_lt.mp hneg)]

@[simp] theorem exactly?_self (c : Char) (cs : List Char) : exactly? c (c :: cs) = some cs :=
  if_pos rfl

end Stamp

namespace Instant
open Stamp

variable {s t : Instant}

/-- The parts of a second are put together to that second. -/
theorem assemble?_parts (t : Instant) : assemble? t.date (t.secondOfDay / 3600)
    (t.secondOfDay / 60 % 60) (if t.isLeapSecond then 60 else t.secondOfDay % 60) =
      some t.truncated := by
  have hdate : t.date.dayNumber = t.seconds / 86400 := Date.dayNumber_ofDayNumber _
  have hvalid : t.date.Valid := Date.valid_ofDayNumber _
  have hrange := t.truncated.inRange
  simp only [truncated] at hrange
  have hsecond : (if t.isLeapSecond then 60 else t.secondOfDay % 60) ≤ 60 := by
    split <;> omega
  have hhour : t.secondOfDay / 3600 < 24 := by
    simp only [secondOfDay]
    omega
  rw [assemble?, if_pos ⟨hvalid, hhour, Nat.mod_lt _ (by decide), hsecond⟩, hdate]
  cases hleap : t.isLeapSecond with
  | true =>
    have hlast := seconds_of_isLeapSecond hleap
    have hstart : 86400 * (t.seconds / 86400) + 3600 * ((t.secondOfDay / 3600 : Nat) : Int) +
        60 * ((t.secondOfDay / 60 % 60 : Nat) : Int) + 59 = t.seconds := by
      simp only [secondOfDay]
      omega
    simp only [hleap, if_true] at hrange ⊢
    simp only [hstart, ofParts?, dif_pos hrange, truncated, hleap, if_true]
  | false =>
    have hstart : 86400 * (t.seconds / 86400) + 3600 * ((t.secondOfDay / 3600 : Nat) : Int) +
        60 * ((t.secondOfDay / 60 % 60 : Nat) : Int) + ((t.secondOfDay % 60 : Nat) : Int) =
          t.seconds := by
      simp only [secondOfDay]
      omega
    have hne : t.secondOfDay % 60 ≠ 60 := Nat.ne_of_lt (Nat.mod_lt _ (by decide))
    simp only [hleap, Bool.false_eq_true, if_false] at hrange ⊢
    rw [if_neg hne]
    simp only [hstart, ofParts?, dif_pos hrange, truncated, hleap, Bool.false_eq_true, if_false]

theorem readChars?_stampChars (t : Instant) : readChars? t.stampChars = some t.truncated := by
  obtain ⟨hmonth, hday⟩ := t.date_bounds
  obtain ⟨hhour, hminute, hsecond⟩ := t.clock_bounds
  have hyear : ∀ cs, year? (yearText t.date.year ++ '-' :: cs) = some (t.date.year, '-' :: cs) :=
    fun cs => year?_yearText _ (by rintro c ⟨⟩; decide)
  simp only [stampChars, List.append_assoc, List.cons_append, List.nil_append]
  simp only [readChars?, hyear, number?_padded (show 0 < 2 by decide) hmonth,
    number?_padded (show 0 < 2 by decide) hday, number?_padded (show 0 < 2 by decide) hhour,
    number?_padded (show 0 < 2 by decide) hminute, number?_padded (show 0 < 2 by decide) hsecond,
    exactly?_self, Option.bind_eq_bind, Option.bind_some, List.isEmpty_nil, if_true]
  exact t.assemble?_parts

theorem truncated_of_assemble? {d : Date} {hour minute second : Nat}
    (h : assemble? d hour minute second = some t) : t.truncated = t := by
  have hparts : ∀ {seconds : Int} {nanos : Nat}, nanos = 0 ∨ nanos = 1000000000 →
      ofParts? seconds nanos = some t → t.truncated = t := by
    intro seconds nanos hnanos h
    rw [ofParts?] at h
    split at h
    · cases h
      rcases hnanos with rfl | rfl <;> rfl
    · cases h
  rw [assemble?] at h
  split at h
  · split at h
    · exact hparts (.inr rfl) h
    · exact hparts (.inl rfl) h
  · cases h

/-- What is read is the start of a second. -/
theorem truncated_of_readChars? {cs : List Char} (h : readChars? cs = some t) :
    t.truncated = t := by
  simp only [readChars?, Option.bind_eq_bind, Option.bind_eq_some_iff] at h
  obtain ⟨_, -, _, -, _, -, _, -, _, -, _, -, _, -, _, -, _, -, _, -, _, -, _, -, h⟩ := h
  split at h
  · exact truncated_of_assemble? h
  · cases h

theorem truncated_eq_iff : s.truncated = t.truncated ↔
    s.seconds = t.seconds ∧ s.isLeapSecond = t.isLeapSecond := by
  simp only [truncated, Instant.mk.injEq]
  cases s.isLeapSecond <;> cases t.isLeapSecond <;> simp

theorem map_padded {width n : Nat} (hwidth : 0 < width) (hn : n < 10 ^ width) :
    (padded width n).map (fun c => if c.isDigit then '0' else c) = List.replicate width '0' := by
  refine List.eq_replicate_iff.mpr ⟨by rw [List.length_map, length_padded hwidth hn], ?_⟩
  intro c hc
  obtain ⟨d, hd, rfl⟩ := List.mem_map.mp hc
  exact if_pos (isDigit_of_mem_padded hd)

/-- Without their digits, stamps of years with four digits are all the same. -/
theorem stampChars_form (h : t.HasPlainYear) :
    t.stampChars.map (fun c => if c.isDigit then '0' else c) = "0000-00-00T00:00:00Z".toList := by
  obtain ⟨hmonth, hday⟩ := t.date_bounds
  obtain ⟨hhour, hminute, hsecond⟩ := t.clock_bounds
  have hyear : t.date.year.toNat < 10 ^ 4 := by
    have := h.2
    omega
  rw [stampChars_eq h]
  simp only [List.map_append, List.map_cons, map_padded (show 0 < 4 by decide) hyear,
    map_padded (show 0 < 2 by decide) hmonth, map_padded (show 0 < 2 by decide) hday,
    map_padded (show 0 < 2 by decide) hhour, map_padded (show 0 < 2 by decide) hminute,
    map_padded (show 0 < 2 by decide) hsecond]
  decide

/-- Second 60 is written for leap seconds only. -/
theorem suffix_stampChars_iff : ":60Z".toList <:+ t.stampChars ↔ t.isLeapSecond = true := by
  have hsixty : ":60Z".toList = [':'] ++ (padded 2 60 ++ ['Z']) := by decide
  have hsplit : ∃ front, t.stampChars = front ++
      ([':'] ++ (padded 2 (if t.isLeapSecond then 60 else t.secondOfDay % 60) ++ ['Z'])) :=
    ⟨_, by rw [stampChars, List.append_assoc, List.append_assoc]⟩
  obtain ⟨front, hfront⟩ := hsplit
  rw [hfront, hsixty]
  constructor
  · rintro ⟨start, heq⟩
    have hlength := length_padded (by decide) t.clock_bounds.2.2
    have hrow := List.append_inj_right' heq (by simp [hlength, length_padded])
    have hpadded := List.append_cancel_right (List.append_cancel_left hrow)
    have hvalue := congrArg valueOf hpadded
    rw [valueOf_padded, valueOf_padded] at hvalue
    split at hvalue
    · assumption
    · omega
  · intro h
    rw [h, if_pos rfl]
    exact List.suffix_append _ _

end Instant
end Calendar

open Text Calendar

theorem Key.toList_mint (t : Instant) : (mint t).text.toList = t.stampChars := String.toList_ofList

/-- A minted key names its second: it is read back as the start of that second, a leap second as
the nanosecond `10 ^ 9` of a second 59. Whatever key is read as an instant, however loosely it is
written, the key minted from that instant is read as the same instant. -/
theorem minted_keys_decode :
    (∀ t : Instant, (Key.mint t).instant? = some t.truncated ∧
      t.truncated.seconds = t.seconds ∧
      (t.isLeapSecond = false → t.truncated.nanos = 0) ∧
      (t.isLeapSecond = true → t.truncated.nanos = 10 ^ 9 ∧ t.seconds % 60 = 59)) ∧
    ∀ (k : Key) (t : Instant), k.instant? = some t → (Key.mint t).instant? = some t := by
  have hmint : ∀ t : Instant, (Key.mint t).instant? = some t.truncated := by
    intro t
    rw [Key.instant?, Stamp.read?, Key.toList_mint]
    exact t.readChars?_stampChars
  refine ⟨fun t => ⟨hmint t, rfl, fun h => ?_, fun h => ⟨?_, t.seconds_of_isLeapSecond h⟩⟩, ?_⟩
  · simp [Instant.truncated, h]
  · simp [Instant.truncated, h]
  · intro k t h
    rw [hmint, Instant.truncated_of_readChars? h]

/-- A year with a sign and a zero too many, and a leap second. -/
theorem minted_keys_decode_loose :
    let t : Instant := ⟨1483228799, 1000000000, by decide⟩
    (⟨" +02016-12-31T23: 59:60Z", by decide⟩ : Key).instant? = some t ∧
      (Key.mint t).instant? = some t ∧ (Key.mint t).text = "2016-12-31T23:59:60Z" := by
  have hread : (⟨" +02016-12-31T23: 59:60Z", by decide⟩ : Key).instant? =
      some ⟨1483228799, 1000000000, by decide⟩ := by
    decide +kernel
  exact ⟨hread, minted_keys_decode.2 _ _ hread, by decide +kernel⟩

/-- Keys minted in one second are one key, a leap second being a second of its own that is written
as second 60, and no others are. In the years 0 to 9999 all keys have one form, and the bytes of
the keys stand in the order of their seconds. -/
theorem minted_keys_ordered :
    (∀ s t : Instant, Key.mint s = Key.mint t ↔
      s.seconds = t.seconds ∧ s.isLeapSecond = t.isLeapSecond) ∧
    (∀ t : Instant, ":60Z".toList <:+ (Key.mint t).text.toList ↔ t.isLeapSecond = true) ∧
    (∀ s t : Instant, s.HasPlainYear → t.HasPlainYear →
      ((Key.mint s).bytes < (Key.mint t).bytes ↔ s.truncated.Before t.truncated)) ∧
    ∀ t : Instant, t.HasPlainYear →
      (Key.mint t).text.toList.map (fun c => if c.isDigit then '0' else c) =
        "0000-00-00T00:00:00Z".toList := by
  refine ⟨fun s t => ?_, fun t => ?_, fun s t hs ht => ?_, fun t ht => ?_⟩
  · rw [← Instant.truncated_eq_iff]
    constructor
    · intro h
      have hread := congrArg (fun k => Stamp.readChars? k.text.toList) h
      simpa only [Key.toList_mint, Instant.readChars?_stampChars, Option.some.injEq] using hread
    · intro h
      refine Key.ext_text ?_
      rw [Key.text_mint, Key.text_mint, ← Instant.stamp_truncated, h, Instant.stamp_truncated]
  · rw [Key.toList_mint]
    exact Instant.suffix_stampChars_iff
  · rw [Key.bytes_lt_iff]
    exact Instant.stamp_lt_iff hs ht
  · rw [Key.toList_mint]
    exact Instant.stampChars_form ht

/-- The last half of a leap second and the new year that follows it. -/
theorem minted_keys_ordered_new_year :
    let s : Instant := ⟨1483228799, 1500000000, by decide⟩
    let t : Instant := ⟨1483228800, 0, by decide⟩
    s.HasPlainYear ∧ t.HasPlainYear ∧ s.isLeapSecond = true ∧
      (Key.mint s).bytes < (Key.mint t).bytes ∧
      (Key.mint s).text = "2016-12-31T23:59:60Z" ∧ (Key.mint t).text = "2017-01-01T00:00:00Z" := by
  have hs : Instant.HasPlainYear ⟨1483228799, 1500000000, by decide⟩ := by decide
  have ht : Instant.HasPlainYear ⟨1483228800, 0, by decide⟩ := by decide
  have hbefore : Instant.Before (Instant.truncated ⟨1483228799, 1500000000, by decide⟩)
      (Instant.truncated ⟨1483228800, 0, by decide⟩) := .inl (by decide)
  exact ⟨hs, ht, rfl, (minted_keys_ordered.2.2.1 _ _ hs ht).mpr hbefore, by decide +kernel,
    by decide +kernel⟩

end DumpVault
