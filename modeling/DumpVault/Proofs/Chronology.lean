import Mathlib.Algebra.Group.Nat.Defs
import DumpVault.Calendar.Stamp
import DumpVault.Proofs.Days
import DumpVault.Proofs.Segments

/-!
# Stamps in the order of time

Numbers padded to one width stand in their own order. A stamp is a row of such numbers, the larger
parts of time first, so stamps of years with four digits stand in the order of the seconds that they
name, a leap second coming after the second that it extends. A stamp needs no encoding in a path.
-/
namespace DumpVault

namespace Text

variable {width m n : Nat} {xs ys us vs : List Char}

theorem isDigit_of_mem_padded {c : Char} (h : c ∈ padded width n) : c.isDigit = true := by
  rcases List.mem_append.mp h with h | h
  · obtain rfl := List.eq_of_mem_replicate h
    decide
  · exact Nat.isDigit_of_mem_toDigits (by decide) (by decide) h

theorem length_padded (hwidth : 0 < width) (hn : n < 10 ^ width) :
    (padded width n).length = width := by
  have hlength : (digits n).length ≤ width :=
    (Nat.length_toDigits_le_iff (by decide) hwidth).mpr hn
  simp only [padded, List.length_append, List.length_replicate]
  omega

theorem value_padded (width n : Nat) : Nat.ofDigitChars 10 (padded width n) 0 = n := by
  rw [padded, Nat.ofDigitChars_append, Nat.ofDigitChars_replicate_zero, Nat.mul_zero]
  exact Nat.ofDigitChars_ten_toDigits

theorem code_of_isDigit {c : Char} (h : c.isDigit = true) : 48 ≤ c.toNat ∧ c.toNat ≤ 57 := by
  simpa [Char.isDigit, UInt32.le_iff_toNat_le] using h

theorem value_cons (c : Char) (xs : List Char) : Nat.ofDigitChars 10 (c :: xs) 0 =
    10 ^ xs.length * (c.toNat - 48) + Nat.ofDigitChars 10 xs 0 := by
  rw [Nat.ofDigitChars_cons, Nat.ofDigitChars_eq_ofDigitChars_zero, Nat.mul_zero, Nat.zero_add]
  rfl

theorem value_lt (hxs : ∀ c ∈ xs, c.isDigit = true) :
    Nat.ofDigitChars 10 xs 0 < 10 ^ xs.length := by
  induction xs with
  | nil => decide
  | cons c xs ih =>
    obtain ⟨hc, hxs⟩ := List.forall_mem_cons.mp hxs
    have hrest := ih hxs
    have hdigit := code_of_isDigit hc
    have hproduct := Nat.mul_le_mul_left (10 ^ xs.length) (show c.toNat - 48 ≤ 9 by omega)
    rw [value_cons, List.length_cons, Nat.pow_succ]
    omega

/-- Rows of as many digits stand in the order of their values. -/
theorem append_lt_of_value_lt (hxs : ∀ c ∈ xs, c.isDigit = true) (hys : ∀ c ∈ ys, c.isDigit = true)
    (hlength : xs.length = ys.length)
    (hvalue : Nat.ofDigitChars 10 xs 0 < Nat.ofDigitChars 10 ys 0) : xs ++ us < ys ++ vs := by
  induction xs generalizing ys with
  | nil =>
    obtain rfl := List.length_eq_zero_iff.mp hlength.symm
    exact absurd hvalue (Nat.lt_irrefl _)
  | cons c xs ih =>
    cases ys with
    | nil => cases hlength
    | cons d ys =>
      obtain ⟨hc, hxs'⟩ := List.forall_mem_cons.mp hxs
      obtain ⟨hd, hys'⟩ := List.forall_mem_cons.mp hys
      have hlength' : xs.length = ys.length := by simpa using hlength
      have hbound := value_lt hys'
      rw [value_cons, value_cons, hlength'] at hvalue
      rw [List.cons_append, List.cons_append, List.cons_lt_cons_iff]
      rcases Nat.lt_trichotomy (c.toNat - 48) (d.toNat - 48) with hlt | heq | hgt
      · exact .inl (show c.toNat < d.toNat by omega)
      · have hcode := code_of_isDigit hc
        have hcode' := code_of_isDigit hd
        have hcd : c = d := Char.toNat_inj.mp (by omega)
        subst hcd
        exact .inr ⟨rfl, ih hxs' hys' hlength' (by omega)⟩
      · have hproduct := Nat.mul_le_mul_left (10 ^ ys.length) (Nat.succ_le_of_lt hgt)
        rw [Nat.mul_succ] at hproduct
        omega

theorem padded_append_lt (hwidth : 0 < width) (hm : m < 10 ^ width) (hn : n < 10 ^ width)
    (h : m < n ∨ m = n ∧ us < vs) : padded width m ++ us < padded width n ++ vs := by
  rcases h with h | ⟨rfl, h⟩
  · refine append_lt_of_value_lt (fun _ => isDigit_of_mem_padded)
      (fun _ => isDigit_of_mem_padded) ?_ ?_
    · rw [length_padded hwidth hm, length_padded hwidth hn]
    · rwa [value_padded, value_padded]
  · exact List.append_left_lt h

end Text

namespace Calendar
open Text

namespace Instant

variable {s t : Instant}

/-- The order of instants. A leap second lies at the end of the second that it extends. -/
def Before (s t : Instant) : Prop :=
  s.seconds < t.seconds ∨ s.seconds = t.seconds ∧ s.nanos < t.nanos

/-- The years that a stamp writes without a sign. -/
def HasPlainYear (t : Instant) : Prop := 0 ≤ t.date.year ∧ t.date.year ≤ 9999

instance (t : Instant) : Decidable t.HasPlainYear := by
  unfold HasPlainYear; infer_instance

theorem before_truncated_iff : s.truncated.Before t.truncated ↔ s.seconds < t.seconds ∨
    s.seconds = t.seconds ∧ s.isLeapSecond = false ∧ t.isLeapSecond = true := by
  simp only [Before, truncated]
  cases s.isLeapSecond <;> cases t.isLeapSecond <;> simp

theorem before_of_truncated (h : s.truncated.Before t.truncated) : s.Before t := by
  rcases before_truncated_iff.mp h with hlt | ⟨heq, hs, ht⟩
  · exact .inl hlt
  · have hnanos : s.nanos < 1000000000 := by simpa [isLeapSecond] using hs
    have hleap : 1000000000 ≤ t.nanos := by simpa [isLeapSecond] using ht
    exact .inr ⟨heq, by omega⟩

theorem truncated_trichotomy (s t : Instant) : s.truncated.Before t.truncated ∨
    s.truncated = t.truncated ∨ t.truncated.Before s.truncated := by
  rw [before_truncated_iff, before_truncated_iff]
  simp only [truncated, Instant.mk.injEq]
  cases s.isLeapSecond <;> cases t.isLeapSecond <;> simp <;> omega

theorem stamp_truncated (t : Instant) : t.truncated.stamp = t.stamp := by
  have hleap : t.truncated.isLeapSecond = t.isLeapSecond := by
    simp only [isLeapSecond, truncated, decide_eq_true_eq, decide_eq_decide]
    split <;> omega
  rw [stamp, stamp, stampChars, stampChars, hleap]
  rfl

theorem stampChars_eq (h : t.HasPlainYear) : t.stampChars =
    padded 4 t.date.year.toNat ++ '-' :: (padded 2 t.date.month ++ '-' :: (padded 2 t.date.day ++
      'T' :: (padded 2 (t.secondOfDay / 3600) ++ ':' :: (padded 2 (t.secondOfDay / 60 % 60) ++
        ':' :: (padded 2 (if t.isLeapSecond then 60 else t.secondOfDay % 60) ++ ['Z']))))) := by
  have hyear : yearText t.date.year = padded 4 t.date.year.toNat := if_pos h
  rw [stampChars, hyear]
  simp only [List.append_assoc, List.cons_append, List.nil_append]

theorem seconds_of_isLeapSecond (h : t.isLeapSecond = true) : t.seconds % 60 = 59 := by
  obtain ⟨_, _, hnanos⟩ := t.inRange
  have hleap : 1000000000 ≤ t.nanos := by simpa [isLeapSecond] using h
  omega

/-- On one day, hours, minutes and seconds follow each other in time. -/
theorem clock_lt (hday : s.seconds / 86400 = t.seconds / 86400)
    (h : s.truncated.Before t.truncated) :
    s.secondOfDay / 3600 < t.secondOfDay / 3600 ∨ s.secondOfDay / 3600 = t.secondOfDay / 3600 ∧
      (s.secondOfDay / 60 % 60 < t.secondOfDay / 60 % 60 ∨
        s.secondOfDay / 60 % 60 = t.secondOfDay / 60 % 60 ∧
          (if s.isLeapSecond then 60 else s.secondOfDay % 60) <
            if t.isLeapSecond then 60 else t.secondOfDay % 60) := by
  rw [before_truncated_iff] at h
  simp only [secondOfDay]
  rcases h with hlt | ⟨heq, hs, ht⟩
  · have hsod : (s.seconds % 86400).toNat < (t.seconds % 86400).toNat := by omega
    cases hs : s.isLeapSecond with
    | true =>
      have := seconds_of_isLeapSecond hs
      split <;> omega
    | false =>
      simp only [Bool.false_eq_true, if_false]
      split <;> omega
  · simp only [hs, ht, heq, Bool.false_eq_true, reduceIte, true_and]
    omega

theorem date_bounds (t : Instant) : t.date.month < 10 ^ 2 ∧ t.date.day < 10 ^ 2 := by
  obtain ⟨_, hmonth, _, hday⟩ := Date.valid_ofDayNumber (t.seconds / 86400)
  have hlength : ∀ year month, daysInMonth year month ≤ 31 := by
    intro year month
    simp only [daysInMonth]
    split <;> split <;> omega
  have := hlength t.date.year t.date.month
  change t.date.month ≤ 12 at hmonth
  change t.date.day ≤ daysInMonth t.date.year t.date.month at hday
  omega

theorem clock_bounds (t : Instant) : t.secondOfDay / 3600 < 10 ^ 2 ∧
    t.secondOfDay / 60 % 60 < 10 ^ 2 ∧
    (if t.isLeapSecond then 60 else t.secondOfDay % 60) < 10 ^ 2 := by
  simp only [secondOfDay]
  refine ⟨by omega, by omega, ?_⟩
  split <;> omega

/-- Stamps stand in the order of time. -/
theorem stamp_lt (hs : s.HasPlainYear) (ht : t.HasPlainYear) (h : s.truncated.Before t.truncated) :
    s.stamp < t.stamp := by
  obtain ⟨hmonth, hday⟩ := s.date_bounds
  obtain ⟨hmonth', hday'⟩ := t.date_bounds
  obtain ⟨hhour, hminute, hsecond⟩ := s.clock_bounds
  obtain ⟨hhour', hminute', hsecond'⟩ := t.clock_bounds
  change (String.ofList s.stampChars).toList < (String.ofList t.stampChars).toList
  rw [String.toList_ofList, String.toList_ofList, stampChars_eq hs, stampChars_eq ht]
  obtain ⟨hsyear, hsyear'⟩ := hs
  obtain ⟨htyear, htyear'⟩ := ht
  have hmark : ∀ {c : Char} {us vs : List Char}, us < vs → c :: us < c :: vs :=
    fun h => List.cons_lt_cons_self.mpr h
  rcases Int.lt_trichotomy (s.seconds / 86400) (t.seconds / 86400) with hlt | heq | hgt
  · have hdate : s.date.Before t.date := Date.before_ofDayNumber hlt
    refine padded_append_lt (by decide) (by omega) (by omega)
      (hdate.imp (by omega) fun ⟨hyear, hdate⟩ => ⟨by rw [hyear], hmark ?_⟩)
    refine padded_append_lt (by decide) hmonth hmonth'
      (hdate.imp_right fun ⟨hmonth, hlt⟩ => ⟨hmonth, hmark ?_⟩)
    exact padded_append_lt (by decide) hday hday' (.inl hlt)
  · have hdate : s.date = t.date := congrArg Date.ofDayNumber heq
    rw [hdate]
    have hclock := clock_lt heq h
    refine padded_append_lt (by decide) (by omega) (by omega) (.inr ⟨rfl, hmark ?_⟩)
    refine padded_append_lt (by decide) hmonth' hmonth' (.inr ⟨rfl, hmark ?_⟩)
    refine padded_append_lt (by decide) hday' hday' (.inr ⟨rfl, hmark ?_⟩)
    refine padded_append_lt (by decide) hhour hhour'
      (hclock.imp_right fun ⟨hhour, hclock⟩ => ⟨hhour, hmark ?_⟩)
    refine padded_append_lt (by decide) hminute hminute'
      (hclock.imp_right fun ⟨hminute, hlt⟩ => ⟨hminute, hmark ?_⟩)
    exact padded_append_lt (by decide) hsecond hsecond' (.inl hlt)
  · rw [before_truncated_iff] at h
    omega

theorem stamp_lt_iff (hs : s.HasPlainYear) (ht : t.HasPlainYear) :
    s.stamp < t.stamp ↔ s.truncated.Before t.truncated := by
  refine ⟨fun h => ?_, stamp_lt hs ht⟩
  rcases truncated_trichotomy s t with hlt | heq | hgt
  · exact hlt
  · rw [← stamp_truncated s, ← stamp_truncated t, heq] at h
    exact absurd h (String.lt_irrefl _)
  · exact absurd h (String.lt_asymm (stamp_lt ht hs hgt))

theorem plain_of_isDigit {c : Char} (h : c.isDigit = true) :
    StorePath.isPlainChar c = true ∧ c ≠ '/' := by
  obtain ⟨hlow, hhigh⟩ := code_of_isDigit h
  have hall : ∀ n < 10, StorePath.isPlainChar (Char.ofNat (48 + n)) = true ∧
      Char.ofNat (48 + n) ≠ '/' := by
    decide
  have hc := hall (c.toNat - 48) (by omega)
  rwa [show 48 + (c.toNat - 48) = c.toNat by omega, Char.ofNat_toNat] at hc

theorem plain_of_mem_stamp {c : Char} (h : c ∈ t.stamp.toList) :
    StorePath.isPlainChar c = true ∧ c ≠ '/' := by
  have hpadded : ∀ {width n : Nat}, c ∈ padded width n →
      StorePath.isPlainChar c = true ∧ c ≠ '/' :=
    fun h => plain_of_isDigit (isDigit_of_mem_padded h)
  have hmark : ∀ {d : Char}, c = d → StorePath.isPlainChar d = true ∧ d ≠ '/' →
      StorePath.isPlainChar c = true ∧ c ≠ '/' := fun h hd => h ▸ hd
  have hyear : c ∈ yearText t.date.year → StorePath.isPlainChar c = true ∧ c ≠ '/' := by
    rw [yearText]
    split
    · exact hpadded
    · rw [List.mem_cons]
      rintro (h | h)
      · split at h <;> exact hmark h (by decide)
      · exact hpadded h
  rw [stamp, String.toList_ofList, stampChars] at h
  simp only [List.mem_append, List.mem_singleton] at h
  rcases h with ((((((((((h | h) | h) | h) | h) | h) | h) | h) | h) | h) | h) | h
  · exact hyear h
  all_goals first | exact hpadded h | exact hmark h (by decide)

end Instant
end Calendar

namespace StorePath
open Calendar

/-- A minted key is kept under its own text. -/
theorem ofKey_mint (t : Instant) : ofKey (.mint t) = ⟨[t.stamp]⟩ := by
  have hslash : '/' ∉ t.stamp.toList := fun h => (Instant.plain_of_mem_stamp h).2 rfl
  have hZ : 'Z' ∈ t.stamp.toList := by simp [Instant.stamp, Instant.stampChars]
  have hne : ∀ s : String, 'Z' ∉ s.toList → t.stamp ≠ s := by
    rintro s hs rfl
    exact hs hZ
  have hsplit : split t.stamp = [t.stamp] := by
    rw [split, slashParts_of_noSlash hslash]
    simp [hne "" (by decide)]
  have hplain : encodeSegment t.stamp = t.stamp := (encodeSegment_eq_self_iff _).mpr
    ⟨fun c hc => (Instant.plain_of_mem_stamp hc).1, hne "." (by decide), hne ".." (by decide)⟩
  simp [ofKey, hsplit, hplain]

theorem text_ofKey_mint (t : Instant) : (ofKey (.mint t)).text = t.stamp := by
  rw [ofKey_mint]
  rfl

end StorePath
end DumpVault
