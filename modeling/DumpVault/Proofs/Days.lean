import DumpVault.Calendar.Date

/-!
# Dates and day numbers

Every day number is that of one valid date, and day numbers grow with dates. Years are counted from
March in between: then the days of a month do not depend on the year, except for the last month.
-/
namespace DumpVault.Calendar

/-- The days of a cycle before its year `y`, years beginning in March. -/
def daysBeforeYear (y : Int) : Int := 365 * y + y / 4 - y / 100

/-- The year of a cycle that its day `n` lies in. -/
def yearOfDay (n : Int) : Int := (n - n / 1460 + n / 36524 - n / 146096) / 365

theorem yearOfDay_mono {m n : Int} (h : m ≤ n) : yearOfDay m ≤ yearOfDay n := by
  have hcentury : m / 36524 - m / 36524 / 4 ≤ n / 36524 - n / 36524 / 4 := by
    have := Int.ediv_le_ediv (c := 36524) (by decide) h
    omega
  have hfour : m - m / 1460 ≤ n - n / 1460 := by omega
  have hcycle : ∀ k : Int, k / 146096 = k / 36524 / 4 := by
    intro k
    rw [Int.ediv_ediv_of_nonneg (by decide)]
    rfl
  rw [yearOfDay, yearOfDay, hcycle m, hcycle n]
  exact Int.ediv_le_ediv (by decide) (by omega)

theorem yearOfDay_boundary : ∀ y < 400, yearOfDay (daysBeforeYear (y : Nat)) = y ∧
    (y = 0 ∨ yearOfDay (daysBeforeYear (y : Nat) - 1) < y) := by
  decide +kernel

/-- A day lies between the first days of its year and of the next one. -/
theorem yearOfDay_bounds {n : Int} (hn : 0 ≤ n) (hlast : n < 146097) :
    0 ≤ yearOfDay n ∧ yearOfDay n < 400 ∧ daysBeforeYear (yearOfDay n) ≤ n ∧
      (yearOfDay n < 399 → n < daysBeforeYear (yearOfDay n + 1)) := by
  have hfirst : 0 ≤ yearOfDay n := yearOfDay_mono hn
  have hend : yearOfDay n ≤ yearOfDay 146096 := yearOfDay_mono (by omega)
  rw [show yearOfDay 146096 = 399 by decide] at hend
  obtain ⟨y, hy⟩ := Int.eq_ofNat_of_zero_le hfirst
  rw [hy] at hfirst hend ⊢
  refine ⟨hfirst, by omega, ?_, fun hshort => ?_⟩
  · obtain ⟨_, rfl | hbefore⟩ := yearOfDay_boundary y (by omega)
    · simpa [daysBeforeYear] using hn
    · refine Int.not_lt.mp fun hlt => ?_
      have := yearOfDay_mono (m := n) (n := daysBeforeYear y - 1) (by omega)
      omega
  · obtain ⟨hnext, _⟩ := yearOfDay_boundary (y + 1) (by omega)
    refine Int.not_le.mp fun hle => ?_
    have hmono := yearOfDay_mono (n := n) hle
    rw [show (y : Int) + 1 = ((y + 1 : Nat) : Int) from rfl, hnext, hy] at hmono
    omega

theorem isLeap_iff {y : Int} : isLeap y = true ↔ y % 4 = 0 ∧ (y % 100 ≠ 0 ∨ y % 400 = 0) := by
  simp [isLeap]

/-- The number of leap days of a year. -/
def leapDays (y : Int) : Int := if isLeap y then 1 else 0

theorem leapDays_cases (y : Int) :
    leapDays y = 1 ∧ y % 4 = 0 ∧ (y % 100 ≠ 0 ∨ y % 400 = 0) ∨
      leapDays y = 0 ∧ ¬ (y % 4 = 0 ∧ (y % 100 ≠ 0 ∨ y % 400 = 0)) := by
  have hleap := isLeap_iff (y := y)
  rw [leapDays]
  split
  · next h => exact .inl ⟨rfl, hleap.mp h⟩
  · next h => exact .inr ⟨rfl, mt hleap.mpr h⟩

theorem leapDays_add_cycles (y c : Int) : leapDays (y + 400 * c) = leapDays y := by
  have := leapDays_cases y
  have := leapDays_cases (y + 400 * c)
  omega

theorem lt_yearLength {y n : Int} (hlast : n < 146097) (hend : y < 400)
    (hlt : y < 399 → n < daysBeforeYear (y + 1)) :
    n - daysBeforeYear y < 365 + leapDays (y + 1) := by
  have hleap := leapDays_cases (y + 1)
  simp only [daysBeforeYear] at *
  omega

/-- The days before a year that begins in March, counted from year 0. -/
def yearStart (y : Int) : Int := 365 * y + y / 4 - y / 100 + y / 400

theorem yearStart_succ (y : Int) : yearStart (y + 1) = yearStart y + 365 + leapDays (y + 1) := by
  have hleap := leapDays_cases (y + 1)
  simp only [yearStart]
  omega

theorem yearStart_mono {y z : Int} (h : y ≤ z) : yearStart y ≤ yearStart z := by
  rcases Int.lt_or_eq_of_le h with h | rfl
  · simp only [yearStart]
    omega
  · exact Int.le_refl _

/-- The days of a year that begins in March before its month `m`. -/
def monthStart (m : Int) : Int := (153 * m + 2) / 5

namespace Date

/-- The year that a date lies in when years begin in March, and its month there. -/
def marchYear (d : Date) : Int := if d.month ≤ 2 then d.year - 1 else d.year

def marchMonth (d : Date) : Int := (d.month + 9) % 12

/-- The days of the year from March before a date. -/
def dayInYear (d : Date) : Int := monthStart d.marchMonth + (d.day - 1)

theorem dayNumber_eq (d : Date) :
    d.dayNumber = yearStart d.marchYear + d.dayInYear - epochOffset := by
  simp only [dayNumber, yearStart, marchYear, dayInYear, monthStart, marchMonth]
  omega

/-- The order of dates in time. -/
def Before (d e : Date) : Prop :=
  d.year < e.year ∨ d.year = e.year ∧ (d.month < e.month ∨ d.month = e.month ∧ d.day < e.day)

variable {d e : Date}

theorem daysInMonth_february (year : Int) : (daysInMonth year 2 : Int) = 28 + leapDays year := by
  simp only [daysInMonth, leapDays, beq_self_eq_true, if_true]
  split <;> rfl

theorem daysInMonth_eq (year : Int) {month : Nat} (hmonth : 1 ≤ month) (hmonth' : month ≤ 12)
    (hfeb : month ≠ 2) : (daysInMonth year month : Int) =
      monthStart (((month + 9) % 12 : Int) + 1) - monthStart ((month + 9) % 12 : Int) := by
  simp only [daysInMonth, monthStart]
  have hcases : month = 1 ∨ month = 3 ∨ month = 4 ∨ month = 5 ∨ month = 6 ∨ month = 7 ∨
      month = 8 ∨ month = 9 ∨ month = 10 ∨ month = 11 ∨ month = 12 := by omega
  rcases hcases with rfl | rfl | rfl | rfl | rfl | rfl | rfl | rfl | rfl | rfl | rfl <;> rfl

theorem day_le_of_valid (h : d.Valid) :
    (d.day : Int) ≤ monthStart (d.marchMonth + 1) - monthStart d.marchMonth := by
  obtain ⟨hmonth, hmonth', _, hday⟩ := h
  rw [marchMonth]
  by_cases hfeb : d.month = 2
  · have hlength := daysInMonth_february d.year
    have hleap := leapDays_cases d.year
    rw [hfeb] at hday ⊢
    simp only [monthStart]
    omega
  · have hlength := daysInMonth_eq d.year hmonth hmonth' hfeb
    omega

theorem dayInYear_bounds (h : d.Valid) :
    0 ≤ d.dayInYear ∧ d.dayInYear < 365 + leapDays (d.marchYear + 1) := by
  have hlength := day_le_of_valid h
  obtain ⟨hmonth, hmonth', hday, hday'⟩ := h
  have hleap := leapDays_cases (d.marchYear + 1)
  simp only [dayInYear, marchMonth, monthStart] at *
  by_cases hfeb : d.month = 2
  · have hfebruary := daysInMonth_february d.year
    have hyear : d.marchYear + 1 = d.year := by simp [marchYear, hfeb]
    rw [hyear] at hleap ⊢
    rw [hfeb] at hday' ⊢
    omega
  · omega

theorem dayNumber_lt (hd : d.Valid) (he : e.Valid) (h : d.Before e) :
    d.dayNumber < e.dayNumber := by
  obtain ⟨_, hdays⟩ := dayInYear_bounds hd
  obtain ⟨hfirst, _⟩ := dayInYear_bounds he
  have hyear : d.marchYear < e.marchYear ∨
      d.marchYear = e.marchYear ∧ d.dayInYear < e.dayInYear := by
    have hlength := day_le_of_valid hd
    obtain ⟨hmonth, hmonth', _⟩ := hd
    obtain ⟨hemonth, hemonth', heday, _⟩ := he
    -- months from March follow each other as months do, within a year and from one to the next
    have hmarch : d.marchYear < e.marchYear ∨ d.marchYear = e.marchYear ∧
        (d.marchMonth < e.marchMonth ∨ d.marchMonth = e.marchMonth ∧ d.day < e.day) := by
      simp only [Before] at h
      simp only [marchYear, marchMonth]
      split <;> split <;> omega
    rcases hmarch with hlt | ⟨heq, hlt | ⟨hmonths, hlt⟩⟩
    · exact .inl hlt
    · refine .inr ⟨heq, ?_⟩
      simp only [dayInYear, monthStart] at hlength ⊢
      omega
    · refine .inr ⟨heq, ?_⟩
      simp only [dayInYear, hmonths]
      omega
  rw [dayNumber_eq, dayNumber_eq]
  rcases hyear with hlt | ⟨heq, hlt⟩
  · have hsucc := yearStart_succ d.marchYear
    have hmono := yearStart_mono (y := d.marchYear + 1) hlt
    omega
  · rw [heq]
    omega

/-- The parts of a day number: its year from March, and how far into that year it lies. -/
theorem exists_march (n : Int) : ∃ y i : Int, n + epochOffset = yearStart y + i ∧ 0 ≤ i ∧
    i < 365 + leapDays (y + 1) ∧ (ofDayNumber n).marchYear = y ∧
    (ofDayNumber n).marchMonth = (5 * i + 2) / 153 ∧
    ((ofDayNumber n).day : Int) = i - monthStart ((5 * i + 2) / 153) + 1 ∧
    1 ≤ (ofDayNumber n).month ∧ (ofDayNumber n).month ≤ 12 := by
  generalize hdays : n + epochOffset = days
  obtain ⟨hfirst, hend, hle, hlt⟩ := yearOfDay_bounds (n := days % 146097) (by omega) (by omega)
  generalize hy : yearOfDay (days % 146097) = y at hfirst hend hle hlt
  have hdate : ofDayNumber n =
      let inYear := days % 146097 - daysBeforeYear y
      let march := (5 * inYear + 2) / 153
      let month := if march < 10 then march + 3 else march - 9
      ⟨y + 400 * (days / 146097) + (if month ≤ 2 then 1 else 0), month.toNat,
        (inYear - monthStart march + 1).toNat⟩ := by
    subst hdays hy
    rfl
  have hstart : days = yearStart (y + 400 * (days / 146097)) +
      (days % 146097 - daysBeforeYear y) := by
    simp only [yearStart, daysBeforeYear]
    omega
  have hshort : days % 146097 - daysBeforeYear y <
      365 + leapDays (y + 400 * (days / 146097) + 1) := by
    rw [show y + 400 * (days / 146097) + 1 = y + 1 + 400 * (days / 146097) by omega,
      leapDays_add_cycles]
    exact lt_yearLength (by omega) hend hlt
  generalize hi : days % 146097 - daysBeforeYear y = i at hdate hstart hshort
  refine ⟨_, i, hstart, by omega, hshort, ?_⟩
  have hleap := leapDays_cases (y + 400 * (days / 146097) + 1)
  have hmarch : 0 ≤ (5 * i + 2) / 153 ∧ (5 * i + 2) / 153 ≤ 11 := by omega
  have hday : 0 ≤ i - monthStart ((5 * i + 2) / 153) := by
    simp only [monthStart]
    omega
  rw [hdate]
  simp only [marchYear, marchMonth]
  generalize (5 * i + 2) / 153 = march at hmarch hday
  refine ⟨?_, ?_, by omega, ?_, ?_⟩
  · split <;> split <;> split <;> omega
  · split <;> omega
  · split <;> omega
  · split <;> omega

theorem dayNumber_ofDayNumber (n : Int) : (ofDayNumber n).dayNumber = n := by
  obtain ⟨y, i, hn, _, _, hyear, hmonth, hday, _⟩ := exists_march n
  rw [dayNumber_eq, dayInYear, hyear, hmonth, hday]
  omega

theorem valid_ofDayNumber (n : Int) : (ofDayNumber n).Valid := by
  obtain ⟨y, i, _, hfirst, hlast, hyear, hmarch, hday, hmonth, hmonth'⟩ := exists_march n
  generalize ofDayNumber n = d at *
  rw [marchMonth] at hmarch
  refine ⟨hmonth, hmonth', ?_, ?_⟩
  · simp only [monthStart] at hday
    omega
  · by_cases hfeb : d.month = 2
    · have hlength := daysInMonth_february d.year
      have hyear' : y + 1 = d.year := by simp [← hyear, marchYear, hfeb]
      rw [hyear'] at hlast
      rw [hfeb] at hmarch ⊢
      simp only [monthStart] at hday
      omega
    · have hlength := daysInMonth_eq d.year hmonth hmonth' hfeb
      rw [hmarch] at hlength
      simp only [monthStart] at hday hlength
      omega

theorem before_trichotomy (d e : Date) : d.Before e ∨ d = e ∨ e.Before d := by
  obtain ⟨year, month, day⟩ := d
  obtain ⟨year', month', day'⟩ := e
  simp only [Before, Date.mk.injEq]
  omega

/-- Dates follow each other as day numbers do. -/
theorem before_ofDayNumber {m n : Int} (h : m < n) : (ofDayNumber m).Before (ofDayNumber n) := by
  rcases before_trichotomy (ofDayNumber m) (ofDayNumber n) with hbefore | heq | hafter
  · exact hbefore
  · have := congrArg dayNumber heq
    rw [dayNumber_ofDayNumber, dayNumber_ofDayNumber] at this
    omega
  · have := dayNumber_lt (valid_ofDayNumber n) (valid_ofDayNumber m) hafter
    rw [dayNumber_ofDayNumber, dayNumber_ofDayNumber] at this
    omega

end Date
end DumpVault.Calendar
