/-!
# Dates

Dates of the proleptic Gregorian calendar and their count of days from 1 January 1970. Years are
counted astronomically, so year 0 comes before year 1.
-/
namespace DumpVault.Calendar

structure Date where
  year : Int
  month : Nat
  day : Nat
  deriving DecidableEq, Repr

def isLeap (year : Int) : Bool :=
  year % 4 == 0 && (year % 100 != 0 || year % 400 == 0)

def daysInMonth (year : Int) (month : Nat) : Nat :=
  if month == 2 then (if isLeap year then 29 else 28)
  else if month == 4 || month == 6 || month == 9 || month == 11 then 30
  else 31

namespace Date

def Valid (d : Date) : Prop :=
  1 ≤ d.month ∧ d.month ≤ 12 ∧ 1 ≤ d.day ∧ d.day ≤ daysInMonth d.year d.month

instance (d : Date) : Decidable d.Valid := by unfold Valid; infer_instance

/-- Days from 1 March of year 0 to 1 January 1970. -/
def epochOffset : Int := 719468

/-- Days from 1 January 1970. The year is taken to begin in March, which puts the leap day last;
a month then starts `(153 m + 2) / 5` days into its year. -/
def dayNumber (d : Date) : Int :=
  let year := if d.month ≤ 2 then d.year - 1 else d.year
  let month : Int := (d.month + 9) % 12
  365 * year + year / 4 - year / 100 + year / 400 + (153 * month + 2) / 5 + (d.day - 1)
    - epochOffset

def ofDayNumber (n : Int) : Date :=
  let days := n + epochOffset
  let cycle := days / 146097
  let inCycle := days % 146097
  let yearOfCycle := (inCycle - inCycle / 1460 + inCycle / 36524 - inCycle / 146096) / 365
  let inYear := inCycle - (365 * yearOfCycle + yearOfCycle / 4 - yearOfCycle / 100)
  let march := (5 * inYear + 2) / 153
  let day := inYear - (153 * march + 2) / 5 + 1
  let month := if march < 10 then march + 3 else march - 9
  let year := yearOfCycle + 400 * cycle + (if month ≤ 2 then 1 else 0)
  ⟨year, month.toNat, day.toNat⟩

example : ofDayNumber 0 = ⟨1970, 1, 1⟩ := by decide
example : (⟨2000, 2, 29⟩ : Date).dayNumber = 11016 := by decide
example : ofDayNumber 11016 = ⟨2000, 2, 29⟩ := by decide

end Date
end DumpVault.Calendar
