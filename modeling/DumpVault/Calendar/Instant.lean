import DumpVault.Calendar.Date

/-!
# Instants

An instant is a number of seconds from 1 January 1970 and a number of nanoseconds into that
second. The last second of a minute may be two seconds long: its second half is a leap second,
written as second 60. Instants lie in the years -262143 to 262142.
-/
namespace DumpVault.Calendar

def firstSecond : Int := -8334601228800
def lastSecond : Int := 8210266876799

/-- The pairs of seconds and nanoseconds that name an instant. -/
def InRange (seconds : Int) (nanos : Nat) : Prop :=
  firstSecond ≤ seconds ∧ seconds ≤ lastSecond ∧
    (nanos < 1000000000 ∨ nanos < 2000000000 ∧ seconds % 60 = 59)

instance (seconds : Int) (nanos : Nat) : Decidable (InRange seconds nanos) := by
  unfold InRange; infer_instance

structure Instant where
  seconds : Int
  nanos : Nat
  inRange : InRange seconds nanos
  deriving DecidableEq

namespace Instant

def ofParts? (seconds : Int) (nanos : Nat) : Option Instant :=
  if h : InRange seconds nanos then some ⟨seconds, nanos, h⟩ else none

def epoch : Instant := ⟨0, 0, by decide⟩

instance : Inhabited Instant := ⟨epoch⟩

def isLeapSecond (t : Instant) : Bool := 1000000000 ≤ t.nanos

/-- The start of the second that an instant lies in; a leap second is a second of its own. -/
def truncated (t : Instant) : Instant :=
  ⟨t.seconds, if t.isLeapSecond then 1000000000 else 0, by
    obtain ⟨h₁, h₂, h₃⟩ := t.inRange
    refine ⟨h₁, h₂, ?_⟩
    by_cases h : t.isLeapSecond = true
    · have hn : 1000000000 ≤ t.nanos := by simpa [isLeapSecond] using h
      simp only [h, if_true]
      omega
    · simp [h]⟩

def date (t : Instant) : Date := Date.ofDayNumber (t.seconds / 86400)

def secondOfDay (t : Instant) : Nat := (t.seconds % 86400).toNat

end Instant
end DumpVault.Calendar
