import DumpVault.Calendar.Instant
import DumpVault.Text.Blank
import DumpVault.Text.Digits

/-!
# Time stamps

The written form of an instant to the second, `YYYY-MM-DDThh:mm:ssZ`. Years outside 0 to 9999
carry a sign and have at least four digits, and a leap second is second 60. Reading is more
lenient than writing: blanks may stand before a number, a number may be short, and a year may
carry a sign.
-/
namespace DumpVault.Calendar
open Text

def yearText (year : Int) : List Char :=
  if 0 ≤ year ∧ year ≤ 9999 then padded 4 year.toNat
  else (if year < 0 then '-' else '+') :: padded 4 year.natAbs

def Instant.stampChars (t : Instant) : List Char :=
  let d := t.date
  let s := t.secondOfDay
  yearText d.year ++ ['-'] ++ padded 2 d.month ++ ['-'] ++ padded 2 d.day ++ ['T'] ++
    padded 2 (s / 3600) ++ [':'] ++ padded 2 (s / 60 % 60) ++ [':'] ++
    padded 2 (if t.isLeapSecond then 60 else s % 60) ++ ['Z']

def Instant.stamp (t : Instant) : String := String.ofList t.stampChars

namespace Stamp

/-- Reads a number of one to `most` digits after any blanks. -/
def number? (most : Nat) (cs : List Char) : Option (Nat × List Char) :=
  match takeDigits most (cs.dropWhile isBlank) with
  | ([], _) => none
  | (ds, rest) => some (valueOf ds, rest)

/-- Reads digits at once, as many as there are. -/
def unbounded? (cs : List Char) : Option (Nat × List Char) :=
  match takeDigits cs.length cs with
  | ([], _) => none
  | (ds, rest) => some (valueOf ds, rest)

/-- Reads a year: up to four digits, or a sign and any number of digits. -/
def year? (cs : List Char) : Option (Int × List Char) :=
  match cs.dropWhile isBlank with
  | '-' :: rest => (unbounded? rest).map fun (n, rest) => (-(n : Int), rest)
  | '+' :: rest => (unbounded? rest).map fun (n, rest) => ((n : Int), rest)
  | cs => (number? 4 cs).map fun (n, rest) => ((n : Int), rest)

def exactly? (c : Char) : List Char → Option (List Char)
  | d :: rest => if d = c then some rest else none
  | [] => none

/-- The instant of a date and a time of day, where second 60 is the leap second. -/
def assemble? (d : Date) (hour minute second : Nat) : Option Instant :=
  if d.Valid ∧ hour < 24 ∧ minute < 60 ∧ second ≤ 60 then
    let start := 86400 * d.dayNumber + 3600 * hour + 60 * minute
    if second = 60 then Instant.ofParts? (start + 59) 1000000000
    else Instant.ofParts? (start + second) 0
  else none

def readChars? (cs : List Char) : Option Instant := do
  let (year, cs) ← year? cs
  let cs ← exactly? '-' cs
  let (month, cs) ← number? 2 cs
  let cs ← exactly? '-' cs
  let (day, cs) ← number? 2 cs
  let cs ← exactly? 'T' cs
  let (hour, cs) ← number? 2 cs
  let cs ← exactly? ':' cs
  let (minute, cs) ← number? 2 cs
  let cs ← exactly? ':' cs
  let (second, cs) ← number? 2 cs
  let cs ← exactly? 'Z' cs
  if cs.isEmpty then assemble? ⟨year, month, day⟩ hour minute second else none

def read? (s : String) : Option Instant := readChars? s.toList

end Stamp
end DumpVault.Calendar
