import DumpVault.Text.Digits

/-!
# Decimal text of floating-point numbers

A decimal is rounded to the nearest number with a significand of 53 bits, ties to even, and such a
number is written with the fewest decimal digits that round to it again, without an exponent.
-/
namespace DumpVault.Text

/-- The positive number `significand * 2 ^ exponent`. -/
structure Binary where
  significand : Nat
  exponent : Int
  deriving DecidableEq, Repr

namespace Binary

/-- The least significand of a number of full precision. -/
def leastNormal : Nat := Nat.pow 2 52

def leastExponent : Int := -1074
def greatestExponent : Int := 971

/-- `a * 2 ^ e / b`, rounded to nearest with ties to even. -/
def roundScaled (a b : Nat) (e : Int) : Nat :=
  let num := if 0 ≤ e then a * Nat.pow 2 e.toNat else a
  let den := if 0 ≤ e then b else b * Nat.pow 2 (-e).toNat
  let q := num / den
  let r := num % den
  if den < 2 * r || (2 * r == den && q % 2 == 1) then q + 1 else q

/-- The number nearest to `a / b`; `none` beyond the greatest. -/
def ofRatio? (a b : Nat) : Option Binary :=
  if a == 0 then some ⟨0, 0⟩
  else
    let guess : Int := (Nat.log2 a : Int) - Nat.log2 b - 52
    -- the quotient of `a` and `b` has one binary digit less when `a` is short of `b`'s multiple
    let short := if 0 ≤ guess then a < b * Nat.pow 2 (guess.toNat + 52)
      else a * Nat.pow 2 (-guess).toNat < b * leastNormal
    let e := max (if short then guess - 1 else guess) leastExponent
    let m := roundScaled a b (-e)
    let (m, e) := if m == 2 * leastNormal then (leastNormal, e + 1) else (m, e)
    if greatestExponent < e then none else some ⟨m, e⟩

def ofDecimal? (n : Nat) (e : Int) : Option Binary :=
  let size := (digits n).length + e
  if n == 0 || size < -400 then some ⟨0, 0⟩
  else if 400 < size then none
  else if 0 ≤ e then ofRatio? (n * Nat.pow 10 e.toNat) 1
  else ofRatio? n (Nat.pow 10 (-e).toNat)

/-- The number and the ends of the interval that rounds to it, as multiples of a quarter of its
last binary place. -/
def interval (x : Binary) : Nat × Nat × Nat :=
  let m := 4 * x.significand
  let below := if x.significand == leastNormal && leastExponent < x.exponent then 1 else 2
  (m, m - below, m + 2)

/-- The point of the grid of multiples of `10 ^ k` that rounds to a number and is nearest to it,
for the first grid that has one, from `k` downward. -/
def searchGrid (x : Binary) : Nat → Int → Nat × Int
  | 0, k => (0, k)
  | fuel + 1, k =>
    let (m, low, high) := x.interval
    let e := x.exponent - 2
    -- `m * left` and a grid point `g * right` are compared as whole numbers
    let left := (if 0 ≤ e then Nat.pow 2 e.toNat else 1) *
      (if 0 ≤ k then 1 else Nat.pow 10 (-k).toNat)
    let right := (if 0 ≤ e then 1 else Nat.pow 2 (-e).toNat) *
      (if 0 ≤ k then Nat.pow 10 k.toNat else 1)
    let g := m * left / right
    let hits (g : Nat) : Bool :=
      if x.significand % 2 == 0 then low * left ≤ g * right && g * right ≤ high * left
      else low * left < g * right && g * right < high * left
    if hits g && hits (g + 1) then
      (if 2 * (m * left - g * right) ≤ right then g else g + 1, k)
    else if hits g then (g, k)
    else if hits (g + 1) then (g + 1, k)
    else x.searchGrid fuel (k - 1)

/-- The fewest digits that round to a number, with the power of ten of the last of them. -/
def shortest (x : Binary) : Nat × Int :=
  x.searchGrid 700 (max ((x.exponent + 53) * 3 / 10 + 2) (-330))

def positional (n : Nat) (e : Int) : String :=
  let ds := digits n
  if 0 ≤ e then String.ofList (ds ++ List.replicate e.toNat '0')
  else
    let places := (-e).toNat
    let ds := List.replicate (places + 1 - ds.length) '0' ++ ds
    String.ofList (ds.take (ds.length - places) ++ ['.'] ++ ds.drop (ds.length - places))

def text (x : Binary) : String :=
  if x.significand == 0 then "0"
  else
    let (n, e) := x.shortest
    positional n e

end Binary
end DumpVault.Text
