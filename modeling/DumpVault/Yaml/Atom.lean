import DumpVault.Text.Shortest
import DumpVault.Text.Quoted
import DumpVault.Yaml.ScalarText

/-!
# The meaning of plain scalars

A plain scalar is a null, a boolean, a whole number, a floating-point number or else a text. Digits
behind a leading zero are a text, and so is a number too large for its kind.
-/
namespace DumpVault.Yaml
open Text

inductive Atom
  | null
  | bool (value : Bool)
  /-- A whole number of at most 64 bits, with or without sign. -/
  | int (value : Int)
  /-- A whole number of at most 128 bits. -/
  | wideInt (value : Int)
  | float (negative : Bool) (size : Option Binary)
  | notANumber
  | text (value : String)
  deriving DecidableEq, Repr

namespace Atom

def isNull (s : String) : Bool := ["null", "Null", "NULL", "~"].contains s

def bool? (s : String) : Option Bool :=
  if ["true", "True", "TRUE"].contains s then some true
  else if ["false", "False", "FALSE"].contains s then some false
  else none

def isSign (c : Char) : Bool := c == '+' || c == '-'

def startsWithSign (cs : List Char) : Bool := cs.head?.any isSign

def dropPlus (cs : List Char) : List Char := if cs.head? == some '+' then cs.drop 1 else cs

/-- Digits behind a leading zero, perhaps after a sign. -/
def isPaddedDigits (cs : List Char) : Bool :=
  let cs := if startsWithSign cs then cs.drop 1 else cs
  1 < cs.length && cs.head? == some '0' && cs.all isDigit

def radixDigit? (radix : Nat) (c : Char) : Option Nat :=
  let n := if isDigit c then some (digitValue c)
    else if 'a' ≤ c && c ≤ 'z' then some (c.toNat - 87)
    else if 'A' ≤ c && c ≤ 'Z' then some (c.toNat - 55)
    else none
  n.filter (· < radix)

def natOf? (radix : Nat) (cs : List Char) : Option Nat :=
  if cs.isEmpty then none
  else cs.foldlM (fun n c => (radixDigit? radix c).map (radix * n + ·)) 0

def radixOf? : List Char → Option (Nat × List Char)
  | '0' :: 'x' :: rest => some (16, rest)
  | '0' :: 'o' :: rest => some (8, rest)
  | '0' :: 'b' :: rest => some (2, rest)
  | _ => none

/-- A whole number without a minus sign, below `bound`. -/
def unsigned? (bound : Nat) (cs : List Char) : Option Nat :=
  let digits := dropPlus cs
  let announced := do
    let (radix, rest) ← radixOf? digits
    natOf? radix rest
  match radixOf? digits, announced.filter (· < bound) with
  | some _, some n => some n
  | _, _ =>
    if startsWithSign digits || isPaddedDigits cs then none
    else (natOf? 10 digits).filter (· < bound)

/-- A whole number with a minus sign, at least `-bound`. -/
def negative? (bound : Nat) (cs : List Char) : Option Int :=
  match cs with
  | '-' :: digits =>
    let announced := do
      let (radix, rest) ← radixOf? digits
      natOf? radix rest
    match announced.filter (· ≤ bound) with
    | some n => some (-(n : Int))
    | none =>
      if isPaddedDigits cs then none
      else ((natOf? 10 digits).filter (· ≤ bound)).map fun n => -(n : Int)
  | _ => none

def int? (cs : List Char) : Option Atom :=
  match unsigned? (Nat.pow 2 64) cs with
  | some n => some (.int n)
  | none =>
    match negative? (Nat.pow 2 63) cs with
    | some n => some (.int n)
    | none =>
      match unsigned? (Nat.pow 2 128) cs with
      | some n => some (.wideInt n)
      | none => (negative? (Nat.pow 2 127) cs).map .wideInt

/-- The exponent of a decimal: nothing, or `e` and a number that may have a sign. -/
def exponent? : List Char → Option Int
  | [] => some 0
  | c :: rest =>
    if c == 'e' || c == 'E' then
      match rest with
      | '-' :: ds => (natOf? 10 ds).map fun n => -(n : Int)
      | '+' :: ds => (natOf? 10 ds).map fun n => (n : Int)
      | ds => (natOf? 10 ds).map fun n => (n : Int)
    else none

/-- A decimal with at least one digit, as a whole number and a power of ten. -/
def decimal? (cs : List Char) : Option (Nat × Int) := do
  let whole := cs.takeWhile isDigit
  let rest := cs.dropWhile isDigit
  let (fraction, rest) := match rest with
    | '.' :: rest => (rest.takeWhile isDigit, rest.dropWhile isDigit)
    | rest => ([], rest)
  if whole.isEmpty && fraction.isEmpty then none
  let e ← exponent? rest
  return (valueOf (whole ++ fraction), e - fraction.length)

def float? (cs : List Char) : Option Atom :=
  let s := String.ofList cs
  let plusless := dropPlus cs
  if cs.head? == some '+' && startsWithSign plusless then none
  else if [".inf", ".Inf", ".INF"].contains (String.ofList plusless) then some (.float false none)
  else if ["-.inf", "-.Inf", "-.INF"].contains s then some (.float true none)
  else if [".nan", ".NaN", ".NAN"].contains s then some .notANumber
  else
    let negative := plusless.head? == some '-'
    let digits := if negative then plusless.drop 1 else plusless
    match decimal? digits with
    | some (n, e) => (Binary.ofDecimal? n e).map fun x => .float negative (some x)
    | none => none

def ofPlain (s : String) : Atom :=
  let cs := s.toList
  if s == "" || isNull s then .null
  else
    match bool? s with
    | some b => .bool b
    | none =>
      match int? cs with
      | some a => a
      | none => if isPaddedDigits cs then .text s else (float? cs).getD (.text s)

def floatText (negative : Bool) (size : Option Binary) : String :=
  let body := match size with
    | none => "inf"
    | some x => let t := x.text; if t.toList.contains '.' then t else t ++ ".0"
  (if negative then "-" else "") ++ body

def described : Atom → String
  | null => "unit value"
  | bool b => s!"boolean `{b}`"
  | int n => s!"integer `{n}`"
  | wideInt n => s!"integer `{n}` as " ++ (if n < 0 then "i128" else "u128")
  | float negative size => s!"floating point `{floatText negative size}`"
  | notANumber => "floating point `NaN`"
  | text s => "string " ++ quoted s

end Atom
end DumpVault.Yaml
