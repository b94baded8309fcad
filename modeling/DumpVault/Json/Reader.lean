import DumpVault.Text.Quoted
import DumpVault.Text.Shortest

/-!
# Reading JSON

Bytes are read one at a time, and a fault is found at the place behind the last byte looked at.
Only what a reader of plain settings needs is kept: texts, booleans and nulls; any other value is
either passed over or named in a fault.
-/
namespace DumpVault.Json

inductive Problem
  | endOfList | endOfObject | endOfString | endOfValue
  | expectedColon | expectedListEnd | expectedObjectEnd | expectedIdent | expectedValue
  | invalidEscape | invalidNumber | numberOutOfRange | invalidCodePoint | controlCharacter
  | keyNotString | loneSurrogate | unfinishedEscape | trailingComma | trailingCharacters
  | recursionLimit
  | other (text : String)
  deriving DecidableEq, Repr

def Problem.text : Problem → String
  | endOfList => "EOF while parsing a list"
  | endOfObject => "EOF while parsing an object"
  | endOfString => "EOF while parsing a string"
  | endOfValue => "EOF while parsing a value"
  | expectedColon => "expected `:`"
  | expectedListEnd => "expected `,` or `]`"
  | expectedObjectEnd => "expected `,` or `\x7d`"
  | expectedIdent => "expected ident"
  | expectedValue => "expected value"
  | invalidEscape => "invalid escape"
  | invalidNumber => "invalid number"
  | numberOutOfRange => "number out of range"
  | invalidCodePoint => "invalid unicode code point"
  | controlCharacter => "control character (\\u0000-\\u001F) found while parsing a string"
  | keyNotString => "key must be a string"
  | loneSurrogate => "lone leading surrogate in hex escape"
  | unfinishedEscape => "unexpected end of hex escape"
  | trailingComma => "trailing comma"
  | trailingCharacters => "trailing characters"
  | recursionLimit => "recursion limit exceeded"
  | other text => text

structure Fault where
  problem : Problem
  line : Nat
  column : Nat
  deriving DecidableEq, Repr

def Fault.text (f : Fault) : String := s!"{f.problem.text} at line {f.line} column {f.column}"

/-- What is left to read, and the place behind the last byte looked at. -/
structure Cursor where
  rest : List UInt8
  line : Nat := 1
  column : Nat := 0
  peeked : Bool := false

namespace Cursor

/-- Looks at the next byte. -/
def pull (c : Cursor) : Cursor :=
  match c.rest with
  | [] => c
  | b :: _ =>
    if c.peeked then c
    else if b == 10 then { c with line := c.line + 1, column := 0, peeked := true }
    else { c with column := c.column + 1, peeked := true }

def eat (c : Cursor) : Cursor := { c.pull with rest := c.rest.drop 1, peeked := false }

def isBlank (b : UInt8) : Bool := b == 32 || b == 9 || b == 10 || b == 13

/-- Takes blanks, `bytes` being what is left, and looks at the byte behind them. -/
def skip : List UInt8 → Cursor → Cursor
  | [], c => c
  | b :: bytes, c => if isBlank b then skip bytes c.eat else c.pull

end Cursor

abbrev Read := StateT Cursor (Except Fault)

def fail {α : Type} (p : Problem) : Read α := fun c => .error ⟨p, c.line, c.column⟩

def peek : Read (Option UInt8) := modifyGet fun c => (c.rest.head?, c.pull)

def next : Read (Option UInt8) := modifyGet fun c => (c.rest.head?, c.eat)

def eat : Read Unit := modify Cursor.eat

def token : Read (Option UInt8) := do
  modify fun c => Cursor.skip c.rest c
  peek

def byte (c : Char) : UInt8 := c.toNat.toUInt8

def isDigit (b : UInt8) : Bool := byte '0' ≤ b && b ≤ byte '9'

/-- Takes the rest of a literal. -/
def ident : List Char → Read Unit
  | [] => return ()
  | c :: cs => do
    match ← next with
    | none => fail .endOfValue
    | some b => if b == byte c then ident cs else fail .expectedIdent

def nextOfString : Read UInt8 := do
  match ← next with
  | some b => return b
  | none => fail .endOfString

def hexValue? (b : UInt8) : Option Nat :=
  if isDigit b then some (b - byte '0').toNat
  else if byte 'a' ≤ b && b ≤ byte 'f' then some ((b - byte 'a').toNat + 10)
  else if byte 'A' ≤ b && b ≤ byte 'F' then some ((b - byte 'A').toNat + 10)
  else none

def hexEscape : Read Nat := do
  let a ← nextOfString
  let b ← nextOfString
  let c ← nextOfString
  let d ← nextOfString
  match hexValue? a, hexValue? b, hexValue? c, hexValue? d with
  | some a, some b, some c, some d => return 4096 * a + 256 * b + 16 * c + d
  | _, _, _, _ => fail .invalidEscape

/-- Takes an escaped code unit, and the second half of a surrogate pair. -/
def unicodeEscape : Read Char := do
  let n ← hexEscape
  if 0xDC00 ≤ n && n ≤ 0xDFFF then fail .loneSurrogate
  else if n < 0xD800 || 0xDBFF < n then return Char.ofNat n
  else
    if (← nextOfString) != byte '\\' then fail .unfinishedEscape
    if (← nextOfString) != byte 'u' then fail .unfinishedEscape
    let m ← hexEscape
    if m < 0xDC00 || 0xDFFF < m then fail .loneSurrogate
    return Char.ofNat (0x10000 + (n - 0xD800) * 0x400 + (m - 0xDC00))

def shortEscape? (b : UInt8) : Option Char :=
  if b == byte '"' then some '"'
  else if b == byte '\\' then some '\\'
  else if b == byte '/' then some '/'
  else if b == byte 'b' then some '\x08'
  else if b == byte 'f' then some '\x0c'
  else if b == byte 'n' then some '\n'
  else if b == byte 'r' then some '\r'
  else if b == byte 't' then some '\t'
  else none

/-- Takes a string behind its opening quote. The number bounds the bytes read. -/
def stringBytes : Nat → ByteArray → Read ByteArray
  | 0, acc => return acc
  | fuel + 1, acc => do
    let b ← nextOfString
    if b == byte '"' then return acc
    else if b == byte '\\' then
      let e ← nextOfString
      if e == byte 'u' then
        let c ← unicodeEscape
        stringBytes fuel (acc ++ (String.singleton c).toUTF8)
      else
        match shortEscape? e with
        | some c => stringBytes fuel (acc ++ (String.singleton c).toUTF8)
        | none => fail .invalidEscape
    else if b < 32 then fail .controlCharacter
    else stringBytes fuel (acc.push b)

def string (fuel : Nat) : Read String := do
  match String.fromUTF8? (← stringBytes fuel .empty) with
  | some s => return s
  | none => fail .invalidCodePoint

def digits : Nat → List Char → Read (List Char)
  | 0, acc => return acc
  | fuel + 1, acc => do
    match ← peek with
    | some b =>
      if isDigit b then
        eat
        digits fuel (acc ++ [Char.ofNat b.toNat])
      else return acc
    | none => return acc

structure Numeral where
  whole : List Char
  fraction : Option (List Char) := none
  exponent : Option Int := none

def exponent (fuel : Nat) : Read Int := do
  eat
  let sign ← peek
  let negative := sign == some (byte '-')
  if negative || sign == some (byte '+') then eat
  match ← next with
  | none => fail .endOfValue
  | some b =>
    if isDigit b then
      let ds ← digits fuel [Char.ofNat b.toNat]
      let n : Int := Text.valueOf ds
      return if negative then -n else n
    else fail .invalidNumber

def numeral (fuel : Nat) : Read Numeral := do
  let whole ← match ← next with
    | none => fail .endOfValue
    | some b =>
      if b == byte '0' then
        match ← peek with
        | some d => if isDigit d then fail .invalidNumber else pure ['0']
        | none => pure ['0']
      else if isDigit b then digits fuel [Char.ofNat b.toNat]
      else fail .invalidNumber
  let fraction ← if (← peek) == some (byte '.') then do
      eat
      let ds ← digits fuel []
      if ds.isEmpty then
        if (← peek).isNone then fail .endOfValue else fail .invalidNumber
      pure (some ds)
    else pure none
  let mark ← peek
  let e ← if mark == some (byte 'e') || mark == some (byte 'E') then some <$> exponent fuel
    else pure none
  return ⟨whole, fraction, e⟩

/-- The least digits of a number: positional up to the sixteenth place before the point and the
fifth behind it. -/
def floatText (x : Text.Binary) : String :=
  let (n, e) := if x.significand == 0 then (0, 0) else x.shortest
  let ds := Text.digits n
  let place : Int := ds.length + e
  if 0 ≤ e && place ≤ 16 then Text.Binary.positional n e ++ ".0"
  else if -5 < place && place ≤ 16 then Text.Binary.positional n e
  else
    let mantissa := match ds with
      | [] => []
      | [d] => [d]
      | d :: rest => d :: '.' :: rest
    String.ofList mantissa ++ "e" ++ Text.intText (place - 1)

def Numeral.described (n : Numeral) (negative : Bool) : Option String :=
  let sign := if negative then "-" else ""
  let value := Text.valueOf n.whole
  let fits := if negative then value ≤ Nat.pow 2 63 && value != 0 else value < Nat.pow 2 64
  match n.fraction, n.exponent, fits with
  | none, none, true => some ("integer `" ++ sign ++ Text.natText value ++ "`")
  | fraction, exponent, _ =>
    let fraction := fraction.getD []
    (Text.Binary.ofDecimal? (Text.valueOf (n.whole ++ fraction))
      (exponent.getD 0 - fraction.length)).map fun x =>
        "floating point `" ++ sign ++ floatText x ++ "`"

def mismatch (found expected : String) : Problem :=
  .other ("invalid type: " ++ found ++ ", expected " ++ expected)

/-- Refuses the next value, which is of none of the expected types. -/
def refuse {α : Type} (fuel : Nat) (expected : String) : Read α := do
  match ← peek with
  | none => fail .expectedValue
  | some b =>
    if b == byte 'n' then
      eat
      ident ['u', 'l', 'l']
      fail (mismatch "null" expected)
    else if b == byte 't' then
      eat
      ident ['r', 'u', 'e']
      fail (mismatch "boolean `true`" expected)
    else if b == byte 'f' then
      eat
      ident ['a', 'l', 's', 'e']
      fail (mismatch "boolean `false`" expected)
    else if b == byte '-' || isDigit b then
      let negative := b == byte '-'
      if negative then eat
      match (← numeral fuel).described negative with
      | some found => fail (mismatch found expected)
      | none => fail .numberOutOfRange
    else if b == byte '"' then
      eat
      let s ← string fuel
      fail (mismatch ("string " ++ Text.quoted s) expected)
    else if b == byte '[' then fail (mismatch "sequence" expected)
    else if b == byte '\x7b' then fail (mismatch "map" expected)
    else fail .expectedValue

def valueStart : Read UInt8 := do
  match ← token with
  | some b => return b
  | none => fail .endOfValue

def text (fuel : Nat) : Read String := do
  if (← valueStart) == byte '"' then
    eat
    string fuel
  else refuse fuel "a string"

def textOrNull (fuel : Nat) : Read (Option String) := do
  if (← token) == some (byte 'n') then
    eat
    ident ['u', 'l', 'l']
    return none
  else some <$> text fuel

def bool (fuel : Nat) : Read Bool := do
  let b ← valueStart
  if b == byte 't' then
    eat
    ident ['r', 'u', 'e']
    return true
  else if b == byte 'f' then
    eat
    ident ['a', 'l', 's', 'e']
    return false
  else refuse fuel "a boolean"

def skipString : Nat → Read Unit
  | 0 => return ()
  | fuel + 1 => do
    let b ← nextOfString
    if b == byte '"' then return ()
    else if b == byte '\\' then
      let e ← nextOfString
      if e == byte 'u' then
        let _ ← hexEscape
        skipString fuel
      else if (shortEscape? e).isSome then skipString fuel
      else fail .invalidEscape
    else if b < 32 then fail .controlCharacter
    else skipString fuel

def skipName (fuel : Nat) : Read Unit := do
  match ← token with
  | none => fail .endOfObject
  | some b =>
    if b != byte '"' then fail .keyNotString
    eat
    skipString fuel
    match ← token with
    | none => fail .endOfObject
    | some b => if b == byte ':' then eat else fail .expectedColon

mutual

/-- Passes a value over. The number bounds the values and their parts. -/
def skipValue : Nat → Read Unit
  | 0 => return ()
  | fuel + 1 => do
    let b ← valueStart
    if b == byte 'n' then
      eat
      ident ['u', 'l', 'l']
    else if b == byte 't' then
      eat
      ident ['r', 'u', 'e']
    else if b == byte 'f' then
      eat
      ident ['a', 'l', 's', 'e']
    else if b == byte '-' || isDigit b then
      if b == byte '-' then eat
      let _ ← numeral fuel
      return ()
    else if b == byte '"' then
      eat
      skipString fuel
    else if b == byte '[' then
      eat
      match ← token with
      | none => fail .endOfList
      | some c => if c == byte ']' then eat else skipItems fuel
    else if b == byte '\x7b' then
      eat
      match ← token with
      | none => fail .endOfObject
      | some c => if c == byte '\x7d' then eat else skipMembers fuel
    else fail .expectedValue

def skipItems : Nat → Read Unit
  | 0 => return ()
  | fuel + 1 => do
    skipValue fuel
    match ← token with
    | none => fail .endOfList
    | some c =>
      if c == byte ',' then
        eat
        skipItems fuel
      else if c == byte ']' then eat
      else fail .expectedListEnd

def skipMembers : Nat → Read Unit
  | 0 => return ()
  | fuel + 1 => do
    skipName fuel
    skipValue fuel
    match ← token with
    | none => fail .endOfObject
    | some c =>
      if c == byte ',' then
        eat
        skipMembers fuel
      else if c == byte '\x7d' then eat
      else fail .expectedObjectEnd

end

end DumpVault.Json
