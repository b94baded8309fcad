/-!
# Positions and problems of a document

A mark is a place in a document, counted from zero in characters, lines and columns. A problem
says what is wrong at one mark and, often, what was being read and where that began.
-/
namespace DumpVault.Yaml

structure Mark where
  index : Nat := 0
  line : Nat := 0
  column : Nat := 0
  deriving DecidableEq, Repr, Inhabited

namespace Mark

def start : Mark := {}

/-- The first column of the first line, which is left out of messages. -/
def isOrigin (m : Mark) : Bool := m.line == 0 && m.column == 0

def samePlace (a b : Mark) : Bool := a.line == b.line && a.column == b.column

def text (m : Mark) : String :=
  if m.isOrigin then s!"position {m.index}" else s!"line {m.line + 1} column {m.column + 1}"

def next (m : Mark) : Mark := { m with index := m.index + 1, column := m.column + 1 }

/-- The mark after a line break of `width` characters. -/
def nextLine (m : Mark) (width : Nat) : Mark := ⟨m.index + width, m.line + 1, 0⟩

end Mark

structure Problem where
  what : String
  mark : Mark := {}
  /-- A place in bytes, for what is wrong with the characters themselves. -/
  offset : Nat := 0
  context : Option (String × Mark) := none
  deriving DecidableEq, Repr

namespace Problem

def placeText (p : Problem) : String :=
  if !p.mark.isOrigin then " at " ++ p.mark.text
  else if p.offset != 0 then s!" at position {p.offset}"
  else ""

def contextText (p : Problem) : String :=
  match p.context with
  | none => ""
  | some (what, mark) =>
    ", " ++ what ++
      (if !mark.isOrigin && !mark.samePlace p.mark then " at " ++ mark.text else "")

def text (p : Problem) : String := p.what ++ p.placeText ++ p.contextText

end Problem
end DumpVault.Yaml
