import DumpVault.Yaml.Mark

/-!
# Reading characters

A cursor is what is left of a document and the mark reached. Line breaks are those of YAML 1.1:
carriage return and line feed, alone or together, next line, line separator and paragraph
separator. The end of the document counts as a break and as a blank wherever a rule asks whether a
word has ended.
-/
namespace DumpVault.Yaml

def isBreak (c : Char) : Bool :=
  c == '\r' || c == '\n' || c == '\u0085' || c == '\u2028' || c == '\u2029'

def isSpaceOrTab (c : Char) : Bool := c == ' ' || c == '\t'

def isWordChar (c : Char) : Bool := c.isAlphanum || c == '_' || c == '-'

def isHexDigit (c : Char) : Bool :=
  c.isDigit || ('a' ≤ c && c ≤ 'f') || ('A' ≤ c && c ≤ 'F')

def hexValue (c : Char) : Nat :=
  if c.isDigit then c.toNat - 48
  else if 'a' ≤ c && c ≤ 'f' then c.toNat - 87
  else c.toNat - 55

structure Cursor where
  rest : List Char
  mark : Mark
  deriving Repr, Inhabited

namespace Cursor

def peek (c : Cursor) : Option Char := c.rest.head?

def peekAt (c : Cursor) (n : Nat) : Option Char := (c.rest.drop n).head?

def looksAt (c : Cursor) (ch : Char) (n : Nat) : Bool := c.peekAt n == some ch

def isEnd (c : Cursor) : Bool := c.rest.isEmpty

def atBreak (c : Cursor) : Bool := c.peek.any isBreak
def atBreakOrEnd (c : Cursor) : Bool := c.peek.all isBreak
def atSpaceOrTab (c : Cursor) : Bool := c.peek.any isSpaceOrTab

/-- A space, a tab, a break or the end stands at an offset. -/
def blankAt (c : Cursor) (n : Nat) : Bool :=
  (c.peekAt n).all fun ch => isSpaceOrTab ch || isBreak ch

def skip (c : Cursor) : Cursor := ⟨c.rest.drop 1, c.mark.next⟩

def skipN (c : Cursor) : Nat → Cursor
  | 0 => c
  | n + 1 => c.skip.skipN n

/-- Passes over a line break, a carriage return with its line feed at once. -/
def skipLine (c : Cursor) : Cursor :=
  match c.rest with
  | '\r' :: '\n' :: rest => ⟨rest, c.mark.nextLine 2⟩
  | ch :: rest => if isBreak ch then ⟨rest, c.mark.nextLine 1⟩ else c
  | [] => c

/-- The text that a line break stands for: a line feed, or the separator itself. -/
def breakText (c : Cursor) : List Char :=
  match c.rest with
  | ch :: _ => if ch == '\u2028' || ch == '\u2029' then [ch] else if isBreak ch then ['\n'] else []
  | [] => []

/-- Passes over the characters in front that satisfy `p`, none of which is a break. -/
def skipWhile (p : Char → Bool) (c : Cursor) : Cursor :=
  let taken := (c.rest.takeWhile p).length
  ⟨c.rest.dropWhile p, { c.mark with
    index := c.mark.index + taken, column := c.mark.column + taken }⟩

def takeWhile (p : Char → Bool) (c : Cursor) : List Char × Cursor :=
  (c.rest.takeWhile p, c.skipWhile p)

def skipBlanks (c : Cursor) : Cursor := c.skipWhile isSpaceOrTab

def skipComment (c : Cursor) : Cursor :=
  if c.peek == some '#' then c.skipWhile fun ch => !isBreak ch else c

/-- Three equal characters at the start of a line, followed by a blank: a document marker. -/
def atMarker (c : Cursor) (ch : Char) : Bool :=
  c.mark.column == 0 && c.looksAt ch 0 && c.looksAt ch 1 && c.looksAt ch 2 && c.blankAt 3

end Cursor

/-- Repeats a step until it gives a result, at most `fuel` times. -/
def repeatStep {σ α ε : Type} (step : σ → Except ε (σ ⊕ α)) (otherwise : σ → α) :
    Nat → σ → Except ε α
  | 0, s => .ok (otherwise s)
  | fuel + 1, s =>
    match step s with
    | .error e => .error e
    | .ok (.inr a) => .ok a
    | .ok (.inl s) => repeatStep step otherwise fuel s

end DumpVault.Yaml
