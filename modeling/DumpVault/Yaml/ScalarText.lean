import DumpVault.Yaml.Cursor

/-!
# The text of scalars

Scalars are written plain, in single or double quotes, or as indented blocks. Line breaks within
the first three fold: one break becomes a space, and of several the first is dropped.
-/
namespace DumpVault.Yaml

inductive ScalarStyle
  | plain | singleQuoted | doubleQuoted | literal | folded
  deriving DecidableEq, Repr

structure Gap where
  spaces : List Char := []
  firstBreak : List Char := []
  moreBreaks : List Char := []
  /-- A line break has been passed, so that further blanks are indentation. -/
  broken : Bool := false
  deriving Repr

namespace Gap

def fold (g : Gap) : List Char :=
  if g.broken then
    if g.firstBreak.head? == some '\n' then
      if g.moreBreaks.isEmpty then [' '] else g.moreBreaks
    else g.firstBreak ++ g.moreBreaks
  else g.spaces

def extend (g : Gap) (c : Cursor) : Gap × Cursor :=
  if c.atSpaceOrTab then
    if g.broken then (g, c.skip)
    else ({ g with spaces := g.spaces ++ c.rest.take 1 }, c.skip)
  else if g.broken then ({ g with moreBreaks := g.moreBreaks ++ c.breakText }, c.skipLine)
  else ({ g with spaces := [], firstBreak := c.breakText, broken := true }, c.skipLine)

/-- Reads white space up to the next word. `indent` bounds tabs in indentation from the left. -/
def read (start : Mark) (indent : Option Int) (g : Gap) (c : Cursor) :
    Except Problem (Gap × Cursor) :=
  repeatStep (fun (g, c) =>
    if c.atSpaceOrTab || c.atBreak then
      if g.broken && c.peek == some '\t' && indent.any fun i => (c.mark.column : Int) < i then
        .error { what := "found a tab character that violates indentation", mark := c.mark,
                 context := some ("while scanning a plain scalar", start) }
      else .ok (.inl (g.extend c))
    else .ok (.inr (g, c))) id (c.rest.length + 1) (g, c)

end Gap

def isFlowIndicator (c : Char) : Bool :=
  c == ',' || c == '[' || c == ']' || c == '{' || c == '}'

def plainWord (flow : Bool) (start : Mark) (c : Cursor) : Except Problem (List Char × Cursor) :=
  repeatStep (fun (word, c) =>
    match c.peek with
    | none => .ok (.inr (word, c))
    | some ch =>
      if isSpaceOrTab ch || isBreak ch then .ok (.inr (word, c))
      else if flow && ch == ':' && (c.peekAt 1).any fun d => isFlowIndicator d || d == '?' then
        .error { what := "found unexpected ':'", mark := c.mark,
                 context := some ("while scanning a plain scalar", start) }
      else if (ch == ':' && c.blankAt 1) || (flow && isFlowIndicator ch) then
        .ok (.inr (word, c))
      else .ok (.inl (word ++ [ch], c.skip))) id (c.rest.length + 1) ([], c)

/-- A plain scalar and whether it ends after a line break, behind which a key may start. -/
structure Plain where
  text : List Char
  newLine : Bool

/-- Reads a plain scalar whose further lines are indented by at least `indent`. -/
def readPlain (flow : Bool) (indent : Int) (c : Cursor) : Except Problem (Plain × Cursor) :=
  let start := c.mark
  repeatStep (fun ((text, gap), c) => do
    let stop : (List Char × Gap) × Cursor ⊕ Plain × Cursor := .inr (⟨text, gap.broken⟩, c)
    if c.atMarker '-' || c.atMarker '.' || c.peek == some '#' then return stop
    let (word, c) ← plainWord flow start c
    let (text, broken) :=
      if word.isEmpty then (text, gap.broken) else (text ++ gap.fold ++ word, false)
    if !(c.atSpaceOrTab || c.atBreak) then return .inr (⟨text, broken⟩, c)
    let (gap, c) ← Gap.read start (some indent) {} c
    if !flow && (c.mark.column : Int) < indent then return .inr (⟨text, gap.broken⟩, c)
    return .inl ((text, gap), c)) (fun ((text, gap), c) => (⟨text, gap.broken⟩, c))
    (c.rest.length + 1) (([], {}), c)

def escapeChar? : Char → Option Char
  | '0' => some '\x00'
  | 'a' => some '\x07'
  | 'b' => some '\x08'
  | 't' | '\t' => some '\t'
  | 'n' => some '\n'
  | 'v' => some '\x0b'
  | 'f' => some '\x0c'
  | 'r' => some '\r'
  | 'e' => some '\x1b'
  | ' ' => some ' '
  | '"' => some '"'
  | '/' => some '/'
  | '\\' => some '\\'
  | 'N' => some '\u0085'
  | '_' => some '\u00a0'
  | 'L' => some '\u2028'
  | 'P' => some '\u2029'
  | _ => none

def escapeWidth? : Char → Option Nat
  | 'x' => some 2
  | 'u' => some 4
  | 'U' => some 8
  | _ => none

def quotedProblem (what : String) (mark start : Mark) : Problem :=
  { what, mark, context := some ("while parsing a quoted scalar", start) }

def readEscape (start : Mark) (c : Cursor) : Except Problem (Char × Cursor) :=
  match c.peekAt 1 with
  | none => .error (quotedProblem "found unknown escape character" c.mark start)
  | some ch =>
    match escapeChar? ch with
    | some plain => .ok (plain, c.skipN 2)
    | none =>
      match escapeWidth? ch with
      | none => .error (quotedProblem "found unknown escape character" c.mark start)
      | some width =>
        let c := c.skipN 2
        let ds := c.rest.take width
        if ds.length < width || !ds.all isHexDigit then
          .error (quotedProblem "did not find expected hexdecimal number" c.mark start)
        else
          let value := ds.foldl (fun n d => 16 * n + hexValue d) 0
          if value.isValidChar then .ok (Char.ofNat value, c.skipN width)
          else .error (quotedProblem "found invalid Unicode character escape code" c.mark start)

/-- Characters of a quoted scalar up to a blank, the closing quote or an escaped line break, and
whether it was the last of these. -/
def quotedRun (single : Bool) (start : Mark) (c : Cursor) :
    Except Problem ((List Char × Bool) × Cursor) :=
  let quote := if single then '\'' else '"'
  repeatStep (fun (text, c) => do
    match c.peek with
    | none => return .inr ((text, false), c)
    | some ch =>
      if isSpaceOrTab ch || isBreak ch then return .inr ((text, false), c)
      if single && ch == '\'' && c.looksAt '\'' 1 then return .inl (text ++ ['\''], c.skipN 2)
      if ch == quote then return .inr ((text, false), c)
      if !single && ch == '\\' then
        if (c.peekAt 1).any isBreak then return .inr ((text, true), c.skip.skipLine)
        let (plain, c) ← readEscape start c
        return .inl (text ++ [plain], c)
      return .inl (text ++ [ch], c.skip)) (fun (text, c) => ((text, false), c))
    (c.rest.length + 1) ([], c)

def readQuoted (single : Bool) (c : Cursor) : Except Problem (List Char × Cursor) :=
  let start := c.mark
  let quote := if single then '\'' else '"'
  let problem (what : String) (c : Cursor) : Problem :=
    { what, mark := c.mark, context := some ("while scanning a quoted scalar", start) }
  repeatStep (fun (text, c) => do
    if c.atMarker '-' || c.atMarker '.' then
      throw (problem "found unexpected document indicator" c)
    if c.isEnd then throw (problem "found unexpected end of stream" c)
    let ((run, broken), c) ← quotedRun single start c
    let text := text ++ run
    if c.peek == some quote then return .inr (text, c.skip)
    let (gap, c) ← Gap.read start none { broken } c
    return .inl (text ++ gap.fold, c)) id (c.rest.length + 1) ([], c.skip)

inductive Chomping
  | strip | clip | keep
  deriving DecidableEq, Repr

def chomping? : Option Char → Option Chomping
  | some '+' => some .keep
  | some '-' => some .strip
  | _ => none

def blockProblem (what : String) (mark start : Mark) : Problem :=
  { what, mark, context := some ("while scanning a block scalar", start) }

def blockIncrement (start : Mark) (c : Cursor) : Except Problem (Option Nat × Cursor) :=
  match c.peek with
  | some ch =>
    if ch == '0' then
      .error (blockProblem "found an indentation indicator equal to 0" c.mark start)
    else if ch.isDigit then .ok (some (ch.toNat - 48), c.skip)
    else .ok (none, c)
  | none => .ok (none, c)

/-- The header of a block: its chomping and the indentation asked for, in either order. -/
def blockHeader (start : Mark) (c : Cursor) :
    Except Problem ((Chomping × Option Nat) × Cursor) := do
  match chomping? c.peek with
  | some chomping =>
    let (increment, c) ← blockIncrement start c.skip
    return ((chomping, increment), c)
  | none =>
    let (increment, c) ← blockIncrement start c
    match increment, chomping? c.peek with
    | some n, some chomping => return ((chomping, some n), c.skip)
    | increment, _ => return ((.clip, increment), c)

/-- Reads indentation and empty lines in front of a line of a block. Without an indentation yet,
the deepest of those lines and the next sets it, but at least one more than `outer`. -/
def blockBreaks (start : Mark) (outer : Int) (indent : Nat) (c : Cursor) :
    Except Problem ((Nat × List Char) × Cursor) :=
  let settle (deepest : Nat) : Nat :=
    if indent == 0 then max (max deepest (outer + 1).toNat) 1 else indent
  repeatStep (fun ((deepest, breaks), c) =>
    let room := if indent == 0 then c.rest.length else indent - c.mark.column
    let spaces := ((c.rest.take room).takeWhile (· == ' ')).length
    let c := c.skipN spaces
    let deepest := max deepest c.mark.column
    if (indent == 0 || c.mark.column < indent) && c.peek == some '\t' then
      .error (blockProblem "found a tab character where an indentation space is expected"
        c.mark start)
    else if c.atBreak then .ok (.inl ((deepest, breaks ++ c.breakText), c.skipLine))
    else .ok (.inr ((settle deepest, breaks), c)))
    (fun ((deepest, breaks), c) => ((settle deepest, breaks), c))
    (c.rest.length + 1) ((0, []), c)

/-- The lines of a block read so far: text, the break after its last line, the empty lines after
that, and whether the last line began with a blank. -/
structure BlockText where
  text : List Char := []
  lastBreak : List Char := []
  emptyLines : List Char := []
  blankStart : Bool := false

/-- Reads a block whose indicator is at the cursor, within a collection indented by `outer`. -/
def readBlock (literal : Bool) (outer : Int) (c : Cursor) :
    Except Problem (List Char × Cursor) := do
  let start := c.mark
  let ((chomping, increment), c) ← blockHeader start c.skip
  let c := c.skipBlanks.skipComment
  if !c.atBreakOrEnd then
    throw (blockProblem "did not find expected comment or line break" c.mark start)
  let c := c.skipLine
  let asked : Nat := match increment with
    | some n => if 0 ≤ outer then outer.toNat + n else n
    | none => 0
  let ((indent, emptyLines), c) ← blockBreaks start outer asked c
  let (block, c) ← repeatStep (fun ((b : BlockText), (c : Cursor)) => do
    if c.mark.column != indent || c.isEnd then return .inr (b, c)
    let blank := c.atSpaceOrTab
    let joined :=
      if !literal && b.lastBreak.head? == some '\n' && !b.blankStart && !blank then
        if b.emptyLines.isEmpty then [' '] else []
      else b.lastBreak
    let (line, c) := c.takeWhile fun ch => !isBreak ch
    let lastBreak := c.breakText
    let ((_, emptyLines), c) ← blockBreaks start outer indent c.skipLine
    return .inl (⟨b.text ++ joined ++ b.emptyLines ++ line, lastBreak, emptyLines, blank⟩, c))
    id (c.rest.length + 1) ({ emptyLines }, c)
  let tail := match chomping with
    | .strip => []
    | .clip => block.lastBreak
    | .keep => block.lastBreak ++ block.emptyLines
  return (block.text ++ tail, c)

end DumpVault.Yaml
