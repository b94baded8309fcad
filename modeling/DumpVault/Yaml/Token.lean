import DumpVault.Yaml.ScalarText

/-!
# Tokens

The indicators, scalars and properties of a document in their order, with markers where indented
collections begin and end. A key that no question mark announces is recognised by the colon behind
it, so a token that may still turn out to be a key holds back all later ones.
-/
namespace DumpVault.Yaml

inductive TokenKind
  | streamStart | streamEnd
  | versionDirective (major minor : Nat)
  | tagDirective (handle leading : String)
  | documentStart | documentEnd
  | blockSequenceStart | blockMappingStart | blockEnd
  | flowSequenceStart | flowSequenceEnd | flowMappingStart | flowMappingEnd
  | blockEntry | flowEntry | key | value
  | aliasOf (name : String)
  | anchor (name : String)
  | tag (handle suffix : String)
  | scalar (text : String) (style : ScalarStyle)
  deriving DecidableEq, Repr

structure Token where
  kind : TokenKind
  start : Mark
  stop : Mark
  deriving DecidableEq, Repr

/-- A place where a key may have begun without a question mark. -/
structure PossibleKey where
  possible : Bool := false
  required : Bool := false
  /-- The number of tokens before it. -/
  number : Nat := 0
  mark : Mark := {}
  deriving Repr

structure Lexer where
  cursor : Cursor
  /-- Tokens read and not yet released, in order. -/
  held : List Token := []
  released : Nat := 0
  flowDepth : Nat := 0
  indent : Int := -1
  outerIndents : List Int := []
  keyAllowed : Bool := true
  /-- One entry for each level of brackets, innermost first. -/
  keys : List PossibleKey := [{}]
  ended : Bool := false

namespace Lexer

abbrev LexM := Except Problem

def problemAt (what : String) (mark : Mark) (context : Option (String × Mark)) : Problem :=
  { what, mark, context }

def inFlow (l : Lexer) : Bool := l.flowDepth != 0

def push (l : Lexer) (t : Token) : Lexer := { l with held := l.held ++ [t] }

def moveTo (l : Lexer) (c : Cursor) : Lexer := { l with cursor := c }

def insertAt (l : Lexer) (number : Nat) (t : Token) : Lexer :=
  let place := number - l.released
  { l with held := l.held.take place ++ t :: l.held.drop place }

def keyProblem (k : PossibleKey) (here : Mark) : Problem :=
  problemAt "could not find expected ':'" here (some ("while scanning a simple key", k.mark))

/-- A key must end on its line and within 1024 characters. -/
def PossibleKey.isStale (k : PossibleKey) (m : Mark) : Bool :=
  k.possible && (k.mark.line < m.line || k.mark.index + 1024 < m.index)

def dropStaleKeys (l : Lexer) : LexM Lexer := do
  let m := l.cursor.mark
  match l.keys.reverse.find? fun k => PossibleKey.isStale k m && k.required with
  | some k => throw (keyProblem k m)
  | none => return { l with keys := l.keys.map fun k =>
      if PossibleKey.isStale k m then { k with possible := false } else k }

def removeKey (l : Lexer) : LexM Lexer :=
  match l.keys with
  | [] => .ok l
  | k :: ks =>
    if k.possible && k.required then .error (keyProblem k l.cursor.mark)
    else .ok { l with keys := { k with possible := false } :: ks }

def saveKey (l : Lexer) : LexM Lexer := do
  if !l.keyAllowed then return l
  let required := !l.inFlow && l.indent == (l.cursor.mark.column : Int)
  let l' ← l.removeKey
  let begun : PossibleKey := ⟨true, required, l.released + l.held.length, l.cursor.mark⟩
  return { l' with keys := begun :: l'.keys.drop 1 }

/-- Begins an indented collection if the column is deeper than the present one. -/
def rollIndent (l : Lexer) (column : Nat) (number : Option Nat) (kind : TokenKind) (m : Mark) :
    Lexer :=
  if l.inFlow || (column : Int) ≤ l.indent then l
  else
    let l := { l with outerIndents := l.indent :: l.outerIndents, indent := column }
    match number with
    | some n => l.insertAt n ⟨kind, m, m⟩
    | none => l.push ⟨kind, m, m⟩

def unrollIndent (l : Lexer) (column : Int) : Lexer :=
  if l.inFlow then l
  else
    let rec go (l : Lexer) : List Int → Lexer
      | [] => l
      | outer :: rest =>
        if column < l.indent then
          let m := l.cursor.mark
          go { l.push ⟨.blockEnd, m, m⟩ with indent := outer, outerIndents := rest } rest
        else l
    go l l.outerIndents

def skipToToken (l : Lexer) : Lexer :=
  let step (l : Lexer) : Except Empty (Lexer ⊕ Lexer) :=
    let c := l.cursor
    let c := if c.mark.index == 0 && c.peek == some '\ufeff' then c.skip else c
    let tabs := l.inFlow || !l.keyAllowed
    let c := (c.skipWhile fun ch => ch == ' ' || (tabs && ch == '\t')).skipComment
    if c.atBreak then
      .ok (.inl { l with cursor := c.skipLine, keyAllowed := l.keyAllowed || !l.inFlow })
    else .ok (.inr { l with cursor := c })
  match repeatStep step id (l.cursor.rest.length + 1) l with
  | .ok l => l

def take (l : Lexer) (kind : TokenKind) (width : Nat) : Lexer :=
  let c := l.cursor.skipN width
  { l.push ⟨kind, l.cursor.mark, c.mark⟩ with cursor := c }

def takeTo (l : Lexer) (kind : TokenKind) (c : Cursor) : Lexer :=
  { l.push ⟨kind, l.cursor.mark, c.mark⟩ with cursor := c }

def directiveProblem (what : String) (c : Cursor) (start : Mark) : Problem :=
  problemAt what c.mark (some ("while scanning a directive", start))

/-- A number of a version, of at most nine digits. -/
def versionNumber (start : Mark) (c : Cursor) : LexM (Nat × Cursor) := do
  let context := some ("while scanning a %YAML directive", start)
  let (ds, after) := c.takeWhile Char.isDigit
  if 9 < ds.length then
    throw (problemAt "found extremely long version number" (c.skipN 9).mark context)
  if ds.isEmpty then throw (problemAt "did not find expected version number" c.mark context)
  return (ds.foldl (fun n d => 10 * n + (d.toNat - 48)) 0, after)

/-- The handle of a tag: `!`, `!!` or `!name!`; elsewhere than in a directive also `!name`. -/
def tagHandle (directive : Bool) (start : Mark) (c : Cursor) : LexM (List Char × Cursor) := do
  let scanning := if directive then "while scanning a tag directive" else "while scanning a tag"
  if c.peek != some '!' then
    throw (problemAt "did not find expected '!'" c.mark (some (scanning, start)))
  let (name, c) := c.skip.takeWhile isWordChar
  if c.peek == some '!' then return ('!' :: name ++ ['!'], c.skip)
  if directive && !name.isEmpty then
    throw (problemAt "did not find expected '!'" c.mark
      (some ("while parsing a tag directive", start)))
  return ('!' :: name, c)

def tagContext (directive : Bool) (start : Mark) : Option (String × Mark) :=
  some (if directive then "while parsing a %TAG directive" else "while parsing a tag", start)

def isUriChar (verbatim : Bool) (c : Char) : Bool :=
  isWordChar c || ";/?:@&=+$.%!~*'()".toList.contains c ||
    (verbatim && (c == ',' || c == '[' || c == ']'))

def octetWidth? (octet : Nat) : Option Nat :=
  if octet < 0x80 then some 1
  else if octet / 0x20 == 6 then some 2
  else if octet / 0x10 == 14 then some 3
  else if octet / 8 == 30 then some 4
  else none

/-- Octets written as `%XX`, up to the end of one character. -/
def uriEscape (directive : Bool) (start : Mark) (c : Cursor) : LexM (List UInt8 × Cursor) := do
  let octet (c : Cursor) : LexM Nat :=
    match c.rest with
    | '%' :: a :: b :: _ =>
      if isHexDigit a && isHexDigit b then return 16 * hexValue a + hexValue b
      else throw (problemAt "did not find URI escaped octet" c.mark (tagContext directive start))
    | _ => throw (problemAt "did not find URI escaped octet" c.mark (tagContext directive start))
  let first ← octet c
  match octetWidth? first with
  | none =>
    throw (problemAt "found an incorrect leading UTF-8 octet" c.mark (tagContext directive start))
  | some width =>
    (List.range (width - 1)).foldlM (fun (octets, (c : Cursor)) _ => do
      let next ← octet c
      if next / 0x40 != 2 then
        throw (problemAt "found an incorrect trailing UTF-8 octet" c.mark
          (tagContext directive start))
      return (octets ++ [next.toUInt8], c.skipN 3)) ([first.toUInt8], c.skipN 3)

/-- The text of octets, if they are UTF-8. -/
def octetText (octets : List UInt8) : List Char :=
  match String.fromUTF8? ⟨octets.toArray⟩ with
  | some s => s.toList
  | none => octets.map fun _ => '\ufffd'

/-- A tag's URI behind the part `head` of it that has been read already. -/
def tagUri (verbatim directive : Bool) (head : List Char) (start : Mark) (c : Cursor) :
    LexM (List Char × Cursor) := do
  let (uri, c) ← repeatStep (fun (uri, (c : Cursor)) => do
    match c.peek with
    | none => return .inr (uri, c)
    | some ch =>
      if !isUriChar verbatim ch then return .inr (uri, c)
      if ch == '%' then
        let (octets, c) ← uriEscape directive start c
        return .inl (uri ++ octetText octets, c)
      return .inl (uri ++ [ch], c.skip)) id (c.rest.length + 1) ([], c)
  if head.isEmpty && uri.isEmpty then
    throw (problemAt "did not find expected tag URI" c.mark (tagContext directive start))
  return (head.drop 1 ++ uri, c)

def readDirective (l : Lexer) : LexM Lexer := do
  let start := l.cursor.mark
  let (name, c) := l.cursor.skip.takeWhile isWordChar
  if name.isEmpty then
    throw (directiveProblem "could not find expected directive name" c start)
  if !c.blankAt 0 then
    throw (directiveProblem "found unexpected non-alphabetical character" c start)
  let (kind, c) ←
    if name == "YAML".toList then do
      let (major, c) ← versionNumber start c.skipBlanks
      if c.peek != some '.' then
        throw (problemAt "did not find expected digit or '.' character" c.mark
          (some ("while scanning a %YAML directive", start)))
      let (minor, c) ← versionNumber start c.skip
      pure (TokenKind.versionDirective major minor, c)
    else if name == "TAG".toList then do
      let context := some ("while scanning a %TAG directive", start)
      let (handle, c) ← tagHandle true start c.skipBlanks
      if !c.atSpaceOrTab then
        throw (problemAt "did not find expected whitespace" c.mark context)
      let (leading, c) ← tagUri true true [] start c.skipBlanks
      if !c.blankAt 0 then
        throw (problemAt "did not find expected whitespace or line break" c.mark context)
      pure (TokenKind.tagDirective (String.ofList handle) (String.ofList leading), c)
    else throw (directiveProblem "found unknown directive name" c start)
  let after := c.skipBlanks.skipComment
  if !after.atBreakOrEnd then
    throw (directiveProblem "did not find expected comment or line break" after start)
  let l := l.push ⟨kind, start, c.mark⟩
  return l.moveTo after.skipLine

def readTag (l : Lexer) : LexM Lexer := do
  let c := l.cursor
  let start := c.mark
  let ((handle, suffix), c) ←
    if c.looksAt '<' 1 then do
      let (suffix, c) ← tagUri true false [] start (c.skipN 2)
      if c.peek != some '>' then
        throw (problemAt "did not find the expected '>'" c.mark
          (some ("while scanning a tag", start)))
      pure (([], suffix), c.skip)
    else do
      let (handle, c) ← tagHandle false start c
      if 2 ≤ handle.length && handle.getLast? == some '!' then
        let (suffix, c) ← tagUri false false [] start c
        pure ((handle, suffix), c)
      else
        let (suffix, c) ← tagUri false false handle start c
        pure (if suffix.isEmpty then ([], ['!']) else (['!'], suffix), c)
  if !c.blankAt 0 && !(l.inFlow && c.peek == some ',') then
    throw (problemAt "did not find expected whitespace or line break" c.mark
      (some ("while scanning a tag", start)))
  return l.takeTo (.tag (String.ofList handle) (String.ofList suffix)) c

def readAnchor (isAlias : Bool) (l : Lexer) : LexM Lexer := do
  let (name, c) := l.cursor.skip.takeWhile isWordChar
  let ends := c.blankAt 0 || c.peek.any "?:,]\x7d%@`".toList.contains
  if name.isEmpty || !ends then
    throw (problemAt "did not find expected alphabetic or numeric character" c.mark
      (some (if isAlias then "while scanning an alias" else "while scanning an anchor",
        l.cursor.mark)))
  let name := String.ofList name
  return l.takeTo (if isAlias then .aliasOf name else .anchor name) c

/-- Ends all indented collections and any key begun, in front of what concerns the document. -/
def closeBlocks (l : Lexer) : LexM Lexer := do
  let l ← (l.unrollIndent (-1)).removeKey
  return { l with keyAllowed := false }

def readEnd (l : Lexer) : LexM Lexer := do
  let m := l.cursor.mark
  let m := if m.column == 0 then m else { m with line := m.line + 1, column := 0 }
  let l ← closeBlocks { l with cursor := { l.cursor with mark := m } }
  return { l.push ⟨.streamEnd, m, m⟩ with ended := true }

def openFlow (kind : TokenKind) (l : Lexer) : LexM Lexer := do
  let l ← l.saveKey
  let l := { l with keys := {} :: l.keys, flowDepth := l.flowDepth + 1, keyAllowed := true }
  return l.take kind 1

def closeFlow (kind : TokenKind) (l : Lexer) : LexM Lexer := do
  let l ← l.removeKey
  let l := if l.inFlow then { l with flowDepth := l.flowDepth - 1, keys := l.keys.drop 1 } else l
  return { l with keyAllowed := false }.take kind 1

def blockStart (what : String) (kind : TokenKind) (l : Lexer) : LexM Lexer :=
  let m := l.cursor.mark
  if l.inFlow then .ok l
  else if !l.keyAllowed then .error (problemAt what m none)
  else .ok (l.rollIndent m.column none kind m)

def readEntry (l : Lexer) : LexM Lexer := do
  let l ← l.blockStart "block sequence entries are not allowed in this context"
    .blockSequenceStart
  let l ← l.removeKey
  return { l with keyAllowed := true }.take .blockEntry 1

def readKey (l : Lexer) : LexM Lexer := do
  let l ← l.blockStart "mapping keys are not allowed in this context" .blockMappingStart
  let l ← l.removeKey
  return { l with keyAllowed := !l.inFlow }.take .key 1

/-- A colon: what came before it on this line, if that may be a key, is one. -/
def readValue (l : Lexer) : LexM Lexer := do
  match l.keys with
  | k :: ks =>
    if k.possible then
      let l := l.insertAt k.number ⟨.key, k.mark, k.mark⟩
      let l := l.rollIndent k.mark.column (some k.number) .blockMappingStart k.mark
      return { l with keys := { k with possible := false } :: ks, keyAllowed := false }.take
        .value 1
    else
      let l ← l.blockStart "mapping values are not allowed in this context" .blockMappingStart
      return { l with keyAllowed := !l.inFlow }.take .value 1
  | [] => return l.take .value 1

def readFlowEntry (l : Lexer) : LexM Lexer := do
  let l ← l.removeKey
  return { l with keyAllowed := true }.take .flowEntry 1

def readMarker (kind : TokenKind) (l : Lexer) : LexM Lexer := do
  let l ← l.closeBlocks
  return l.take kind 3

def readBlockScalar (literal : Bool) (l : Lexer) : LexM Lexer := do
  let l ← l.removeKey
  let (text, c) ← readBlock literal l.indent l.cursor
  return { l with keyAllowed := true }.takeTo
    (.scalar (String.ofList text) (if literal then .literal else .folded)) c

def readQuotedScalar (single : Bool) (l : Lexer) : LexM Lexer := do
  let l ← l.saveKey
  let (text, c) ← readQuoted single l.cursor
  return { l with keyAllowed := false }.takeTo
    (.scalar (String.ofList text) (if single then .singleQuoted else .doubleQuoted)) c

def readPlainScalar (l : Lexer) : LexM Lexer := do
  let l ← l.saveKey
  let (plain, c) ← readPlain l.inFlow (l.indent + 1) l.cursor
  return { l with keyAllowed := plain.newLine }.takeTo
    (.scalar (String.ofList plain.text) .plain) c

/-- Indicators that no plain scalar begins with, whatever follows them. -/
def isIndicator (c : Char) : Bool := "-?:,[]\x7b\x7d#&*!|>'\"%@`".toList.contains c

def startsPlain (l : Lexer) (ch : Char) : Bool :=
  !(isSpaceOrTab ch || isBreak ch || isIndicator ch) ||
    (ch == '-' && !(l.cursor.peekAt 1).any isSpaceOrTab) ||
    (!l.inFlow && (ch == '?' || ch == ':') && !l.cursor.blankAt 1)

def readNext (l : Lexer) : LexM Lexer := do
  let l ← l.skipToToken.dropStaleKeys
  let l := l.unrollIndent l.cursor.mark.column
  let c := l.cursor
  match c.peek with
  | none => l.readEnd
  | some ch =>
    if c.mark.column == 0 && ch == '%' then
      let l ← l.closeBlocks
      l.readDirective
    else if c.atMarker '-' then l.readMarker .documentStart
    else if c.atMarker '.' then l.readMarker .documentEnd
    else if ch == '[' then l.openFlow .flowSequenceStart
    else if ch == '\x7b' then l.openFlow .flowMappingStart
    else if ch == ']' then l.closeFlow .flowSequenceEnd
    else if ch == '\x7d' then l.closeFlow .flowMappingEnd
    else if ch == ',' then l.readFlowEntry
    else if ch == '-' && c.blankAt 1 then l.readEntry
    else if ch == '?' && (l.inFlow || c.blankAt 1) then l.readKey
    else if ch == ':' && (l.inFlow || c.blankAt 1) then l.readValue
    else if ch == '*' || ch == '&' then
      let l ← l.saveKey
      { l with keyAllowed := false }.readAnchor (ch == '*')
    else if ch == '!' then
      let l ← l.saveKey
      { l with keyAllowed := false }.readTag
    else if ch == '|' && !l.inFlow then l.readBlockScalar true
    else if ch == '>' && !l.inFlow then l.readBlockScalar false
    else if ch == '\'' then l.readQuotedScalar true
    else if ch == '"' then l.readQuotedScalar false
    else if l.startsPlain ch then l.readPlainScalar
    else throw (problemAt "found character that cannot start any token" c.mark
      (some ("while scanning for the next token", c.mark)))

/-- The first held token may yet turn out to stand behind the start of a mapping. -/
def headMayBeKey (l : Lexer) : Bool := l.keys.any fun k => k.possible && k.number == l.released

end Lexer

/-- The tokens of a document, and the problem that stops reading them, if one does. -/
structure Tokens where
  all : List Token
  problem : Option Problem

namespace Tokens

/-- Releases the first held token once nothing can come before it, and else reads another. -/
def readFrom : Nat → Lexer → List Token → Tokens
  | 0, _, out => ⟨out.reverse, none⟩
  | fuel + 1, l, out =>
    match l.held with
    | [] =>
      if l.ended then ⟨out.reverse, none⟩
      else
        match l.readNext with
        | .error p => ⟨out.reverse, some p⟩
        | .ok l => readFrom fuel l out
    | t :: rest =>
      match l.dropStaleKeys with
      | .error p => ⟨out.reverse, some p⟩
      | .ok l =>
        if l.headMayBeKey && !l.ended then
          match l.readNext with
          | .error p => ⟨out.reverse, some p⟩
          | .ok l => readFrom fuel l out
        else readFrom fuel { l with held := rest, released := l.released + 1 } (t :: out)

/-- Reads all tokens. A token that takes up no character marks an end, a start or a key beside
one that does, which bounds their number. -/
def read (chars : List Char) : Tokens :=
  let start : Lexer := { cursor := ⟨chars, {}⟩ }
  readFrom (8 * (chars.length + 4)) (start.push ⟨.streamStart, {}, {}⟩) []

end Tokens
end DumpVault.Yaml
