import DumpVault.Yaml.Token

/-!
# Events

The structure of a document as a walk through it: scalars and aliases, and the starts and ends of
collections. Reading goes on until the tokens end, or to the first that has no place in the
grammar; the events before it stand.
-/
namespace DumpVault.Yaml

/-- What may be put before a node. -/
structure Properties where
  anchor : Option String := none
  tag : Option String := none
  deriving DecidableEq, Repr

inductive Event
  | streamStart | streamEnd
  | documentStart | documentEnd
  | aliasOf (name : String)
  | scalar (properties : Properties) (text : String) (style : ScalarStyle)
  | sequenceStart (properties : Properties)
  | sequenceEnd
  | mappingStart (properties : Properties)
  | mappingEnd
  deriving DecidableEq, Repr

inductive Expect
  | stream
  | document (implicit : Bool)
  | documentContent
  | documentEnd
  | blockNode
  | blockEntry
  | indentlessEntry
  | blockKey
  | blockValue
  | flowEntry (first : Bool)
  | flowPairKey
  | flowPairValue
  | flowPairEnd
  | flowKey (first : Bool)
  | flowValue (empty : Bool)
  | nothing
  deriving DecidableEq, Repr

structure Parser where
  tokens : List Token
  problem : Option Problem
  expect : Expect := .stream
  /-- What is expected after the nodes being read, innermost first. -/
  pending : List Expect := []
  /-- Where the collections being read began, innermost first. -/
  starts : List Mark := []
  /-- Tag handles of the present document and what they stand for. -/
  handles : List (String × String) := []

namespace Parser

abbrev Step := Except Problem ((Event × Mark) × Parser)

/-- The next token, if reading tokens has not failed before it. -/
def peek (p : Parser) : Except Problem Token :=
  match p.tokens with
  | t :: _ => .ok t
  | [] => .error (p.problem.getD { what := "" })

def skip (p : Parser) : Parser := { p with tokens := p.tokens.drop 1 }

def becoming (p : Parser) (e : Expect) : Parser := { p with expect := e }

/-- Goes back to what was expected after the node that has ended. -/
def pop (p : Parser) : Parser :=
  { p with expect := p.pending.head?.getD .nothing, pending := p.pending.drop 1 }

def push (p : Parser) (e : Expect) : Parser := { p with pending := e :: p.pending }

def enter (p : Parser) (m : Mark) : Parser := { p with starts := m :: p.starts }
def leave (p : Parser) : Parser := { p with starts := p.starts.drop 1 }

def emit (p : Parser) (e : Event) (m : Mark) : Step := .ok ((e, m), p)

/-- A node that is not written stands for an empty plain scalar. -/
def emptyScalar (p : Parser) (m : Mark) : Step := p.emit (.scalar {} "" .plain) m

def unexpected (p : Parser) (context what : String) (t : Token) : Step :=
  .error { what, mark := t.start, context := some (context, p.starts.head?.getD {}) }

/-- Adds the pair of a tag directive, which may be given once for each handle. -/
def addHandle (p : Parser) (handle leading : String) (m : Mark) : Except Problem Parser :=
  if p.handles.any fun h => h.1 == handle then
    .error { what := "found duplicate %TAG directive", mark := m }
  else .ok { p with handles := p.handles ++ [(handle, leading)] }

/-- Reads the directives of a document: at most one version, 1.1 or 1.2, and tag handles. -/
def directives (p : Parser) : Except Problem Parser := do
  let (_, p) ← repeatStep (fun ((version : Bool), (p : Parser)) => do
    let t ← p.peek
    match t.kind with
    | .versionDirective major minor =>
      if version then throw { what := "found duplicate %YAML directive", mark := t.start }
      if major != 1 || (minor != 1 && minor != 2) then
        throw { what := "found incompatible YAML document", mark := t.start }
      return .inl (true, p.skip)
    | .tagDirective handle leading =>
      let p ← p.addHandle handle leading t.start
      return .inl (version, p.skip)
    | _ => return .inr (version, p)) id (p.tokens.length + 1) (false, { p with handles := [] })
  let add (p : Parser) (handle leading : String) : Parser :=
    if p.handles.any fun h => h.1 == handle then p
    else { p with handles := p.handles ++ [(handle, leading)] }
  return add (add p "!" "!") "!!" "tag:yaml.org,2002:"

def skipDocumentEnds (p : Parser) : Except Problem Parser :=
  repeatStep (fun (p : Parser) => do
    let t ← p.peek
    if t.kind == .documentEnd then return .inl p.skip else return .inr p)
    id (p.tokens.length + 1) p

def document (p : Parser) (implicit : Bool) : Step := do
  let p ← if implicit then pure p else p.skipDocumentEnds
  let t ← p.peek
  match t.kind, implicit with
  | .streamEnd, _ => (p.becoming .nothing).skip.emit .streamEnd t.start
  | .versionDirective _ _, _ | .tagDirective _ _, _ | .documentStart, _ | _, false =>
    let m := t.start
    let p ← p.directives
    let t ← p.peek
    if t.kind != .documentStart then
      throw { what := "did not find expected <document start>", mark := t.start }
    ((p.push .documentEnd).becoming .documentContent).skip.emit .documentStart m
  | _, true =>
    let p ← p.directives
    ((p.push .documentEnd).becoming .blockNode).emit .documentStart t.start

def resolveTag (p : Parser) (handle suffix : String) (nodeStart tagMark : Mark) :
    Except Problem String :=
  if handle == "" then .ok suffix
  else
    match p.handles.find? fun h => h.1 == handle with
    | some h => .ok (h.2 ++ suffix)
    | none => .error { what := "found undefined tag handle", mark := tagMark,
                       context := some ("while parsing a node", nodeStart) }

/-- Reads an anchor and a tag, in either order; the tag unresolved, with its place. -/
def properties (p : Parser) :
    Except Problem ((Option String × Option (String × String × Mark)) × Parser) := do
  let t ← p.peek
  match t.kind with
  | .anchor name =>
    let p := p.skip
    let t ← p.peek
    match t.kind with
    | .tag handle suffix => return ((some name, some (handle, suffix, t.start)), p.skip)
    | _ => return ((some name, none), p)
  | .tag handle suffix =>
    let tag := (handle, suffix, t.start)
    let p := p.skip
    let t ← p.peek
    match t.kind with
    | .anchor name => return ((some name, some tag), p.skip)
    | _ => return ((none, some tag), p)
  | _ => return ((none, none), p)

/-- A scalar's tag `!` only says that it is not plain text, and is dropped. -/
def scalarTag (tag : Option String) : Option String := if tag == some "!" then none else tag

def node (p : Parser) (block indentless : Bool) : Step := do
  let t ← p.peek
  match t.kind with
  | .aliasOf name => p.pop.skip.emit (.aliasOf name) t.start
  | _ =>
    let m := t.start
    let ((anchor, tag), p) ← p.properties
    let tag ← match tag with
      | none => pure none
      | some (handle, suffix, tagMark) => some <$> p.resolveTag handle suffix m tagMark
    let properties : Properties := ⟨anchor, tag⟩
    let t ← p.peek
    match t.kind with
    | .blockEntry =>
      if indentless then (p.becoming .indentlessEntry).emit (.sequenceStart properties) m
      else other p properties m t
    | .scalar text style =>
      p.pop.skip.emit (.scalar ⟨anchor, scalarTag tag⟩ text style) m
    | .flowSequenceStart =>
      ((p.enter t.start).becoming (.flowEntry true)).skip.emit (.sequenceStart properties) m
    | .flowMappingStart =>
      ((p.enter t.start).becoming (.flowKey true)).skip.emit (.mappingStart properties) m
    | .blockSequenceStart =>
      if block then
        ((p.enter t.start).becoming .blockEntry).skip.emit (.sequenceStart properties) m
      else other p properties m t
    | .blockMappingStart =>
      if block then
        ((p.enter t.start).becoming .blockKey).skip.emit (.mappingStart properties) m
      else other p properties m t
    | _ => other p properties m t
where
  /-- Properties alone stand for an empty scalar. -/
  other (p : Parser) (properties : Properties) (m : Mark) (t : Token) : Step :=
    if properties.anchor.isSome || properties.tag.isSome then
      p.pop.emit (.scalar properties "" .plain) m
    else
      .error { what := "did not find expected node content", mark := t.start,
               context := some (if block then "while parsing a block node"
                 else "while parsing a flow node", m) }

/-- Reads a node unless one of the given tokens comes instead; `after` is expected behind it. -/
def nodeUnless (p : Parser) (stops : List TokenKind) (after : Expect) (block indentless : Bool)
    (empty : Token → Mark) : Step := do
  let t ← p.peek
  if stops.contains t.kind then (p.becoming after).emptyScalar (empty t)
  else (p.push after).node block indentless

def blockEntry (p : Parser) : Step := do
  let t ← p.peek
  match t.kind with
  | .blockEntry =>
    p.skip.nodeUnless [.blockEntry, .blockEnd] .blockEntry true false fun _ => t.stop
  | .blockEnd => p.pop.leave.skip.emit .sequenceEnd t.start
  | _ => p.unexpected "while parsing a block collection" "did not find expected '-' indicator" t

def indentlessEntry (p : Parser) : Step := do
  let t ← p.peek
  match t.kind with
  | .blockEntry =>
    p.skip.nodeUnless [.blockEntry, .key, .value, .blockEnd] .indentlessEntry true false
      fun _ => t.stop
  | _ => p.pop.emit .sequenceEnd t.start

def blockKey (p : Parser) : Step := do
  let t ← p.peek
  match t.kind with
  | .key => p.skip.nodeUnless [.key, .value, .blockEnd] .blockValue true true fun _ => t.stop
  | .blockEnd => p.pop.leave.skip.emit .mappingEnd t.start
  | _ => p.unexpected "while parsing a block mapping" "did not find expected key" t

def blockValue (p : Parser) : Step := do
  let t ← p.peek
  match t.kind with
  | .value => p.skip.nodeUnless [.key, .value, .blockEnd] .blockKey true true fun _ => t.stop
  | _ => (p.becoming .blockKey).emptyScalar t.start

def flowSeparator (p : Parser) (first : Bool) (context what : String) (close : TokenKind) :
    Except Problem Parser := do
  let t ← p.peek
  if first || t.kind == close then return p
  if t.kind == .flowEntry then return p.skip
  throw { what, mark := t.start, context := some (context, p.starts.head?.getD {}) }

def flowEntry (p : Parser) (first : Bool) : Step := do
  let p ← p.flowSeparator first "while parsing a flow sequence" "did not find expected ',' or ']'"
    .flowSequenceEnd
  let t ← p.peek
  match t.kind with
  | .key => (p.becoming .flowPairKey).skip.emit (.mappingStart {}) t.start
  | .flowSequenceEnd => p.pop.leave.skip.emit .sequenceEnd t.start
  | _ => (p.push (.flowEntry false)).node false false

/-- The key of a pair within a sequence. Where it is missing, the token in its place is lost. -/
def flowPairKey (p : Parser) : Step := do
  let t ← p.peek
  match t.kind with
  | .value | .flowEntry | .flowSequenceEnd =>
    (p.becoming .flowPairValue).skip.emptyScalar t.stop
  | _ => (p.push .flowPairValue).node false false

def flowPairValue (p : Parser) : Step := do
  let t ← p.peek
  match t.kind with
  | .value =>
    p.skip.nodeUnless [.flowEntry, .flowSequenceEnd] .flowPairEnd false false Token.start
  | _ => (p.becoming .flowPairEnd).emptyScalar t.start

def flowPairEnd (p : Parser) : Step := do
  let t ← p.peek
  (p.becoming (.flowEntry false)).emit .mappingEnd t.start

def flowKey (p : Parser) (first : Bool) : Step := do
  let p ← p.flowSeparator first "while parsing a flow mapping" "did not find expected ',' or '\x7d'"
    .flowMappingEnd
  let t ← p.peek
  match t.kind with
  | .key =>
    p.skip.nodeUnless [.value, .flowEntry, .flowMappingEnd] (.flowValue false) false false
      Token.start
  | .flowMappingEnd => p.pop.leave.skip.emit .mappingEnd t.start
  | _ => (p.push (.flowValue true)).node false false

def flowValue (p : Parser) (empty : Bool) : Step := do
  let t ← p.peek
  match t.kind, empty with
  | .value, false =>
    p.skip.nodeUnless [.flowEntry, .flowMappingEnd] (.flowKey false) false false Token.start
  | _, _ => (p.becoming (.flowKey false)).emptyScalar t.start

def next (p : Parser) : Step := do
  match p.expect with
  | .stream =>
    let t ← p.peek
    (p.becoming (.document true)).skip.emit .streamStart t.start
  | .document implicit => p.document implicit
  | .documentContent =>
    let t ← p.peek
    match t.kind with
    | .versionDirective _ _ | .tagDirective _ _ | .documentStart | .documentEnd | .streamEnd =>
      p.pop.emptyScalar t.start
    | _ => p.node true false
  | .documentEnd =>
    let t ← p.peek
    let p := if t.kind == .documentEnd then p.skip else p
    (p.becoming (.document false)).emit .documentEnd t.start
  | .blockNode => p.node true false
  | .blockEntry => p.blockEntry
  | .indentlessEntry => p.indentlessEntry
  | .blockKey => p.blockKey
  | .blockValue => p.blockValue
  | .flowEntry first => p.flowEntry first
  | .flowPairKey => p.flowPairKey
  | .flowPairValue => p.flowPairValue
  | .flowPairEnd => p.flowPairEnd
  | .flowKey first => p.flowKey first
  | .flowValue empty => p.flowValue empty
  | .nothing => p.emit .streamEnd {}

end Parser

/-- The events of a stream, and the problem that stops reading them, if one does. -/
structure Events where
  all : List (Event × Mark)
  problem : Option Problem

namespace Events

def readFrom : Nat → Parser → List (Event × Mark) → Events
  | 0, _, out => ⟨out.reverse, none⟩
  | fuel + 1, p, out =>
    match p.next with
    | .error problem => ⟨out.reverse, some problem⟩
    | .ok ((.streamEnd, m), _) => ⟨((.streamEnd, m) :: out).reverse, none⟩
    | .ok (e, p) => readFrom fuel p (e :: out)

/-- Reads all events. Between two tokens there are at most a few events without any. -/
def read (tokens : Tokens) : Events :=
  readFrom (8 * (tokens.all.length + 2)) { tokens := tokens.all, problem := tokens.problem } []

def admits (c : Char) : Bool :=
  let n := c.toNat
  n == 0x09 || n == 0x0A || n == 0x0D || (0x20 ≤ n && n ≤ 0x7E) || n == 0x85 ||
    (0xA0 ≤ n && n ≤ 0xD7FF) || (0xE000 ≤ n && n ≤ 0xFFFD) || 0x10000 ≤ n

/-- The place in bytes of the first character that is not admitted. -/
def firstControl? : List Char → Nat → Option Nat
  | [], _ => none
  | c :: cs, offset => if admits c then firstControl? cs (offset + c.utf8Size) else some offset

/-- The events of a text, after the byte order mark that it may begin with. -/
def ofText (text : String) : Events :=
  let chars := text.toList
  let (chars, offset) := if chars.head? == some '\ufeff' then (chars.drop 1, 3) else (chars, 0)
  match firstControl? chars offset with
  | some offset => ⟨[], some { what := "control characters are not allowed", offset }⟩
  | none => read (Tokens.read chars)

end Events
end DumpVault.Yaml
