import DumpVault.Yaml.Event

/-!
# Nodes

The first document of a stream as a tree of scalars, sequences and mappings. An alias names its
node by a number, and the document keeps the nodes so named. Where the events stop short, the tree
ends in a node `cut`, so that what was read before stays readable.
-/
namespace DumpVault.Yaml

inductive Node
  | scalar (mark : Mark) (tag : Option String) (text : String) (style : ScalarStyle)
  | sequence (mark : Mark) (tag : Option String) (items : List Node)
  | mapping (mark : Mark) (tag : Option String) (entries : List (Node × Node))
  | aliasOf (mark : Mark) (id : Nat)
  /-- The place of a document without any content. -/
  | empty (mark : Mark)
  /-- Events are missing from here on. -/
  | cut
  deriving Repr, Inhabited

namespace Node

mutual
def isWhole : Node → Bool
  | cut => false
  | sequence _ _ items => allWhole items
  | mapping _ _ entries => allEntriesWhole entries
  | scalar _ _ _ _ | aliasOf _ _ | empty _ => true

def allWhole : List Node → Bool
  | [] => true
  | n :: ns => n.isWhole && allWhole ns

def allEntriesWhole : List (Node × Node) → Bool
  | [] => true
  | (k, v) :: rest => k.isWhole && v.isWhole && allEntriesWhole rest
end

def pairUp : List Node → List (Node × Node)
  | k :: v :: rest => (k, v) :: pairUp rest
  | [k] => [(k, cut)]
  | [] => []

/-- A plain scalar without text, or nothing at all. -/
def isEmptyPlain : Node → Bool
  | scalar _ _ text style => text == "" && style == .plain
  | empty _ => true
  | _ => false

end Node

inductive Interruption
  | problem (p : Problem)
  | unknownAnchor (mark : Mark)
  deriving DecidableEq, Repr

/-- The number of an anchor, and the number of the event that carries it. -/
structure AnchorId where
  id : Nat
  event : Nat
  deriving Repr

structure Frame where
  mark : Mark
  tag : Option String
  isMapping : Bool
  anchor : Option AnchorId
  /-- The nodes so far, last first. -/
  nodes : List Node

def Frame.close (f : Frame) (more : List Node) : Node :=
  let nodes := f.nodes.reverse ++ more
  if f.isMapping then .mapping f.mark f.tag (Node.pairUp nodes) else .sequence f.mark f.tag nodes

structure NodeBuilder where
  frames : List Frame := []
  root : Option Node := none
  events : Nat := 0
  /-- Each anchor name with its latest number. A new anchor is numbered by the names before it. -/
  names : List (String × Nat) := []
  anchored : List (AnchorId × Node) := []

namespace NodeBuilder

def count (b : NodeBuilder) : NodeBuilder := { b with events := b.events + 1 }

def anchor (b : NodeBuilder) (name : Option String) : Option AnchorId × NodeBuilder :=
  match name with
  | none => (none, b)
  | some name =>
    let id := b.names.length
    (some ⟨id, b.events⟩,
      { b with names := (b.names.filter fun n => n.1 != name) ++ [(name, id)] })

def add (b : NodeBuilder) (anchor : Option AnchorId) (n : Node) : NodeBuilder :=
  let b := match anchor with
    | some a => { b with anchored := (a, n) :: b.anchored }
    | none => b
  match b.frames with
  | [] => { b with root := some n }
  | f :: fs => { b with frames := { f with nodes := n :: f.nodes } :: fs }

def openFrame (b : NodeBuilder) (m : Mark) (p : Properties) (isMapping : Bool) : NodeBuilder :=
  let (anchor, b) := b.anchor p.anchor
  { b with frames := ⟨m, p.tag, isMapping, anchor, []⟩ :: b.frames }

def closeFrame (b : NodeBuilder) (more : List Node) : NodeBuilder :=
  match b.frames with
  | [] => b
  | f :: fs => { b with frames := fs }.add f.anchor (f.close more)

/-- Takes in one event; an alias of no anchor is refused. -/
def step (b : NodeBuilder) (e : Event) (m : Mark) : Except Interruption NodeBuilder :=
  match e with
  | .scalar p text style =>
    let (anchor, b) := b.anchor p.anchor
    .ok (b.add anchor (.scalar m p.tag text style)).count
  | .sequenceStart p => .ok (b.openFrame m p false).count
  | .mappingStart p => .ok (b.openFrame m p true).count
  | .sequenceEnd | .mappingEnd => .ok (b.closeFrame []).count
  | .aliasOf name =>
    match b.names.find? fun n => n.1 == name with
    | some n => .ok (b.add none (.aliasOf m n.2)).count
    | none => .error (.unknownAnchor m)
  | .streamStart | .streamEnd | .documentStart | .documentEnd => .ok b

/-- Ends all open collections where the events stop. -/
def cutShort (b : NodeBuilder) : NodeBuilder :=
  (List.range b.frames.length).foldl (fun b _ => b.closeFrame [.cut]) b

/-- The node of each anchor number; of two with one number the later stands. -/
def table (b : NodeBuilder) : List (Nat × Node) :=
  (b.anchored.mergeSort fun x y => y.1.event ≤ x.1.event).map fun x => (x.1.id, x.2)

end NodeBuilder

structure Document where
  root : Node
  anchors : List (Nat × Node)
  /-- The number of its events. -/
  size : Nat
  interruption : Option Interruption
  more : Bool

namespace Document

def build (b : NodeBuilder) (interruption : Option Interruption) (more : Bool) : Document :=
  let b := b.cutShort
  ⟨b.root.getD .cut, b.table, b.events, interruption, more⟩

def readFrom (problem : Option Problem) : List (Event × Mark) → NodeBuilder → Document
  | [], b => build b (problem.map .problem) false
  | (.streamEnd, m) :: _, b => build { b with root := some (.empty m), events := 1 } none false
  | (.documentEnd, _) :: rest, b =>
    build b none (match rest with
      | (.streamEnd, _) :: _ => false
      | _ => true)
  | (e, m) :: rest, b =>
    match b.step e m with
    | .ok b => readFrom problem rest b
    | .error i => build b (some i) false

def ofText (text : String) : Document :=
  let events := Events.ofText text
  readFrom events.problem events.all {}

end Document
end DumpVault.Yaml
