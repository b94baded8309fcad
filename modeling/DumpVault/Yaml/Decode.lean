import DumpVault.Yaml.Node
import DumpVault.Yaml.Atom

/-!
# Reading values from nodes

The common part of reading settings from a document. A fault found while a value is read is given
the place of the innermost value around it that has one: its mark, and the path of keys and
positions that leads to it.
-/
namespace DumpVault.Yaml
open Text

inductive Path
  | root
  | below (text : String)
  deriving DecidableEq, Repr

namespace Path

def text : Path → String
  | root => "."
  | below t => t

def key (p : Path) (name : String) : Path :=
  match p with
  | root => below name
  | below t => below (t ++ "." ++ name)

def item (p : Path) (index : Nat) : Path := below s!"{p.text}[{index}]"

/-- The value behind a key that is no scalar. -/
def unknown (p : Path) : Path := p.key "?"

end Path

inductive DecodeFault
  | message (what : String) (place : Option (Mark × Path))
  | interrupted (i : Interruption)
  | tooDeep (mark : Mark)
  | tooManyAliases
  | endOfStream
  | severalDocuments
  deriving Repr

namespace DecodeFault

def of (what : String) : DecodeFault := message what none

def within (f : DecodeFault) (mark : Mark) (path : Path) : DecodeFault :=
  match f with
  | message what none => message what (some (mark, path))
  | f => f

def markText (m : Mark) : String := if m.isOrigin then "" else " at " ++ m.text

def text : DecodeFault → String
  | message what none => what
  | message what (some (mark, path)) =>
    (if path.text == "." then "" else path.text ++ ": ") ++ what ++ markText mark
  | interrupted (.problem p) => p.text
  | interrupted (.unknownAnchor mark) => "unknown anchor" ++ markText mark
  | tooDeep mark => "recursion limit exceeded" ++ markText mark
  | tooManyAliases => "repetition limit exceeded"
  | endOfStream => "EOF while parsing a value"
  | severalDocuments =>
    "deserializing from YAML containing more than one document is not supported"

def invalidType (found expected : String) : DecodeFault :=
  of s!"invalid type: {found}, expected {expected}"

def invalidValue (found expected : String) : DecodeFault :=
  of s!"invalid value: {found}, expected {expected}"

def duplicateField (name : String) : DecodeFault := of s!"duplicate field `{name}`"
def missingField (name : String) : DecodeFault := of s!"missing field `{name}`"

end DecodeFault

/-- Reading counts the aliases that it follows. -/
abbrev Decode := StateT Nat (Except DecodeFault)

def placed {α : Type} (mark : Mark) (path : Path) (d : Decode α) : Decode α := fun s =>
  match d s with
  | .ok r => .ok r
  | .error f => .error (f.within mark path)

def depthLimit : Nat := 128

namespace Document

/-- The fault of reading on where the events stop. -/
def cutFault (d : Document) : DecodeFault :=
  match d.interruption with
  | some i => .interrupted i
  | none => .endOfStream

/-- Follows an alias to its node. The aliases followed may be a hundred times the events. -/
def resolve (d : Document) (n : Node) : Decode Node :=
  match n with
  | .aliasOf _ id => do
    let followed := (← get) + 1
    set followed
    if 100 * d.size < followed then throw .tooManyAliases
    match d.anchors.lookup id with
    | some n => return n
    | none => throw d.cutFault
  | n => return n

def ignore (d : Document) (n : Node) : Decode Unit :=
  if n.isWhole then return else throw d.cutFault

end Document

namespace Node

def mark : Node → Mark
  | scalar m _ _ _ | sequence m _ _ | mapping m _ _ | aliasOf m _ | empty m => m
  | cut => {}

def boolTag : String := "tag:yaml.org,2002:bool"
def intTag : String := "tag:yaml.org,2002:int"
def floatTag : String := "tag:yaml.org,2002:float"
def nullTag : String := "tag:yaml.org,2002:null"

def atom (tag : Option String) (text : String) (style : ScalarStyle) : Except DecodeFault Atom :=
  let invalid (expected : String) : Except DecodeFault Atom :=
    .error (.invalidValue ("string " ++ quoted text) expected)
  match tag with
  | none => .ok (if style == .plain then Atom.ofPlain text else .text text)
  | some tag =>
    if tag == boolTag then
      match Atom.bool? text with
      | some b => .ok (.bool b)
      | none => invalid "a boolean"
    else if tag == intTag then
      match Atom.int? text.toList with
      | some a => .ok a
      | none => invalid "an integer"
    else if tag == floatTag then
      match Atom.float? text.toList with
      | some a => .ok a
      | none => invalid "a float"
    else if tag == nullTag then
      if Atom.isNull text then .ok .null else invalid "null"
    else if tag.startsWith "!" && style == .plain then .ok (Atom.ofPlain text)
    else .ok (.text text)

def mismatch (d : Document) (n : Node) (expected : String) : DecodeFault :=
  match n with
  | scalar _ tag text style =>
    match atom tag text style with
    | .ok a => .invalidType a.described expected
    | .error f => f
  | sequence _ _ _ => .invalidType "sequence" expected
  | mapping _ _ _ => .invalidType "map" expected
  | aliasOf _ _ | empty _ => .endOfStream
  | cut => d.cutFault

/-- A tag that names a variant, as every tag with its own `!` does. -/
def variantTag? : Option String → Option String
  | some tag =>
    match tag.toList with
    | '!' :: rest => some (String.ofList (if rest.isEmpty then ['!'] else rest))
    | _ => none
  | none => none

end Node

namespace Decode

def text (d : Document) (expected : String) (path : Path) (n : Node) : Decode String := do
  match n with
  | .cut => throw d.cutFault
  | _ =>
    placed n.mark path do
      let target ← d.resolve n
      placed target.mark path do
        match target with
        | .scalar _ _ text _ => return text
        | _ => throw (target.mismatch d expected)

def bool (d : Document) (path : Path) (n : Node) : Decode Bool := do
  match n with
  | .cut => throw d.cutFault
  | _ =>
    placed n.mark path do
      let target ← d.resolve n
      placed target.mark path do
        match target with
        | .scalar _ tag text style =>
          let literal := style == .plain || (style == .literal && tag == some Node.boolTag)
          match Atom.bool? text with
          | some b => if literal then return b else throw (target.mismatch d "a boolean")
          | none => throw (target.mismatch d "a boolean")
        | _ => throw (target.mismatch d "a boolean")

/-- Reads a value that a null or an empty plain scalar leaves out. -/
def option {α : Type} (d : Document) (n : Node) (value : Node → Decode α) : Decode (Option α) := do
  match n with
  | .cut => throw d.cutFault
  | _ =>
    match ← d.resolve n with
    | .empty _ => return none
    | target@(.scalar _ tag text style) =>
      if style != .plain then some <$> value target
      else
        match tag with
        | none => if text == "" || Atom.isNull text then return none else some <$> value target
        | some tag =>
          if tag == Node.nullTag then
            if Atom.isNull text then return none
            else throw (.invalidValue ("string " ++ quoted text) "null")
          else if text == "" then return none
          else some <$> value target
    | target => some <$> value target

def deeper {α : Type} (mark : Mark) (depth : Nat) (f : Nat → Decode α) : Decode α :=
  match depth with
  | 0 => throw (.tooDeep mark)
  | depth + 1 => f depth

/-- Reads a sequence of values; an empty plain scalar is an empty one. -/
def list {α : Type} (d : Document) (path : Path) (depth : Nat)
    (value : Nat → Path → Node → Decode α) (n : Node) : Decode (List α) := do
  match n with
  | .cut => throw d.cutFault
  | _ =>
    placed n.mark path do
      let target ← d.resolve n
      placed target.mark path do
        match target with
        | .sequence mark _ items =>
          deeper mark depth fun depth =>
            (items.zipIdx).mapM fun (item, i) => do
              match item with
              | .cut => throw d.cutFault
              | _ => value depth (path.item i) item
        | _ => if target.isEmptyPlain then return [] else throw (target.mismatch d "a sequence")

def valuePath (path : Path) (key : Node) : Path :=
  match key with
  | .scalar _ _ text _ => path.key text
  | _ => path.unknown

/-- One field of a record: its key, and how its value changes the record. -/
structure Field (σ : Type) where
  name : String
  read : Nat → Path → Node → Decode (σ → σ)

/-- Reads one entry of a record into a state of the names seen and the record so far. Keys that
name no field are passed over, and a field may be given once. -/
def entry {σ : Type} (d : Document) (fields : List (Field σ)) (path : Path) (depth : Nat)
    (state : List String × σ) (key value : Node) : Decode (List String × σ) := do
  let name ← text d "field identifier" path key
  match fields.find? fun f => f.name == name with
  | none =>
    d.ignore value
    return state
  | some f =>
    if state.1.contains name then throw (.duplicateField name)
    let change ← f.read depth (valuePath path key) value
    return (name :: state.1, change state.2)

/-- Reads a record whose missing fields keep their values in `default`. An empty plain scalar is a
record without entries. -/
def record {σ : Type} (d : Document) (expected : String) (fields : List (Field σ)) (default : σ)
    (depth : Nat) (path : Path) (n : Node) : Decode σ := do
  match n with
  | .cut => throw d.cutFault
  | _ =>
    placed n.mark path do
      let target ← d.resolve n
      placed target.mark path do
        match target with
        | .mapping mark _ entries =>
          deeper mark depth fun depth => do
            let (_, result) ← entries.foldlM
              (fun state (k, v) => entry d fields path depth state k v) ([], default)
            return result
        | _ =>
          if target.isEmptyPlain then return default else throw (target.mismatch d expected)

end Decode
end DumpVault.Yaml
