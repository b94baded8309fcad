import DumpVault.Yaml.Decode

/-!
# Tagged values

A value of one of several variants names its variant in a field of its own, the tag, which may
stand anywhere among the other fields; or it is a sequence that begins with the tag. What stands
beside the tag is read as plain content first and by the rules of the variant afterwards.
-/
namespace DumpVault.Yaml

/-- A value without its place in a document. -/
inductive Content
  | atom (value : Atom)
  | sequence (items : List Content)
  | mapping (entries : List (Content × Content))
  deriving Repr, Inhabited

namespace Content

def text (s : String) : Content := atom (.text s)

def described : Content → String
  | atom a => a.described
  | sequence _ => "sequence"
  | mapping _ => "map"

def asText (expected : String) : Content → Except DecodeFault String
  | atom (.text s) => .ok s
  | c => .error (.invalidType c.described expected)

/-- The name of a key of a variant's fields; `none` is a key to be passed over. A number is the
position of a field. -/
def fieldName (fields : List String) : Content → Except DecodeFault (Option String)
  | atom (.text s) => .ok (some s)
  | atom (.int n) =>
    if 0 ≤ n then .ok fields[n.toNat]? else .error (.invalidType (atom (.int n)).described
      "field identifier")
  | c => .error (.invalidType c.described "field identifier")

/-- Reads the one field of a variant from a mapping, whose other keys are passed over. -/
def oneField (name expected : String) (entries : List (Content × Content)) :
    Except DecodeFault String := do
  let found ← entries.foldlM (fun (found : Option String) (k, v) => do
    if (← fieldName [name] k) == some name then
      if found.isSome then throw (.duplicateField name)
      some <$> v.asText expected
    else return found) none
  match found with
  | some s => return s
  | none => throw (.missingField name)

/-- Reads a variant with one field, which is the only item of a sequence or a field by name. -/
def variantOfOne (variant field expected : String) : Content → Except DecodeFault String
  | mapping entries => oneField field expected entries
  | sequence [] =>
    .error (.of s!"invalid length 0, expected struct variant {variant} with 1 element")
  | sequence (c :: rest) => do
    let s ← c.asText expected
    if rest.isEmpty then return s
    throw (.of s!"invalid length {rest.length + 1}, expected 1 element in sequence")
  | c => .error (.invalidType c.described s!"struct variant {variant}")

/-- Reads a variant without fields, beside which any field may stand. -/
def variantOfNone (variant : String) : Content → Except DecodeFault Unit
  | mapping _ => .ok ()
  | sequence items =>
    if items.isEmpty then .ok ()
    else .error (.of s!"invalid length {items.length}, expected 0 elements in sequence")
  | c => .error (.invalidType c.described s!"unit variant {variant}")

end Content

/-- A kind of tagged value: how it is called in messages, its tag and its variants. -/
structure TagRule where
  name : String
  tag : String
  variants : List String

namespace TagRule

def expected (r : TagRule) : String := s!"internally tagged enum {r.name}"

def variantList (r : TagRule) : String :=
  String.intercalate ", " (r.variants.map fun v => s!"`{v}`")

def checkVariant (r : TagRule) (v : String) : Except DecodeFault String :=
  if r.variants.contains v then .ok v
  else .error (.of s!"unknown variant `{v}`, expected one of {r.variantList}")

/-- Parts content into the variant that its tag names and what stands beside the tag. -/
def split (r : TagRule) : Content → Except DecodeFault (String × Content)
  | .sequence [] => .error (.missingField r.tag)
  | .sequence (c :: rest) => do
    let v ← r.checkVariant (← c.asText "variant identifier")
    return (v, .sequence rest)
  | .mapping entries => do
    let (tag, others) ← entries.foldlM (fun ((tag : Option String), others) (k, v) => do
      match k with
      | .atom (.text s) =>
        if s == r.tag then
          if tag.isSome then throw (.duplicateField r.tag)
          let v ← r.checkVariant (← v.asText "variant identifier")
          return (some v, others)
        else return (tag, others ++ [(k, v)])
      | _ => return (tag, others ++ [(k, v)])) (none, [])
    match tag with
    | some v => return (v, .mapping others)
    | none => throw (.missingField r.tag)
  | c => .error (.invalidType c.described r.expected)

end TagRule

namespace Decode

def variantFault : DecodeFault :=
  .of "untagged and internally tagged enums do not support enum input"

def scalarContent (tag : Option String) (text : String) (style : ScalarStyle) (expected : String) :
    Decode Content := do
  if (Node.variantTag? tag).isSome then throw variantFault
  match ← liftM (Node.atom tag text style) with
  | .wideInt n => throw (.invalidType (Atom.wideInt n).described expected)
  | a => return .atom a

def content (d : Document) : Nat → Path → Node → Decode Content
  | 0, path, n => do
    match n with
    | .cut => throw d.cutFault
    | _ =>
      placed n.mark path do
        let target ← d.resolve n
        placed target.mark path do
          match target with
          | .scalar _ tag text style => scalarContent tag text style "any value"
          | .sequence mark tag _ | .mapping mark tag _ =>
            if (Node.variantTag? tag).isSome then throw variantFault
            throw (.tooDeep mark)
          | _ => throw d.cutFault
  | depth + 1, path, n => do
    match n with
    | .cut => throw d.cutFault
    | _ =>
      placed n.mark path do
        let target ← d.resolve n
        placed target.mark path do
          match target with
          | .scalar _ tag text style => scalarContent tag text style "any value"
          | .sequence _ tag items =>
            if (Node.variantTag? tag).isSome then throw variantFault
            .sequence <$> items.zipIdx.mapM fun (item, i) => content d depth (path.item i) item
          | .mapping _ tag entries =>
            if (Node.variantTag? tag).isSome then throw variantFault
            .mapping <$> entries.mapM fun (k, v) => do
              let k' ← content d depth path k
              let v' ← content d depth (valuePath path k) v
              return (k', v')
          | _ => throw d.cutFault

def variant (d : Document) (r : TagRule) (path : Path) (n : Node) : Decode String := do
  match n with
  | .cut => throw d.cutFault
  | _ =>
    placed n.mark path do
      let target ← d.resolve n
      placed target.mark path do
        let name ← text d "variant identifier" path target
        liftM (r.checkVariant name)

/-- Reads a key beside the fields of a tagged value: `none` is the tag itself. -/
def tagOrContent (d : Document) (r : TagRule) (depth : Nat) (path : Path) (n : Node) :
    Decode (Option Content) := do
  match n with
  | .cut => throw d.cutFault
  | _ =>
    placed n.mark path do
      let target ← d.resolve n
      match target with
      | .scalar mark tag text style =>
        placed mark path do
          match ← scalarContent tag text style s!"a type tag `{r.tag}` or any other value" with
          | .atom (.text s) => return if s == r.tag then none else some (.text s)
          | c => return some c
      | _ => some <$> content d depth path target

/-- Reads a tagged value: the name of its variant and the content beside the tag. -/
def tagged (d : Document) (r : TagRule) (depth : Nat) (path : Path) (n : Node) :
    Decode (String × Content) := do
  match n with
  | .cut => throw d.cutFault
  | _ =>
    placed n.mark path do
      let target ← d.resolve n
      placed target.mark path do
        match target with
        | .sequence mark tag items =>
          if (Node.variantTag? tag).isSome then throw (.invalidType "enum" r.expected)
          deeper mark depth fun depth => do
            match items with
            | [] => throw (.missingField r.tag)
            | first :: rest =>
              let v ← variant d r (path.item 0) first
              let rest ← rest.zipIdx.mapM fun (item, i) =>
                content d depth (path.item (i + 1)) item
              return (v, .sequence rest)
        | .mapping mark tag entries =>
          if (Node.variantTag? tag).isSome then throw (.invalidType "enum" r.expected)
          deeper mark depth fun depth => do
            let (v, others) ← entries.foldlM (fun ((v : Option String), others) (key, value) => do
              match ← tagOrContent d r depth path key with
              | none =>
                if v.isSome then throw (.duplicateField r.tag)
                return (some (← variant d r (valuePath path key) value), others)
              | some key' =>
                let value' ← content d depth (valuePath path key) value
                return (v, others ++ [(key', value')])) (none, [])
            match v with
            | some v => return (v, .mapping others)
            | none => throw (.missingField r.tag)
        | .scalar _ tag text style =>
          if (Node.variantTag? tag).isSome then throw (.invalidType "enum" r.expected)
          let a ← liftM (Node.atom tag text style)
          throw (.invalidType a.described r.expected)
        | _ => throw (target.mismatch d r.expected)

end Decode
end DumpVault.Yaml
