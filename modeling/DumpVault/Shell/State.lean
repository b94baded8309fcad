import DumpVault.Files.Tree
import DumpVault.Machine.Environment
import DumpVault.Shell.Pattern
import DumpVault.Shell.Word

/-!
# The state of a shell

What a script can see and change: files, parameters and its streams. Input is what has not been
read yet, and output goes to a file, to a pipe, or out of the shell. Jobs that a script leaves behind
go on when it has ended.
-/
namespace DumpVault.Shell

inductive Sink
  | outside
  | pipe
  | file (l : Location)
  | nowhere
  | closed
  deriving DecidableEq, Repr

inductive Input
  | bytes (left : ByteArray)
  | zeros
  | closed

/-- What the jobs do that a script has left behind. -/
structure Remains where
  /-- They keep the input open. -/
  holdsInput : Bool := false
  /-- They send the parent an interrupt. -/
  interruptsParent : Bool := false
  deriving DecidableEq, Repr

structure State where
  files : FileTree
  cwd : Location
  environment : Environment
  /-- The name of the shell and its arguments. -/
  arguments : List String := []
  input : Input := .bytes .empty
  /-- The numbers of further streams that are copies of the input. -/
  copies : List Nat := []
  output : Sink := .outside
  /-- What has left the shell. -/
  emitted : ByteArray := .empty
  /-- What has gone into the pipe. -/
  piped : ByteArray := .empty
  status : UInt8 := 0
  /-- The parent has been sent an interrupt. -/
  interruptsParent : Bool := false
  remains : Remains := {}

inductive Flow
  | next
  | exit
  | killed (signal : UInt8)
  /-- Asleep while the parent has been interrupted. -/
  | asleep
  deriving DecidableEq, Repr

def ownNumber : String := "4242"
def parentNumber : String := "4241"

def nullDevice : Location := ["dev", "null"]
def zeroDevice : Location := ["dev", "zero"]

namespace State

def withStatus (s : State) (status : UInt8) : State := { s with status }

/-- Sends bytes where the output leads. -/
def emit (s : State) (bytes : ByteArray) : State :=
  match s.output with
  | .outside => { s with emitted := s.emitted ++ bytes }
  | .pipe => { s with piped := s.piped ++ bytes }
  | .nowhere | .closed => s
  | .file l =>
    match s.files.content? l with
    | some content => { s with files := s.files.put l (.file (content ++ bytes)) }
    | none => s

def names (path : String) (device : Location) : Bool :=
  let p := PathText.ofString path
  p.absolute && p.names == device

/-- Opens a file for output, emptied unless `append`. -/
def openOutput (s : State) (append : Bool) (path : String) : Option (Sink × State) :=
  if names path nullDevice then some (.nowhere, s)
  else
    match s.files.resolve s.cwd path with
    | .error _ => none
    | .ok l =>
      if append && (s.files.content? l).isSome then some (.file l, s)
      else
        match s.files.writeFile s.cwd path .empty with
        | .ok files => some (.file l, { s with files })
        | .error _ => none

def openInput (s : State) (path : String) : Option Input :=
  if names path nullDevice then some (.bytes .empty)
  else if names path zeroDevice then some .zeros
  else
    match s.files.resolve s.cwd path with
    | .error _ => none
    | .ok l => (s.files.content? l).map .bytes

def takeInput (s : State) (n : Nat) : ByteArray × State :=
  match s.input with
  | .bytes left => (left.extract 0 n, { s with input := .bytes (left.extract n left.size) })
  | .zeros => (ByteArray.mk (Array.replicate n 0), s)
  | .closed => (.empty, s)

def drainInput (s : State) : ByteArray × State :=
  match s.input with
  | .bytes left => (left, { s with input := .bytes .empty })
  | .zeros | .closed => (.empty, s)

def parameter? (s : State) (name : String) : Option String :=
  match name with
  | "?" => some (toString s.status.toNat)
  | "$" => some ownNumber
  | "PPID" => some parentNumber
  | "#" => some (toString (s.arguments.length - 1))
  | "@" | "*" => some (String.intercalate " " (s.arguments.drop 1))
  | "-" => some ""
  | "!" => none
  | name =>
    match name.toList with
    | [c] => if Text.isDigit c then s.arguments[Text.digitValue c]? else s.environment.text? name
    | _ => s.environment.text? name

def valueOf (s : State) (p : Parameter) : String :=
  match s.parameter? p.name, p.default with
  | some v, some d => if p.orEmpty && v == "" then d else v
  | some v, none => v
  | none, some d => d
  | none, none => ""

end State

/-- A field in the making: each character with whether it is quoted. -/
abbrev Field := List (Char × Bool)

def Field.text (f : Field) : String := String.ofList (f.map (·.1))

def quotedField (s : String) : Field := s.toList.map fun c => (c, true)

def plainField (s : String) : Field := s.toList.map fun c => (c, false)

def isSplit (c : Char) : Bool := c == ' ' || c == '\t' || c == '\n'

/-- Adds text to the last of the fields, which `none` has not been begun. The text is split at its
blanks. -/
def splitInto (fields : List Field) (last : Option Field) : List Char → List Field × Option Field
  | [] => (fields, last)
  | c :: cs =>
    if isSplit c then
      match last with
      | some f => splitInto (fields ++ [f]) none cs
      | none => splitInto fields none cs
    else splitInto fields (some (last.getD [] ++ [(c, false)])) cs

/-- Adds fields of their own, the first joined to the last of those before. -/
def joinFields (fields : List Field) (last : Option Field) : List Field → List Field × Option Field
  | [] => (fields, last)
  | f :: fs =>
    match (last.getD [] ++ f) :: fs with
    | all => (fields ++ all.dropLast, all.getLast?)

namespace State

def expandPieces (s : State) (fields : List Field) (last : Option Field) : Word → List Field
  | [] =>
    match last with
    | some f => fields ++ [f]
    | none => fields
  | .plain t :: rest => s.expandPieces fields (some (last.getD [] ++ plainField t)) rest
  | .quoted "" :: .parameter p true :: rest =>
    -- quotes around all arguments make no field when there are none
    if p.name == "@" then s.expandPieces fields last (.parameter p true :: rest)
    else s.expandPieces fields (some (last.getD [])) (.parameter p true :: rest)
  | .quoted t :: rest => s.expandPieces fields (some (last.getD [] ++ quotedField t)) rest
  | .parameter p true :: rest =>
    if p.name == "@" then
      let (fields, last) := joinFields fields last ((s.arguments.drop 1).map quotedField)
      s.expandPieces fields last rest
    else s.expandPieces fields (some (last.getD [] ++ quotedField (s.valueOf p))) rest
  | .parameter p false :: rest =>
    let (fields, last) := splitInto fields last (s.valueOf p).toList
    s.expandPieces fields last rest

def isGlob (f : Field) : Bool := f.any fun (c, isQuoted) => !isQuoted && "*?[".toList.contains c

def fieldParts : Field → List Field
  | [] => [[]]
  | (c, q) :: rest =>
    match fieldParts rest with
    | [] => [[(c, q)]]
    | p :: ps => if c == '/' then [] :: p :: ps else ((c, q) :: p) :: ps

/-- The paths that go on from `base` by the parts of a pattern. -/
def globFrom (s : State) (base : String) : List Field → List String
  | [] => [base]
  | part :: rest =>
    let onward (name : String) : List String :=
      let path := base ++ name
      if rest.isEmpty then
        match s.files.stat s.cwd path with
        | .ok _ => [path]
        | .error _ => []
      else s.globFrom (path ++ "/") rest
    if isGlob part then
      match s.files.resolve s.cwd (if base == "" then "." else base) with
      | .error _ => []
      | .ok l =>
        let items := Pattern.ofGlob part.length part
        let wantsHidden := (part.head?.map (·.1)) == some '.'
        let names := (s.files.names l).filter fun name =>
          Pattern.matchWhole items name.toList &&
            (wantsHidden || name.toList.head? != some '.')
        (names.mergeSort fun a b => decide (a ≤ b)).flatMap onward
    else if part.isEmpty && !rest.isEmpty then s.globFrom (base ++ "/") rest
    else onward (Field.text part)

/-- The texts that a field stands for: the files that it matches, or itself. -/
def expandField (s : State) (f : Field) : List String :=
  if isGlob f then
    match s.globFrom "" (fieldParts f) with
    | [] => [f.text]
    | paths => paths
  else [f.text]

def expandWord (s : State) (w : Word) : List String :=
  (s.expandPieces [] none w).flatMap s.expandField

def expandOne (s : State) (w : Word) : String :=
  String.join ((s.expandPieces [] none w).map Field.text)

end State
end DumpVault.Shell
