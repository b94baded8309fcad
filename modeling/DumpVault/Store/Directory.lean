import DumpVault.Files.Tree
import DumpVault.Store.Memory

/-!
# Blobs in a directory

A store as the files below a base directory. A writer fills a staged file, the name of its blob
with `#` and a number behind it, and takes the blob's name when it is finalized. Files with such
names are never listed and cannot be named.
-/
namespace DumpVault

/-- A staged file and the file that it is to become. -/
structure StagedBlob where
  target : Location
  staged : Location

structure DirectoryStore where
  base : Location
  writers : List (Nat × StagedBlob) := []
  opened : Nat := 0

namespace DirectoryStore

def fault (source : Cause) : BlobFault := .generic "LocalFileSystem" source

/-- What follows the first `#` of a name. -/
def suffix? (name : String) : Option (List Char) :=
  match name.toList.dropWhile (· != '#') with
  | [] => none
  | _ :: rest => some rest

/-- A name that a staged file could have. -/
def isStagedName (name : String) : Bool :=
  match suffix? name with
  | some rest => !rest.isEmpty && rest.all Text.isDigit
  | none => false

def locate (d : DirectoryStore) (p : StorePath) : Except BlobFault Location :=
  match p.segments.getLast? with
  | none => .error (fault
      s!"Filenames containing trailing '/#\\d+/' are not supported: {p.text}")
  | some name =>
    if isStagedName name then
      .error (fault s!"Filenames containing trailing '/#\\d+/' are not supported: {p.text}")
    else .ok (d.base ++ p.segments)

def openFault (l : Location) (cause : IoFault) : BlobFault :=
  fault (.behind s!"Unable to open file {l.text}: " cause.text)

/-- The bytes of a blob. A directory is no blob. -/
def get (d : DirectoryStore) (t : FileTree) (p : StorePath) : Except BlobFault ByteArray := do
  let l ← d.locate p
  match t.stat [] l.text with
  | .ok (_, .file content) => return content
  | .ok (_, .directory) => throw (.notFound l.text "is directory")
  | .error (.os code) =>
    if code = Fault.noEntry then throw (.notFound l.text (IoFault.os code).text)
    else throw (openFault l (.os code))
  | .error cause => throw (openFault l cause)

def stagedAt (target : Location) (number : Nat) : Location :=
  target.dropLast ++ [target.getLastD "" ++ "#" ++ Text.natText number]

/-- Finds the least number from `number` whose staged file is not there yet. -/
def freeStaged (t : FileTree) (target : Location) : Nat → Nat → Location
  | 0, number => stagedAt target number
  | fuel + 1, number =>
    match t.at? (stagedAt target number) with
    | none => stagedAt target number
    | some _ => freeStaged t target fuel (number + 1)

/-- Creates a staged file, with the directories that lead to it. -/
def createStaged (t : FileTree) (target : Location) : Except BlobFault (FileTree × Location) := do
  let staged := freeStaged t target t.entries.length 1
  match t.writeFile [] staged.text .empty with
  | .ok t => return (t, staged)
  | .error (.os code) =>
    if code = Fault.noEntry then
      match t.makeDirectories [] (Location.text staged.dropLast) with
      | .error cause =>
        throw (fault (.behind s!"Unable to create dir {Location.text staged.dropLast}: " cause.text))
      | .ok t =>
        match t.writeFile [] staged.text .empty with
        | .ok t => return (t, staged)
        | .error cause => throw (openFault staged cause)
    else throw (openFault staged (.os code))
  | .error cause => throw (openFault staged cause)

def openWriter (d : DirectoryStore) (t : FileTree) (p : StorePath) :
    Except BlobFault (Writer × DirectoryStore × FileTree) := do
  let target ← d.locate p
  let (t, staged) ← createStaged t target
  return (⟨d.opened⟩,
    { d with writers := (d.opened, ⟨target, staged⟩) :: d.writers, opened := d.opened + 1 }, t)

/-- Adds a chunk to a writer's staged file, unless the file has gone. -/
def write (d : DirectoryStore) (t : FileTree) (w : Writer) (chunk : ByteArray) : FileTree :=
  match d.writers.lookup w.id with
  | none => t
  | some b =>
    match t.content? b.staged with
    | some content => t.put b.staged (.file (content ++ chunk))
    | none => t

def close (d : DirectoryStore) (w : Writer) : DirectoryStore :=
  { d with writers := d.writers.filter fun (id, _) => id != w.id }

/-- Ends a writer without publishing anything; its staged file goes. -/
def abort (d : DirectoryStore) (t : FileTree) (w : Writer) : DirectoryStore × FileTree :=
  match d.writers.lookup w.id with
  | none => (d, t)
  | some b => (d.close w, t.dropFile b.staged)

/-- Ends a writer and gives its staged file the blob's name. The staged file of a writer that
cannot publish stays. -/
def finalize (d : DirectoryStore) (t : FileTree) (w : Writer) :
    Except BlobFault Unit × DirectoryStore × FileTree :=
  match d.writers.lookup w.id with
  | none => (.ok (), d, t)
  | some b =>
    match t.renameFile b.staged b.target with
    | .ok t => (.ok (), d.close w, t)
    | .error _ => (.error (fault "Upload aborted"), d.close w, t)

def put (d : DirectoryStore) (t : FileTree) (p : StorePath) (content : ByteArray) :
    Except BlobFault FileTree := do
  let (w, d, t) ← d.openWriter t p
  let t := d.write t w content
  match d.finalize t w with
  | (.ok _, _, t) => return t
  | (.error f, _, _) => throw f

def isControl (c : Char) : Bool := c.toNat < 0x20 || c.toNat == 0x7f

/-- The path of a file below the base; names with control characters are refused. -/
def pathOf (names : List String) : Except BlobFault StorePath :=
  match names.find? fun name => name.toList.any isControl with
  | none => .ok ⟨names⟩
  | some name =>
    let illegal := String.ofList ((name.toList.find? isControl).toList)
    let whole := String.intercalate "/" names
    .error (.invalidPath (.behind ("Error parsing Path \"" ++ whole ++ "\": ")
      (.plain ("Encountered illegal character sequence \"" ++ illegal ++
        "\" whilst parsing path segment \"" ++ name ++ "\""))))

def paths (d : DirectoryStore) (t : FileTree) : Except BlobFault (List StorePath) := do
  let all ← (t.filesBelow d.base).mapM fun (names, _) => pathOf names
  return all.filter fun p => !isStagedName (p.segments.getLastD "")

end DirectoryStore
end DumpVault
