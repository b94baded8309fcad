import DumpVault.Fault.Io
import DumpVault.Files.Location

/-!
# File trees

The files of a machine as a map from locations to entries. An operation either succeeds or reports
the error that a POSIX system gives, and one that fails changes nothing.
-/
namespace DumpVault

inductive Entry
  | directory
  | file (content : ByteArray)

instance : Inhabited Entry := ⟨.directory⟩

structure FileTree where
  entries : List (Location × Entry)

namespace FileTree

def empty : FileTree := ⟨[]⟩

instance : Inhabited FileTree := ⟨empty⟩

/-- The entry at a location; the root is a directory. -/
def at? (t : FileTree) (l : Location) : Option Entry :=
  if l.isEmpty then some .directory
  else (t.entries.find? fun e => e.1 == l).map (·.2)

def put (t : FileTree) (l : Location) (e : Entry) : FileTree :=
  ⟨(l, e) :: t.entries.filter fun x => x.1 != l⟩

def erase (t : FileTree) (l : Location) : FileTree := ⟨t.entries.filter fun x => x.1 != l⟩

@[simp] theorem at?_put_self (t : FileTree) (l : Location) (e : Entry) (h : l ≠ []) :
    (t.put l e).at? l = some e := by
  simp [at?, put, h]

theorem at?_put_of_ne (t : FileTree) {l m : Location} (e : Entry) (h : m ≠ l) :
    (t.put l e).at? m = t.at? m := by
  unfold at? put
  split
  · rfl
  · congr 1
    rw [List.find?_cons_of_neg (by simpa using fun hl => h hl.symm), List.find?_filter]
    congr 1
    funext x
    by_cases hx : x.1 = m
    · simp [hx, h]
    · simp [hx]

theorem at?_erase_of_ne (t : FileTree) {l m : Location} (h : m ≠ l) :
    (t.erase l).at? m = t.at? m := by
  unfold at? erase
  split
  · rfl
  · congr 1
    rw [List.find?_filter]
    congr 1
    funext x
    by_cases hx : x.1 = m
    · simp [hx, h]
    · simp [hx]

def content? (t : FileTree) (l : Location) : Option ByteArray :=
  match t.at? l with
  | some (.file content) => some content
  | _ => none

def names (t : FileTree) (l : Location) : List String :=
  t.entries.filterMap fun (m, _) =>
    if m.length == l.length + 1 && m.take l.length == l then m.getLast? else none

/-- The files anywhere below a directory, by the names that lead there from it. -/
def filesBelow (t : FileTree) (l : Location) : List (Location × ByteArray) :=
  t.entries.filterMap fun (m, e) =>
    match e with
    | .file content =>
      if l.length < m.length && m.take l.length == l then some (m.drop l.length, content) else none
    | .directory => none

/-- Goes on from a directory along names; every name but the last must lead to a directory. -/
def walk (t : FileTree) (l : Location) : List String → Except IoFault Location
  | [] => .ok l
  | name :: rest =>
    match t.at? l with
    | some .directory =>
      if Location.longestName < name.utf8ByteSize then .error (.os Fault.nameTooLong)
      else walk t (if name == ".." then l.dropLast else l ++ [name]) rest
    | some (.file _) => .error (.os Fault.notDirectory)
    | none => .error (.os Fault.noEntry)

def nulFault : IoFault :=
  .described .invalidInput "file name contained an unexpected NUL byte"

/-- The location that a path names from a working directory, whether or not anything is there. -/
def resolve (t : FileTree) (cwd : Location) (path : String) : Except IoFault Location :=
  let p := PathText.ofString path
  if p.hasNul then .error nulFault
  else if p.empty then .error (.os Fault.noEntry)
  else if p.tooLong then .error (.os Fault.nameTooLong)
  else
    match t.walk (if p.absolute then [] else cwd) p.names with
    | .error e => .error e
    | .ok l =>
      match t.at? l with
      | some (.file _) => if p.directory then .error (.os Fault.notDirectory) else .ok l
      | _ => .ok l

def stat (t : FileTree) (cwd : Location) (path : String) : Except IoFault (Location × Entry) := do
  let l ← t.resolve cwd path
  match t.at? l with
  | some e => return (l, e)
  | none => throw (.os Fault.noEntry)

def readFile (t : FileTree) (cwd : Location) (path : String) : Except IoFault ByteArray := do
  match ← t.stat cwd path with
  | (_, .file content) => return content
  | (_, .directory) => throw (.os Fault.isDirectory)

def writeFile (t : FileTree) (cwd : Location) (path : String) (content : ByteArray) :
    Except IoFault FileTree := do
  let l ← t.resolve cwd path
  match t.at? l with
  | some .directory => throw (.os Fault.isDirectory)
  | some (.file _) => return t.put l (.file content)
  | none =>
    if (PathText.ofString path).directory then throw (.os Fault.isDirectory)
    return t.put l (.file content)

def makeDirectoriesFrom (t : FileTree) (l : Location) : List String → Except IoFault FileTree
  | [] => .ok t
  | name :: rest =>
    if Location.longestName < name.utf8ByteSize then .error (.os Fault.nameTooLong)
    else
      let m := if name == ".." then l.dropLast else l ++ [name]
      match t.at? m with
      | some .directory => makeDirectoriesFrom t m rest
      | some (.file _) =>
        .error (.os (if rest.isEmpty then Fault.fileExists else Fault.notDirectory))
      | none => makeDirectoriesFrom (t.put m .directory) m rest

def makeDirectories (t : FileTree) (cwd : Location) (path : String) :
    Except IoFault FileTree :=
  let p := PathText.ofString path
  if p.hasNul then .error nulFault
  else if p.empty then .ok t
  else if p.tooLong then .error (.os Fault.nameTooLong)
  else t.makeDirectoriesFrom (if p.absolute then [] else cwd) p.names

def removeFile (t : FileTree) (cwd : Location) (path : String) : Except IoFault FileTree := do
  match ← t.stat cwd path with
  | (_, .directory) => throw (.os Fault.isDirectory)
  | (l, .file _) => return t.erase l

/-- The tree without the file at a location, if there is one. -/
def dropFile (t : FileTree) (l : Location) : FileTree :=
  match t.content? l with
  | some _ => t.erase l
  | none => t

/-- Moves a file to a location, in place of a file that is there. -/
def renameFile (t : FileTree) (source target : Location) : Except IoFault FileTree :=
  match t.at? source, t.at? target with
  | some (.file content), some (.file _) | some (.file content), none =>
    .ok ((t.erase source).put target (.file content))
  | some (.file _), some .directory => .error (.os Fault.isDirectory)
  | some .directory, _ => .error (.os Fault.isDirectory)
  | none, _ => .error (.os Fault.noEntry)

/-- The tree in which a file stands at a location, with every directory that leads there. -/
def provide (t : FileTree) (l : Location) (e : Entry) : FileTree :=
  let t := (List.range (l.length - 1)).foldl (fun t i =>
    let m := l.take (i + 1)
    match t.at? m with
    | none => t.put m .directory
    | some _ => t) t
  match e, t.at? l with
  | .directory, some _ => t
  | e, _ => t.put l e

end FileTree
end DumpVault
