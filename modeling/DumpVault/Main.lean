import Std.Time.DateTime.Timestamp
import DumpVault.CommandLine.Run
import DumpVault.Machine.Host

/-!
# The program

The outer layer of the command line. A run is carried out call by call on a machine in memory:
before each call the files and variables that it names are brought in, and after it what has
changed is brought out again. Everything that is decided is decided by the library.
-/
namespace DumpVault.Program

/-- A file of the system. Its own path ends in `.` when it is a directory. -/
def entryOf (path : String) : IO.FS.DirEntry := { root := path, fileName := "." }

def locationOf (path : String) : Location := PathText.names (PathText.ofString path)

inductive Depth
  | entry | names | everything
  deriving DecidableEq

partial def bringIn (depth : Depth) (t : FileTree) (path : String) : IO FileTree := do
  if ← (entryOf path).path.isDir then
    let t := t.provide (locationOf path) .directory
    if depth == .entry then return t
    let entries ← try (entryOf path).path.readDir catch _ => pure #[]
    let below := if depth == .names then .entry else depth
    entries.foldlM (fun t e => bringIn below t (joinPath path e.fileName)) t
  else
    try
      let content ← IO.FS.readBinFile path
      return t.provide (locationOf path) (.file content)
    catch _ => return t

def pathsOf (cwd : String) : Call → List (String × Depth)
  | .readFile path | .openFile path | .removeFile path => [(path, .entry)]
  | .password (.file path) => [(path, .entry)]
  | .createStaging dir => [(dir, .names)]
  | .connect store =>
    match store.backend, store.credentialsPath with
    | .directory root, _ => [(joinPath root store.bucket, .everything)]
    | .gcs, some path => [(path, .entry)]
    | _, _ => []
  | .spawn command => (cwd, .everything) :: (command.program :: command.args).map fun a => (a, .entry)
  | _ => []

def variablesOf : Call → List String
  | .password (.env var) => [var]
  | .temporaryDir => ["TMPDIR"]
  | _ => []

def bringVariable (e : Environment) (name : String) : IO Environment := do
  match ← IO.getEnv name with
  | some value => return e.set name value.toUTF8
  | none => return e

def prepare (h : Host) (c : Call) : IO Host := do
  let cwd := h.cwd.text
  let files ← (pathsOf cwd c).foldlM (fun t (path, depth) =>
    bringIn depth t (joinPath cwd path)) h.files
  let environment ← (variablesOf c).foldlM bringVariable h.environment
  let now ← Std.Time.Timestamp.now
  let clock := Calendar.Instant.ofParts? now.toSecondsSinceUnixEpoch.val 0
  return { h with files, environment, clock := clock.getD h.clock }

def isSame (a b : Option Entry) : Bool :=
  match a, b with
  | some .directory, some .directory | none, none => true
  | some (.file x), some (.file y) => x == y
  | _, _ => false

def bringOut (old new : FileTree) : IO Unit := do
  for (l, e) in new.entries.reverse do
    if !isSame (old.at? l) (some e) then
      match e with
      | .directory => IO.FS.createDirAll l.text
      | .file content => IO.FS.writeBinFile l.text content
  for (l, e) in old.entries do
    match e, new.at? l with
    | .file _, none => IO.FS.removeFile l.text
    | _, _ => pure ()

def report (setting : Log.Setting) (old new : Host) : IO Unit := do
  let stderr ← IO.getStderr
  for line in setting.shown (new.lines.drop old.lines.length) do
    stderr.putStrLn s!"{line.level.name} {line.text}"
  let stdout ← IO.getStdout
  stdout.write (new.printed.extract old.printed.size new.printed.size)
  stdout.flush

def carryOut {α : Type} (setting : Log.Setting) : Prog α → Host → IO α
  | .pure value, _ => return value
  | .call c next, h => do
    let before ← prepare h c
    let (reply, after) := Host.answer c before
    bringOut before.files after.files
    report setting before after
    carryOut setting (next reply) after

def start : IO Host := do
  let cwd ← IO.currentDir
  let files ← bringIn .entry .empty cwd.toString
  return { files, cwd := locationOf cwd.toString, environment := .empty }

end DumpVault.Program

open DumpVault in
def main (args : List String) : IO UInt32 := do
  let value ← IO.getEnv Log.variableName
  if let some warning := Log.warning? value then IO.eprintln warning
  let code ← Program.carryOut (Log.Setting.read value) (CommandLine.run args) (← Program.start)
  return code.toUInt32
