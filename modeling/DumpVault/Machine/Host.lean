import DumpVault.Machine.Password
import DumpVault.Run.Prog
import DumpVault.Shell.Run
import DumpVault.Store.Account
import DumpVault.Store.Vault
import DumpVault.Text.Quoted

/-!
# A machine held in memory

Everything that a run can reach, as one value: files, environment, clock, store, log and the
utility that runs beside it. The machine answers the calls of a run, so a run can be carried out,
and looked at, without leaving the value. Utilities are evaluated when they are waited for; their
effects belong to that moment.
-/
namespace DumpVault

structure Child where
  command : Command
  input : ByteArray := .empty
  ended : Bool := false

structure Host where
  files : FileTree
  cwd : Location
  environment : Environment
  clock : Calendar.Instant := .epoch
  vault : Vault := ⟨"", .memory {}⟩
  isCancelled : Bool := false
  /-- A log line that begins like this fires the token. -/
  cancelOn : Option String := none
  lines : List Line := []
  /-- What has been written to standard output. -/
  printed : ByteArray := .empty
  child : Option Child := none
  /-- Where the staging files of a scripted store are. -/
  staging : Location := []

instance : Inhabited Host := ⟨{ files := .empty, cwd := [], environment := .empty }⟩

namespace Host

def log (h : Host) (line : Line) : Host :=
  let fires := match h.cancelOn with
    | some start => start.toList.isPrefixOf line.text.toList
    | none => false
  { h with lines := h.lines ++ [line], isCancelled := h.isCancelled || fires }

def settle (h : Host) (a : Aftermath) : Host :=
  { h with vault := a.vault, files := a.files, isCancelled := h.isCancelled || a.cancels }

def nameDigit (n : Nat) : Char :=
  if n < 26 then Char.ofNat ('a'.toNat + n) else Char.ofNat ('0'.toNat + (n - 26))

/-- The part of a staging file's name that no other has. -/
def uniquePart : Nat → Nat → List Char
  | 0, _ => []
  | width + 1, n => uniquePart width (n / 36) ++ [nameDigit (n % 36)]

def stagingName (n : Nat) : String := "archivist-" ++ String.ofList (uniquePart 6 n) ++ ".dump"

def faultAt (path : String) : IoFault → IoFault
  | .os code => .atPath code (Text.quotedPath path)
  | .described kind message => .described kind s!"{message.text} at path {Text.quotedPath path}"
  | fault => fault

def stagingPath (h : Host) (dir : String) (n : Nat) : String :=
  joinPath (joinPath h.cwd.text dir) (stagingName n)

/-- The first staging path from number `n` that is free. The first number bounds the search. -/
def freeStagingPath (h : Host) (dir : String) : Nat → Nat → String
  | 0, n => h.stagingPath dir n
  | fuel + 1, n =>
    match h.files.stat h.cwd (h.stagingPath dir n) with
    | .ok _ => h.freeStagingPath dir fuel (n + 1)
    | .error _ => h.stagingPath dir n

def createStaging (h : Host) (dir : String) : Except IoFault String × Host :=
  let path := h.freeStagingPath dir h.files.entries.length 0
  match h.files.writeFile h.cwd path .empty with
  | .ok files => (.ok path, { h with files })
  | .error fault => (.error (faultAt path fault), h)

def content? (h : Host) (path : String) : Option ByteArray := (h.files.readFile h.cwd path).toOption

/-- Opens a file. A directory can be opened, but reading it fails. -/
def openFile (h : Host) (path : String) : Except IoFault Source :=
  match h.files.stat h.cwd path with
  | .ok (_, .file bytes) => .ok (.ofBytes bytes)
  | .ok (_, .directory) => .ok ⟨[], .failed (.os Fault.isDirectory)⟩
  | .error fault => .error fault

def hasNul (s : String) : Bool := s.toList.contains '\x00'

def nulFault : IoFault := .described .invalidInput "nul byte found in provided data"

/-- Why a program cannot be started. -/
def programFault? (h : Host) (program : String) : Option IoFault :=
  if program.toList.contains '/' then
    match h.files.stat h.cwd program with
    | .ok _ => some (.os Fault.accessDenied)
    | .error fault => if Shell.isProgram program then none else some fault
  else if Shell.isProgram program then none
  else some (.os Fault.noEntry)

def spawn (h : Host) (c : Command) : Except IoFault Bool × Host :=
  if hasNul c.program || c.args.any hasNul || (c.password.map Secret.value).any hasNul then
    (.error nulFault, h)
  else
    match h.programFault? c.program with
    | some fault => (.error fault, h)
    | none => (.ok true, { h with child := some { command := c } })

/-- The shell in which a utility runs, its environment changed by the password alone. -/
def shellOf (h : Host) (c : Child) : Shell.State :=
  { files := h.files
    cwd := h.cwd
    environment := h.environment.forUtility c.command.password
    input := .bytes c.input
    output := match c.command.streams with
      | .fromPipe => .outside
      | .intoFile path =>
        match h.files.resolve h.cwd path with
        | .ok l => .file l
        | .error _ => .nowhere }

def evaluate (h : Host) (c : Child) : Shell.Outcome × Shell.State :=
  Shell.run (c.command.program :: c.command.args) (h.shellOf c)

/-- What a pipe holds that nobody reads. -/
def pipeCapacity : Nat := 64 * 1024

/-- The bytes of its input that a utility leaves unread. -/
def unread (h : Host) (c : Child) : Nat :=
  match (h.evaluate c).2.input with
  | .bytes left => left.size
  | .zeros => 0
  | .closed => c.input.size

/-- What a utility has done by its end, or until it fell asleep. -/
def work (h : Host) (c : Child) (outcome : Shell.Outcome) (s : Shell.State) : Host :=
  { h with
    files := s.files
    printed := h.printed ++ s.emitted
    child := some { c with ended := outcome != .asleep } }

def interruptLine : Line := ⟨.warn, "interrupted; cancelling"⟩

def interrupt (h : Host) : Host := { h.log interruptLine with isCancelled := true }

/-- Offers a chunk that the pipe has no room for to a utility that reads no more. The pipe breaks
when nobody is left to read from it; as long as a job that the utility has left behind could, the
chunk is not taken. -/
def overflow (h : Host) (c : Child) : Taken × Host :=
  let (outcome, s) := h.evaluate c
  if outcome != .asleep && s.remains.holdsInput && s.remains.interruptsParent then
    (.interrupted, (h.work c outcome s).interrupt)
  else (.failed (.os Fault.brokenPipe), h)

/-- Offers a chunk to the utility. One that has ended without reading breaks the pipe, unless the
pipe holds what is left. -/
def offer (h : Host) (chunk : ByteArray) : Taken × Host :=
  match h.child with
  | none => (.failed (.os Fault.brokenPipe), h)
  | some c =>
    let c := { c with input := c.input ++ chunk }
    let h := { h with child := some c }
    if pipeCapacity < c.input.size && pipeCapacity < h.unread c then h.overflow c
    else (.accepted, h)

def statusOf : Shell.Outcome → ExitStatus
  | .exited status => .ofCode status
  | .killed signal => .ofSignal signal
  | .asleep => .ofSignal 9

/-- Waits for the utility's end, unless the run has been cancelled; then the utility is overtaken
before it has done anything. -/
def wait (h : Host) : Waited × Host :=
  match h.child with
  | none => (.failed (.os 10), h)
  | some c =>
    if h.isCancelled then (.interrupted, h)
    else
      let (outcome, s) := h.evaluate c
      let h := h.work c outcome s
      let h := if s.interruptsParent then h.interrupt else h
      match outcome with
      | .asleep => (.interrupted, h)
      | outcome => (.exited (statusOf outcome), h)

def killFault : IoFault := .described .invalidInput "invalid argument: can't kill an exited process"

def kill (h : Host) : Except IoFault Unit :=
  match h.child with
  | some c => if c.ended then .error killFault else .ok ()
  | none => .error killFault

def makeDirectory (h : Host) (path : String) : Except IoFault (FileTree × Location) := do
  let files ← h.files.makeDirectories h.cwd path
  let l ← files.resolve h.cwd path
  return (files, l)

def connect (h : Host) (c : StoreConfig) : Except BlobFault Unit × Host :=
  match c.backend with
  | .memory => (.ok (), { h with vault := ⟨c.bucket, .memory {}⟩ })
  | .directory root =>
    match h.makeDirectory (joinPath root c.bucket) with
    | .ok (files, base) =>
      (.ok (), { h with files, vault := ⟨c.bucket, .directory { base }⟩ })
    | .error fault => (.error (.generic "LocalFileSystem" fault.text), h)
  | .gcs =>
    match Account.check (fun path => h.files.readFile h.cwd path) c.credentialsPath with
    | .ok _ => (.ok (), { h with vault := ⟨c.bucket, .cloud⟩ })
    | .error fault => (.error fault, h)

def temporaryDir (h : Host) : String := (h.environment.text? "TMPDIR").getD "/tmp"

def removeFile (h : Host) (path : String) : Except IoFault Unit × Host :=
  match h.files.removeFile h.cwd path with
  | .ok files => (.ok (), { h with files })
  | .error fault => (.error fault, h)

def answer (c : Call) (h : Host) : Reply c × Host :=
  match c with
  | .log line => ((), h.log line)
  | .isCancelled => (h.isCancelled, h)
  | .pause => (h.isCancelled, h)
  | .stall => ((), h)
  | .now => (h.clock, h)
  | .temporaryDir => (h.temporaryDir, h)
  | .password source => (source.password h.environment h.files h.cwd, h)
  | .createStaging dir => h.createStaging dir
  | .openFile path => (h.openFile path, h)
  | .readFile path => (h.files.readFile h.cwd path, h)
  | .removeFile path => h.removeFile path
  | .connect store => h.connect store
  | .exists key =>
    let (r, a) := h.vault.contains h.files key
    (r, h.settle a)
  | .openWriter key =>
    let (r, a) := h.vault.openWriter h.files key
    (r, h.settle a)
  | .write w chunk =>
    let (r, a) := h.vault.write h.files w chunk
    (r, h.settle a)
  | .finalize w =>
    let (r, a) := h.vault.finalize h.files h.staging w
    (r, h.settle a)
  | .abort w =>
    let (r, a) := h.vault.abort h.files w
    (r, h.settle a)
  | .openReader key =>
    let (r, a) := h.vault.openReader h.files key
    (r, h.settle a)
  | .list =>
    let (r, a) := h.vault.list h.files
    (r, h.settle a)
  | .spawn command => h.spawn command
  | .offer chunk => h.offer chunk
  | .closeInput => (.ok (), h)
  | .wait => h.wait
  | .kill => (h.kill, h)
  | .reap => (.ok (.ofSignal 9), { h with child := none })
  | .print text => ((), { h with printed := h.printed ++ text.toUTF8 })

def perform {α : Type} (h : Host) (p : Prog α) : α × Host := p.run answer h

end Host
end DumpVault
