import DumpVault.Config.Validate
import DumpVault.Text.Quoted
import DumpVault.Run.Dump
import DumpVault.Run.Fetch
import DumpVault.Run.Restore
import DumpVault.Run.Upload

/-!
# The two pipelines

An archive run goes from dumping to uploading, a restore run from fetching to restoring. Each
passage from one state to the next is logged. The first failure ends the run, tagged with its
stage; nothing is tried again and nothing done is undone.
-/
namespace DumpVault

inductive ArchiveState
  | start | dumping | uploading | done | failed
  deriving DecidableEq, Repr

def ArchiveState.name : ArchiveState → String
  | start => "Start"
  | dumping => "Dumping"
  | uploading => "Uploading"
  | done => "Done"
  | failed => "Failed"

inductive RestoreState
  | start | fetching | restoring | done | failed
  deriving DecidableEq, Repr

def RestoreState.name : RestoreState → String
  | start => "Start"
  | fetching => "Fetching"
  | restoring => "Restoring"
  | done => "Done"
  | failed => "Failed"

/-- Enters a stage, unless the run has been cancelled. -/
def enterStage (stage : Stage) : Prog (Except Fault Unit) := do
  if ← Prog.ask .isCancelled then
    return .error ((Fault.cancelled s!"starting the {stage.name} stage").inStage stage)
  else return .ok ()

structure Archiver where
  dump : Dump
  bucket : String
  retain : Bool
  deriving DecidableEq, Repr

namespace Archiver

def ofConfig (bucket : String) (c : Config) : Prog Archiver := do
  let dump ← Dump.ofConfig c
  return ⟨dump, bucket, c.staging.retain⟩

def passage (old new : ArchiveState) : Line := ⟨.debug, s!"archive: {old.name} -> {new.name}"⟩

def advance (old new : ArchiveState) : Prog Unit := Prog.ask (.log (passage old new))

def cleanUp (a : Archiver) (path : String) : Prog Unit := do
  if a.retain then Prog.info s!"staging file {path} retained"
  else
    match ← Prog.ask (.removeFile path) with
    | .ok _ => return ()
    | .error fault => Prog.warn s!"unable to remove staging file {path}: {fault.text}"

def uploadStage (a : Archiver) (path : String) : Prog (ArchiveState × Except Fault Key) := do
  advance .dumping .uploading
  match ← enterStage .upload with
  | .error fault => return (.uploading, .error fault)
  | .ok _ =>
    match tagged .upload (← upload a.bucket path) with
    | .error fault => return (.uploading, .error fault)
    | .ok key =>
      a.cleanUp path
      return (.uploading, .ok key)

def stages (a : Archiver) : Prog (ArchiveState × Except Fault Key) := do
  advance .start .dumping
  match ← enterStage .dump with
  | .error fault => return (.dumping, .error fault)
  | .ok _ =>
    match tagged .dump (← a.dump.stage) with
    | .error fault => return (.dumping, .error fault)
    | .ok path => a.uploadStage path

def run (a : Archiver) : Prog (Except Fault Key) := do
  let (state, result) ← a.stages
  advance state (match result with
    | .ok _ => .done
    | .error _ => .failed)
  return result

end Archiver

structure Restorer where
  bucket : String
  utility : Utility
  deriving DecidableEq, Repr

namespace Restorer

def ofConfig (bucket : String) (c : Config) : Restorer := ⟨bucket, Restore.ofConfig c⟩

def passage (old new : RestoreState) : Line := ⟨.debug, s!"restore: {old.name} -> {new.name}"⟩

def advance (old new : RestoreState) : Prog Unit := Prog.ask (.log (passage old new))

def restoreStage (r : Restorer) (archive : Source) : Prog (RestoreState × Except Fault Unit) := do
  advance .fetching .restoring
  match ← enterStage .restore with
  | .error fault => return (.restoring, .error fault)
  | .ok _ =>
    let result ← Restore.apply r.utility archive
    return (.restoring, tagged .restore result)

def stages (r : Restorer) (key : Key) : Prog (RestoreState × Except Fault Unit) := do
  advance .start .fetching
  match ← enterStage .fetch with
  | .error fault => return (.fetching, .error fault)
  | .ok _ =>
    match tagged .fetch (← fetch r.bucket key) with
    | .error fault => return (.fetching, .error fault)
    | .ok archive => r.restoreStage archive

def run (r : Restorer) (key : Key) : Prog (Except Fault Unit) := do
  let (state, result) ← r.stages key
  advance state (match result with
    | .ok _ => .done
    | .error _ => .failed)
  return result

def available : Prog (Except Fault (List Key)) := do
  let keys ← Prog.ask .list
  return tagged .fetch keys

end Restorer

def Backend.shown : Backend → String
  | gcs => "Gcs"
  | directory root => "Local \x7b root: " ++ Text.quotedPath root ++ " \x7d"
  | memory => "Memory"

def connectStore (s : StoreConfig) : Prog (Except Fault Unit) := do
  match ← Prog.ask (.connect s) with
  | .error source => return .error (.clientInit s.bucket source)
  | .ok _ =>
    Prog.debug s!"blob store client ready for {s.bucket} ({s.backend.shown})"
    return .ok ()

/-- The archive pipeline of a configuration, which must be valid and whose store must answer. -/
def openArchiver (c : Config) : Prog (Except Fault Archiver) := do
  match c.validate with
  | .error fault => return .error fault
  | .ok _ =>
    match tagged .upload (← connectStore c.store) with
    | .error fault => return .error fault
    | .ok _ => .ok <$> Archiver.ofConfig c.store.bucket c

def openRestorer (c : Config) : Prog (Except Fault Restorer) := do
  match c.validate with
  | .error fault => return .error fault
  | .ok _ =>
    match tagged .fetch (← connectStore c.store) with
    | .error fault => return .error fault
    | .ok _ => return .ok (Restorer.ofConfig c.store.bucket c)

/-- The keys of the configured bucket. Only the settings of the store are looked at. -/
def listArchives (s : StoreConfig) : Prog (Except Fault (List Key)) := do
  match s.validate with
  | .error fault => return .error fault
  | .ok _ =>
    match tagged .fetch (← connectStore s) with
    | .error fault => return .error fault
    | .ok _ => Restorer.available

end DumpVault
