import DumpVault.Fault.Io
import DumpVault.Fault.Exit

/-!
# Faults

Everything that can end a run. A fault is one of the leaf causes below, or another fault tagged
with the stage that it escaped from. The text of a fault carries the text of its cause, so the one
line that a failed run prints names the root cause.
-/
namespace DumpVault

inductive Stage
  | dump | upload | fetch | restore
  deriving DecidableEq, Repr

def Stage.name : Stage → String
  | dump => "dump"
  | upload => "upload"
  | fetch => "fetch"
  | restore => "restore"

inductive UtilityFault
  | spawn (fault : IoFault)
  | wait (fault : IoFault)
  | exit (status : ExitStatus)
  deriving DecidableEq, Repr

namespace UtilityFault

def text : UtilityFault → String
  | spawn fault => s!"could not be started: {fault.text}"
  | wait fault => s!"could not be waited on: {fault.text}"
  | exit status => s!"exited unsuccessfully ({status.text})"

def causes : UtilityFault → List String
  | spawn fault | wait fault => fault.text :: fault.causes
  | exit _ => []

end UtilityFault

inductive Fault
  | stagingCreate (dir : String) (source : IoFault)
  | dumpUtility (database program : String) (source : UtilityFault)
  | clientInit (bucket : String) (source : BlobFault)
  | stagingRead (path : String) (source : IoFault)
  | writerOpen (bucket key : String) (source : BlobFault)
  | copy (origin target : String) (source : IoFault)
  | finalize (what : String) (source : IoFault)
  | objectNotFound (bucket key : String)
  | readerOpen (bucket key : String) (source : BlobFault)
  | lookup (bucket key : String) (source : BlobFault)
  | objectExists (bucket key : String)
  | list (bucket : String) (source : BlobFault)
  | restoreUtility (database program : String) (source : UtilityFault)
  | cancelled (during : String)
  | secret (path : String) (source : IoFault)
  | config (message : String)
  | stage (name : Stage) (source : Fault)
  deriving DecidableEq, Repr

namespace Fault

def text : Fault → String
  | stagingCreate dir source => s!"unable to create a staging file in {dir}: {source.text}"
  | dumpUtility database program source =>
    s!"unable to dump database '{database}' with {program}: {source.text}"
  | clientInit bucket source =>
    s!"unable to create a blob store client for bucket '{bucket}': {source.text}"
  | stagingRead path source => s!"unable to open the staging file at {path}: {source.text}"
  | writerOpen bucket key source =>
    s!"unable to open a writer for '{key}' in bucket '{bucket}': {source.text}"
  | copy origin target source => s!"unable to copy from {origin} to {target}: {source.text}"
  | finalize what source => s!"unable to finalize {what}: {source.text}"
  | objectNotFound bucket key => s!"object '{key}' does not exist in bucket '{bucket}'"
  | readerOpen bucket key source =>
    s!"unable to create a reader for '{key}' in bucket '{bucket}': {source.text}"
  | lookup bucket key source =>
    s!"unable to check whether '{key}' exists in bucket '{bucket}': {source.text}"
  | objectExists bucket key =>
    s!"object '{key}' already exists in bucket '{bucket}'; refusing to overwrite"
  | list bucket source => s!"unable to list objects in bucket '{bucket}': {source.text}"
  | restoreUtility database program source =>
    s!"unable to restore database '{database}' with {program}: {source.text}"
  | cancelled during => s!"cancelled while {during}"
  | secret path source =>
    s!"unable to read the database password from {path}: {source.text}"
  | config message => s!"invalid configuration: {message}"
  | stage s source => s!"{s.name} stage failed: {source.text}"

def causes : Fault → List String
  | stagingCreate _ source | stagingRead _ source | copy _ _ source | finalize _ source
  | secret _ source => source.text :: source.causes
  | dumpUtility _ _ source | restoreUtility _ _ source => source.text :: source.causes
  | clientInit _ source | writerOpen _ _ source | readerOpen _ _ source | lookup _ _ source
  | list _ source => source.text :: source.causes
  | objectNotFound _ _ | objectExists _ _ | cancelled _ | config _ => []
  | stage _ source => source.text :: source.causes

/-- The leaf beneath all stage tags. -/
def root : Fault → Fault
  | stage _ source => source.root
  | leaf => leaf

/-- The outermost stage tag. -/
def stage? : Fault → Option Stage
  | stage s _ => some s
  | _ => none

def isCancelled (f : Fault) : Bool :=
  match f.root with
  | cancelled _ => true
  | _ => false

def inStage (f : Fault) (stage : Stage) : Fault := .stage stage f

@[simp] theorem root_stage (s : Stage) (f : Fault) : (stage s f).root = f.root := rfl

@[simp] theorem stage?_inStage (f : Fault) (s : Stage) : (f.inStage s).stage? = some s := rfl

@[simp] theorem root_inStage (f : Fault) (s : Stage) : (f.inStage s).root = f.root := rfl

end Fault

def tagged {α : Type} (stage : Stage) : Except Fault α → Except Fault α
  | .ok a => .ok a
  | .error f => .error (f.inStage stage)

end DumpVault
