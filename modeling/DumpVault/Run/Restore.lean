import DumpVault.Run.Utility

/-!
# Restoring a database

An archive is fed to the restore utility's input. What failed first is reported: a failed read cuts
the input short and so comes before the utility's own failure, while a broken pipe only says that
the utility went away, and so comes after it.
-/
namespace DumpVault

def defaultRestoreProgram : String := "pg_restore"

/-- The most bytes of one read from an archive. -/
def feedLimit : Nat := 256 * 1024

inductive FeedEnd
  | fed (bytes : Nat)
  | readFailed (fault : IoFault)
  | writeFailed (fault : IoFault)
  | interrupted

namespace Restore

def ofConfig (c : Config) : Utility :=
  Utility.ofConfig c.database c.restore defaultRestoreProgram

def args (u : Utility) : List String := ["--no-password"] ++ u.connection ++ ["--exit-on-error"]

def failure (u : Utility) (source : UtilityFault) : Fault :=
  .restoreUtility u.database u.program source

def feedFailure (u : Utility) (source : IoFault) : Fault :=
  .copy "archive stream" s!"{u.program} stdin" source

def feedEnd (bytes : Nat) : Ending → Prog FeedEnd
  | .complete => return .fed bytes
  | .failed fault => return .readFailed fault
  | .stalled => do
    Prog.ask .stall
    return .interrupted

/-- Offers chunks in turn, `total` bytes having been read before them. -/
def feedChunks (ending : Ending) : List ByteArray → Nat → Prog FeedEnd
  | [], total => do
    if ← Prog.ask .pause then return .interrupted
    feedEnd total ending
  | chunk :: rest, total => do
    if ← Prog.ask .pause then return .interrupted
    match ← Prog.ask (.offer chunk) with
    | .accepted => feedChunks ending rest (total + chunk.size)
    | .failed fault => return .writeFailed fault
    | .interrupted => return .interrupted

/-- Closes the input behind what was fed; failing to do so fails a feed that had succeeded. -/
def closing (fed : FeedEnd) : Prog FeedEnd := do
  match fed with
  | .interrupted => return .interrupted
  | fed =>
    match fed, ← Prog.ask .closeInput with
    | .fed _, .error fault => return .writeFailed fault
    | fed, _ => return fed

def exitResult (u : Utility) : Except IoFault ExitStatus → Except Fault Unit
  | .ok status => if status.isSuccess then .ok () else .error (failure u (.exit status))
  | .error fault => .error (failure u (.wait fault))

def settle (u : Utility) (exit : Except Fault Unit) : FeedEnd → Prog (Except Fault Unit)
  | .fed bytes => do
    Prog.debug s!"fed {bytes} bytes to {u.program}"
    let faults ← Prog.record .empty exit
    return faults.finish ()
  | .writeFailed fault => do
    if fault.isBrokenPipe then
      let faults ← Prog.record .empty exit
      let faults ← Prog.record faults (.error (feedFailure u fault))
      return faults.finish ()
    else
      let faults ← Prog.record .empty (.error (feedFailure u fault))
      let faults ← Prog.record faults exit
      return faults.finish ()
  | .readFailed fault => do
    let faults ← Prog.record .empty (.error (feedFailure u fault))
    let faults ← Prog.record faults exit
    return faults.finish ()
  | .interrupted => return .ok ()

def giveUp (u : Utility) : Prog (Except Fault Unit) := do
  Utility.putDown
  return .error (.cancelled s!"restoring database '{u.database}'")

def feed (u : Utility) (archive : Source) : Prog (Except Fault Unit) := do
  let fed ← feedChunks archive.ending (archive.reads feedLimit) 0
  match ← closing fed with
  | .interrupted => giveUp u
  | fed =>
    match ← Prog.ask .wait with
    | .interrupted => giveUp u
    | .exited status => settle u (exitResult u (.ok status)) fed
    | .failed fault => settle u (exitResult u (.error fault)) fed

def apply (u : Utility) (archive : Source) : Prog (Except Fault Unit) := do
  Prog.info s!"restoring database {u.database} on {u.host}"
  match ← Prog.ask (.password u.password) with
  | .error fault => return .error fault
  | .ok password =>
    let command ← u.prepare (args u) password .fromPipe
    match ← Prog.ask (.spawn command) with
    | .error fault => return .error (failure u (.spawn fault))
    | .ok true => feed u archive
    | .ok false =>
      Utility.putDown
      return .error (failure u (.spawn (.described .other
        "stdin of the restore utility was not captured")))

end Restore
end DumpVault
