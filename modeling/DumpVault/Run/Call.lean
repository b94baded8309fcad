import DumpVault.Config.Basic
import DumpVault.Fault.First
import DumpVault.Key

/-!
# What a run asks of the world

A run reaches files, the blob store, the external utility, the clock, the log and the cancellation
token only through the calls below, each with its kind of reply. Whatever waits may be cut off by
cancellation; such a call says in its reply whether it was.
-/
namespace DumpVault

/-- How a source of bytes ends: it is complete, it fails, or it stays open without yielding. -/
inductive Ending
  | complete
  | failed (fault : IoFault)
  | stalled
  deriving DecidableEq

/-- A source of bytes: what its reads yield one after the other, and how it ends. -/
structure Source where
  chunks : List ByteArray
  ending : Ending

namespace Source

def pieces (limit : Nat) (bytes : ByteArray) : List ByteArray :=
  (List.range ((bytes.size + limit - 1) / limit)).map fun i =>
    bytes.extract (i * limit) ((i + 1) * limit)

/-- What reads of at most `limit` bytes yield; no read before the end yields nothing. -/
def reads (limit : Nat) (s : Source) : List ByteArray := s.chunks.flatMap (pieces limit)

def bytes (s : Source) : ByteArray := s.chunks.foldl (· ++ ·) .empty

def ofBytes (bytes : ByteArray) : Source := ⟨[bytes], .complete⟩

end Source

/-- The secret that a utility needs; its value is never shown. -/
structure Secret where
  value : String
  deriving DecidableEq

def Secret.shown (_ : Secret) : String := "Secret(***)"

def Secret.shownOption : Option Secret → String
  | none => "None"
  | some s => s!"Some({s.shown})"

inductive Streams
  /-- No input, output into a file. -/
  | intoFile (path : String)
  /-- Input from a pipe, output to the standard output of the program. -/
  | fromPipe
  deriving DecidableEq

/-- A utility to be started. The password travels in its environment only; without one, the
environment holds none. -/
structure Command where
  program : String
  args : List String
  password : Option Secret
  streams : Streams
  deriving DecidableEq

/-- A writer of one blob, named by a number. -/
structure Writer where
  id : Nat
  deriving DecidableEq, Repr

inductive Taken
  | accepted
  | failed (fault : IoFault)
  | interrupted

inductive Waited
  | exited (status : ExitStatus)
  | failed (fault : IoFault)
  | interrupted

inductive Call
  | log (line : Line)
  | isCancelled
  /-- A point where the run waits for bytes: whether cancellation cuts it off there. -/
  | pause
  /-- Waiting on a source that yields no more; it ends only by cancellation. -/
  | stall
  | now
  | temporaryDir
  | password (source : SecretSource)
  | createStaging (dir : String)
  | openFile (path : String)
  | readFile (path : String)
  | removeFile (path : String)
  | connect (store : StoreConfig)
  | exists (key : Key)
  | openWriter (key : Key)
  | write (writer : Writer) (chunk : ByteArray)
  | finalize (writer : Writer)
  | abort (writer : Writer)
  | openReader (key : Key)
  | list
  | spawn (command : Command)
  | offer (chunk : ByteArray)
  | closeInput
  | wait
  | kill
  | reap
  | print (text : String)

abbrev Reply : Call → Type
  | .log _ => Unit
  | .isCancelled => Bool
  | .pause => Bool
  | .stall => Unit
  | .now => Calendar.Instant
  | .temporaryDir => String
  | .password _ => Except Fault (Option Secret)
  | .createStaging _ => Except IoFault String
  | .openFile _ => Except IoFault Source
  | .readFile _ => Except IoFault ByteArray
  | .removeFile _ => Except IoFault Unit
  | .connect _ => Except BlobFault Unit
  | .exists _ => Except Fault Bool
  | .openWriter _ => Except Fault Writer
  | .write _ _ => Taken
  | .finalize _ => Except IoFault Unit
  | .abort _ => Except IoFault Unit
  | .openReader _ => Except Fault Source
  | .list => Except Fault (List Key)
  -- whether the utility's input was captured
  | .spawn _ => Except IoFault Bool
  | .offer _ => Taken
  | .closeInput => Except IoFault Unit
  | .wait => Waited
  | .kill => Except IoFault Unit
  | .reap => Except IoFault ExitStatus
  | .print _ => Unit

end DumpVault
