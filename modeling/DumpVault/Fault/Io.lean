import DumpVault.Fault.OsError
import DumpVault.Fault.Blob

/-!
# Failed reads, writes and file operations

A fault of the operating system carries its number; any other is of one of a few kinds, with a
message of its own or with the fixed text of the kind. A store's writer reports its store's
faults as faults of writing. A fault with a message shows the message alone, so its sources are
those of the message.
-/
namespace DumpVault

inductive IoKind
  | notFound | permissionDenied | connectionReset | connectionRefused | brokenPipe
  | alreadyExists | invalidInput | invalidData | timedOut | writeZero | unexpectedEof
  | outOfMemory | unsupported | other
  deriving DecidableEq, Repr

def IoKind.text : IoKind → String
  | notFound => "entity not found"
  | permissionDenied => "permission denied"
  | connectionReset => "connection reset"
  | connectionRefused => "connection refused"
  | brokenPipe => "broken pipe"
  | alreadyExists => "entity already exists"
  | invalidInput => "invalid input parameter"
  | invalidData => "invalid data"
  | timedOut => "timed out"
  | writeZero => "write zero"
  | unexpectedEof => "unexpected end of file"
  | outOfMemory => "out of memory"
  | unsupported => "unsupported"
  | other => "other error"

inductive IoFault
  | os (code : Int)
  | bare (kind : IoKind)
  | described (kind : IoKind) (message : Cause)
  /-- A fault of the operating system at a named place. -/
  | atPath (code : Int) (quotedPath : String)
  | blob (fault : BlobFault)
  deriving DecidableEq, Repr

namespace IoFault

def osText (code : Int) : String := s!"{Fault.osErrorText code} (os error {code})"

def text : IoFault → String
  | os code => osText code
  | bare kind => kind.text
  | described _ message => message.text
  | atPath code quotedPath => s!"{osText code} at path {quotedPath}"
  | blob fault => fault.text

def isBrokenPipe : IoFault → Bool
  | os code => code == Fault.brokenPipe
  | bare kind => kind == .brokenPipe
  | described kind _ => kind == .brokenPipe
  | atPath code _ => code == Fault.brokenPipe
  | blob _ => false

def causes : IoFault → List String
  | described _ message => message.causes
  | blob fault => fault.causes
  | _ => []

def notText : IoFault := described .invalidData "stream did not contain valid UTF-8"

def textOf (bytes : ByteArray) : Except IoFault String :=
  match String.fromUTF8? bytes with
  | some text => .ok text
  | none => .error notText

end IoFault
end DumpVault
