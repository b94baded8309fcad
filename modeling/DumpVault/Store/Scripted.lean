import DumpVault.Run.Call

/-!
# Stores that answer as told

A store that keeps nothing: each call is written down and answered as the script of the store
says. It serves to rehearse what a run does when its store misbehaves.
-/
namespace DumpVault

inductive StoreCall
  | exists (key : String)
  | openWriter (key : String)
  | write (length : Nat)
  | writeFailed (length : Nat)
  | finalize
  | abort
  | openReader (key : String)
  | list
  deriving DecidableEq, Repr

def StoreCall.operation : StoreCall → String
  | .exists _ => "exists"
  | .openWriter _ => "open_writer"
  | .write _ => "write"
  | .writeFailed _ => "write failed"
  | .finalize => "finalize"
  | .abort => "abort"
  | .openReader _ => "open_reader"
  | .list => "list"

structure StoreScript where
  existing : List String := []
  existsFault : Option Fault := none
  writerFault : Option Fault := none
  /-- The number of the write that fails, counted from 0. -/
  failWrite : Option Nat := none
  writeFault : IoFault := .bare .other
  /-- The number of the write that never returns. -/
  stallWrite : Option Nat := none
  finalizeFault : Option IoFault := none
  abortFault : Option IoFault := none
  readerFault : Option Fault := none
  listFault : Option Fault := none
  reader : Source := ⟨[], .complete⟩
  /-- The operation that cancels the run. -/
  cancelOn : Option String := none
  /-- Finalizing removes all staging files. -/
  unlinkOnFinalize : Bool := false

structure ScriptedStore where
  script : StoreScript
  trace : List StoreCall := []
  written : ByteArray := .empty
  /-- The writes of the open writer that have succeeded. -/
  writes : Nat := 0

namespace ScriptedStore

def note (s : ScriptedStore) (c : StoreCall) : ScriptedStore × Bool :=
  ({ s with trace := s.trace ++ [c] }, s.script.cancelOn == some c.operation)

def failing {α : Type} (fault : Option Fault) (value : α) : Except Fault α :=
  match fault with
  | some f => .error f
  | none => .ok value

def ending (fault : Option IoFault) : Except IoFault Unit :=
  match fault with
  | some f => .error f
  | none => .ok ()

def existsResult (s : ScriptedStore) (key : Key) : Except Fault Bool :=
  failing s.script.existsFault (s.script.existing.contains key.text)

def writerResult (s : ScriptedStore) : Except Fault Writer := failing s.script.writerFault ⟨0⟩

def readerResult (s : ScriptedStore) : Except Fault Source :=
  failing s.script.readerFault s.script.reader

def listResult (s : ScriptedStore) : Except Fault (List Key) :=
  failing s.script.listFault (s.script.existing.filterMap Key.ofText?)

def write (s : ScriptedStore) (chunk : ByteArray) : Taken × ScriptedStore × Bool :=
  if s.script.stallWrite == some s.writes then
    (.interrupted, s, s.script.cancelOn == some "write")
  else if s.script.failWrite == some s.writes then
    let (s, cancels) := s.note (.writeFailed chunk.size)
    (.failed s.script.writeFault, s, cancels)
  else
    let (s, cancels) := s.note (.write chunk.size)
    (.accepted, { s with written := s.written ++ chunk, writes := s.writes + 1 }, cancels)

end ScriptedStore
end DumpVault
