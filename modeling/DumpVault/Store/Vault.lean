import DumpVault.Store.Directory
import DumpVault.Store.Scripted

/-!
# The store of a run

A bucket and where its blobs are kept. The faults of an operation name the bucket and the key. The
cloud cannot be reached from here, so each of its operations fails.
-/
namespace DumpVault

inductive Storage
  | memory (m : MemoryStore)
  | directory (d : DirectoryStore)
  | cloud
  | scripted (s : ScriptedStore)

structure Vault where
  bucket : String
  storage : Storage

/-- What an operation leaves behind: the store, the files, and whether it cancels the run. -/
structure Aftermath where
  vault : Vault
  files : FileTree
  cancels : Bool := false

namespace Vault

def unreachable : BlobFault := .generic "GCS" "the network is unreachable"

def keep (v : Vault) (t : FileTree) : Aftermath := ⟨v, t, false⟩

def withStorage (v : Vault) (storage : Storage) : Vault := { v with storage }

def scriptedAftermath (v : Vault) (t : FileTree) (s : ScriptedStore) (c : StoreCall) : Aftermath :=
  let (s, cancels) := s.note c
  ⟨v.withStorage (.scripted s), t, cancels⟩

def contains (v : Vault) (t : FileTree) (key : Key) : Except Fault Bool × Aftermath :=
  let p := StorePath.ofKey key
  match v.storage with
  | .memory m => (.ok (m.get? p).isSome, v.keep t)
  | .directory d =>
    (match d.get t p with
      | .ok _ => .ok true
      | .error f =>
        if f.isNotFound then .ok false else .error (.lookup v.bucket key.text f), v.keep t)
  | .cloud => (.error (.lookup v.bucket key.text unreachable), v.keep t)
  | .scripted s => (s.existsResult key, v.scriptedAftermath t s (.exists key.text))

def openWriter (v : Vault) (t : FileTree) (key : Key) : Except Fault Writer × Aftermath :=
  let p := StorePath.ofKey key
  match v.storage with
  | .memory m =>
    let (w, m) := m.openWriter p
    (.ok w, (v.withStorage (.memory m)).keep t)
  | .directory d =>
    match d.openWriter t p with
    | .ok (w, d, t) => (.ok w, (v.withStorage (.directory d)).keep t)
    | .error f => (.error (.writerOpen v.bucket key.text f), v.keep t)
  | .cloud => (.error (.writerOpen v.bucket key.text unreachable), v.keep t)
  | .scripted s =>
    (s.writerResult, v.scriptedAftermath t { s with writes := 0 } (.openWriter key.text))

def write (v : Vault) (t : FileTree) (w : Writer) (chunk : ByteArray) : Taken × Aftermath :=
  match v.storage with
  | .memory m => (.accepted, (v.withStorage (.memory (m.write w chunk))).keep t)
  | .directory d => (.accepted, v.keep (d.write t w chunk))
  | .cloud => (.failed (.blob unreachable), v.keep t)
  | .scripted s =>
    let (taken, s, cancels) := s.write chunk
    (taken, ⟨v.withStorage (.scripted s), t, cancels⟩)

def removeFilesIn (t : FileTree) (dir : Location) : FileTree :=
  (t.names dir).foldl (fun t name => t.dropFile (dir ++ [name])) t

/-- Publishes what a writer has taken in; `staging` is where staging files are. -/
def finalize (v : Vault) (t : FileTree) (staging : Location) (w : Writer) :
    Except IoFault Unit × Aftermath :=
  match v.storage with
  | .memory m => (.ok (), (v.withStorage (.memory (m.finalize w))).keep t)
  | .directory d =>
    let (r, d, t) := d.finalize t w
    (r.mapError .blob, (v.withStorage (.directory d)).keep t)
  | .cloud => (.error (.blob unreachable), v.keep t)
  | .scripted s =>
    let t := if s.script.unlinkOnFinalize then removeFilesIn t staging else t
    (ScriptedStore.ending s.script.finalizeFault, v.scriptedAftermath t s .finalize)

def abort (v : Vault) (t : FileTree) (w : Writer) : Except IoFault Unit × Aftermath :=
  match v.storage with
  | .memory m => (.ok (), (v.withStorage (.memory (m.abort w))).keep t)
  | .directory d =>
    let (d, t) := d.abort t w
    (.ok (), (v.withStorage (.directory d)).keep t)
  | .cloud => (.error (.blob unreachable), v.keep t)
  | .scripted s =>
    (ScriptedStore.ending s.script.abortFault, v.scriptedAftermath t s .abort)

def readerFault (v : Vault) (key : Key) (f : BlobFault) : Fault :=
  if f.isNotFound then .objectNotFound v.bucket key.text else .readerOpen v.bucket key.text f

def openReader (v : Vault) (t : FileTree) (key : Key) : Except Fault Source × Aftermath :=
  let p := StorePath.ofKey key
  match v.storage with
  | .memory m =>
    (match m.get? p with
      | some bytes => .ok (.ofBytes bytes)
      | none => .error (.objectNotFound v.bucket key.text), v.keep t)
  | .directory d =>
    (match d.get t p with
      | .ok bytes => .ok (.ofBytes bytes)
      | .error f => .error (v.readerFault key f), v.keep t)
  | .cloud => (.error (v.readerFault key unreachable), v.keep t)
  | .scripted s => (s.readerResult, v.scriptedAftermath t s (.openReader key.text))

/-- All keys in byte order; a scripted store keeps its own order. -/
def list (v : Vault) (t : FileTree) : Except Fault (List Key) × Aftermath :=
  match v.storage with
  | .memory m => (.ok (keysOfPaths m.paths), v.keep t)
  | .directory d =>
    (match d.paths t with
      | .ok paths => .ok (keysOfPaths paths)
      | .error f => .error (.list v.bucket f), v.keep t)
  | .cloud => (.error (.list v.bucket unreachable), v.keep t)
  | .scripted s => (s.listResult, v.scriptedAftermath t s .list)

/-- Puts a blob under a path as it stands, without a key. -/
def putRaw (v : Vault) (t : FileTree) (p : StorePath) (content : ByteArray) :
    Except BlobFault Unit × Aftermath :=
  match v.storage with
  | .memory m => (.ok (), (v.withStorage (.memory (m.put p content))).keep t)
  | .directory d =>
    match d.put t p content with
    | .ok t => (.ok (), v.keep t)
    | .error f => (.error f, v.keep t)
  | .cloud => (.error unreachable, v.keep t)
  | .scripted _ => (.ok (), v.keep t)

end Vault
end DumpVault
