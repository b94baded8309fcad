import DumpVault.Run.Call
import DumpVault.Store.Path

/-!
# Blobs in memory

A store as a map from paths to blobs, beside the writers that are open. What a writer has taken in
is seen by nobody until the writer is finalized, and never if it is aborted.
-/
namespace DumpVault

structure OpenBlob where
  path : StorePath
  chunks : List ByteArray

def OpenBlob.bytes (b : OpenBlob) : ByteArray := b.chunks.foldl (· ++ ·) .empty

structure MemoryStore where
  blobs : List (StorePath × ByteArray) := []
  /-- The open writers by number, the next one having the number `opened`. -/
  writers : List (Nat × OpenBlob) := []
  opened : Nat := 0

namespace MemoryStore

def get? (m : MemoryStore) (p : StorePath) : Option ByteArray := m.blobs.lookup p

def put (m : MemoryStore) (p : StorePath) (content : ByteArray) : MemoryStore :=
  { m with blobs := (p, content) :: m.blobs.filter fun e => e.1 != p }

def paths (m : MemoryStore) : List StorePath := m.blobs.map (·.1)

def openWriter (m : MemoryStore) (p : StorePath) : Writer × MemoryStore :=
  (⟨m.opened⟩, { m with writers := (m.opened, ⟨p, []⟩) :: m.writers, opened := m.opened + 1 })

def write (m : MemoryStore) (w : Writer) (chunk : ByteArray) : MemoryStore :=
  { m with writers := m.writers.map fun (id, b) =>
      if id == w.id then (id, { b with chunks := b.chunks ++ [chunk] }) else (id, b) }

def abort (m : MemoryStore) (w : Writer) : MemoryStore :=
  { m with writers := m.writers.filter fun (id, _) => id != w.id }

def finalize (m : MemoryStore) (w : Writer) : MemoryStore :=
  match m.writers.lookup w.id with
  | none => m
  | some b => (m.abort w).put b.path b.bytes

theorem get?_put_self (m : MemoryStore) (p : StorePath) (content : ByteArray) :
    (m.put p content).get? p = some content := by
  simp [get?, put]

@[simp] theorem get?_write (m : MemoryStore) (w : Writer) (chunk : ByteArray) (p : StorePath) :
    (m.write w chunk).get? p = m.get? p := rfl

@[simp] theorem get?_abort (m : MemoryStore) (w : Writer) (p : StorePath) :
    (m.abort w).get? p = m.get? p := rfl

@[simp] theorem get?_openWriter (m : MemoryStore) (p q : StorePath) :
    (m.openWriter p).2.get? q = m.get? q := rfl

end MemoryStore
end DumpVault
