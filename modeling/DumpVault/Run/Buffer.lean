import DumpVault.Run.Call

/-!
# Reading into a buffer

A source is read into the room that a buffer has left. What the buffer holds is split off, and the
buffer is filled again from its beginning.
-/
namespace DumpVault

/-- What a buffer of bytes can do. -/
structure BufferKind (β : Type) where
  ofCapacity : Nat → β
  held : β → ByteArray
  /-- How many bytes more the buffer can take. -/
  room : β → Nat
  reserve : β → Nat → β
  /-- Puts bytes behind those that are held. -/
  fill : β → ByteArray → β
  /-- Takes out all that is held. -/
  split : β → ByteArray × β

/-- What the users of a buffer rely on. How much room a buffer makes that holds something is its own
affair. -/
structure BufferKind.Laws {β : Type} (B : BufferKind β) : Prop where
  held_ofCapacity (n : Nat) : B.held (B.ofCapacity n) = .empty
  held_reserve (b : β) (n : Nat) : B.held (B.reserve b n) = B.held b
  room_reserve (b : β) (n : Nat) : B.held b = .empty → B.room (B.reserve b n) = n
  held_fill (b : β) (bytes : ByteArray) : bytes.size ≤ B.room b →
    B.held (B.fill b bytes) = B.held b ++ bytes
  split_fst (b : β) : (B.split b).1 = B.held b
  held_split (b : β) : B.held (B.split b).2 = .empty

structure Buffer where
  held : ByteArray
  room : Nat

namespace Buffer

/-- An empty buffer makes no more room than it is asked for. -/
def reserve (b : Buffer) (n : Nat) : Buffer :=
  { b with room := if b.held.size = 0 then n else max b.room n }

def kind : BufferKind Buffer where
  ofCapacity n := ⟨.empty, n⟩
  held := held
  room := room
  reserve := reserve
  fill b bytes := ⟨b.held ++ bytes, b.room - bytes.size⟩
  split b := (b.held, { b with held := .empty })

theorem kind_laws : kind.Laws where
  held_ofCapacity _ := rfl
  held_reserve _ _ := rfl
  room_reserve b n h := by
    change (if b.held.size = 0 then n else max b.room n) = n
    rw [if_pos (by rw [show b.held = .empty from h]; rfl)]
  held_fill _ _ _ := rfl
  split_fst _ := rfl
  held_split _ := rfl

end Buffer

/-- What comes of a read. The end of a source yields no byte. -/
inductive ReadOutcome
  | yielded (bytes : ByteArray)
  | failed (fault : IoFault)
  | stalled

def Ending.outcome : Ending → ReadOutcome
  | complete => .yielded .empty
  | failed fault => .failed fault
  | stalled => .stalled

namespace Source

def sizeOfChunks : List ByteArray → Nat
  | [] => 0
  | chunk :: rest => chunk.size + sizeOfChunks rest

/-- The number of bytes that are left. -/
def size (s : Source) : Nat := sizeOfChunks s.chunks

def readChunks (room : Nat) (ending : Ending) : List ByteArray → ReadOutcome × List ByteArray
  | [] => (ending.outcome, [])
  | chunk :: rest =>
    if chunk.size = 0 then readChunks room ending rest
    else (.yielded (chunk.extract 0 room), chunk.extract room chunk.size :: rest)

/-- One read into some room, with what it leaves of the source. -/
def read (room : Nat) (s : Source) : ReadOutcome × Source :=
  ((readChunks room s.ending s.chunks).1,
    { s with chunks := (readChunks room s.ending s.chunks).2 })

theorem size_readChunks {room : Nat} {ending : Ending} {chunks rest : List ByteArray}
    {bytes : ByteArray} (h : readChunks room ending chunks = (.yielded bytes, rest))
    (hbytes : bytes.size ≠ 0) : sizeOfChunks rest < sizeOfChunks chunks := by
  induction chunks with
  | nil =>
    cases ending <;> cases h
    exact absurd rfl hbytes
  | cons chunk chunks ih =>
    rw [sizeOfChunks]
    rw [readChunks] at h
    split at h
    · exact Nat.lt_add_left _ (ih h)
    · cases h
      rw [ByteArray.size_extract] at hbytes
      rw [sizeOfChunks, ByteArray.size_extract]
      omega

/-- A read that yields something leaves less behind. -/
theorem size_read {room : Nat} {s rest : Source} {bytes : ByteArray}
    (h : s.read room = (.yielded bytes, rest)) (hbytes : bytes.size ≠ 0) : rest.size < s.size := by
  obtain ⟨houtcome, rfl⟩ := Prod.mk.inj h
  exact size_readChunks (Prod.ext houtcome rfl) hbytes

end Source
end DumpVault
