import DumpVault.Run.Buffer
import DumpVault.Run.Prog

/-!
# Copying a source into a blob

A buffer takes in one read of at most one mebibyte after the other, and what it holds is written
before the next. A read of no bytes is the end. Every read and every write is a point where
cancellation may cut the copy off.
-/
namespace DumpVault

/-- The most bytes of one read from a staging file. -/
def copyLimit : Nat := 1024 * 1024

inductive CopyEnd
  | copied (bytes : Nat)
  | failed (fault : IoFault)
  | interrupted

/-- Copies from a source, `total` bytes having been read before. What is left of the source is
returned with the end of the copy. A copy of given chunks can be unfolded. -/
@[semireducible]
def copyFrom {β : Type} (B : BufferKind β) (w : Writer) (s : Source) (b : β) (total : Nat) :
    Prog (CopyEnd × Source) := do
  if ← Prog.ask .pause then return (.interrupted, s)
  let b := B.reserve b copyLimit
  match _ : s.read (B.room b) with
  | (.failed fault, rest) => return (.failed fault, rest)
  | (.stalled, rest) => do
    Prog.ask .stall
    return (.interrupted, rest)
  | (.yielded bytes, rest) =>
    if _ : bytes.size = 0 then return (.copied total, rest)
    else
      let (chunk, b) := B.split (B.fill b bytes)
      match ← Prog.ask (.write w chunk) with
      | .accepted => copyFrom B w rest b (total + bytes.size)
      | .failed fault => return (.failed fault, rest)
      | .interrupted => return (.interrupted, rest)
termination_by s.size
decreasing_by exact Source.size_read ‹_› ‹_›

def copyInto (w : Writer) (s : Source) : Prog CopyEnd :=
  Prod.fst <$> copyFrom Buffer.kind w s (Buffer.kind.ofCapacity copyLimit) 0

end DumpVault
