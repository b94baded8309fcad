import DumpVault.Files.Location
import DumpVault.Key

/-!
# Paths of blobs

A store keeps a blob under a path, a list of segments. The path of a key consists of the parts
between its slashes that are not empty, each written with ASCII characters that are safe in the
names of files: every other byte is written as a percent sign and two hexadecimal digits.
-/
namespace DumpVault

structure StorePath where
  segments : List String
  deriving DecidableEq, Repr

namespace StorePath

/-- Printable ASCII characters that are written by their code nevertheless. -/
def reserved : List Char :=
  ['/', '\\', '\x7b', '^', '\x7d', '%', '`', ']', '"', '>', '[', '~', '<', '#', '|', '*', '?']

def isPlain (b : UInt8) : Bool :=
  0x20 ≤ b && b < 0x7f && !reserved.contains (Char.ofNat b.toNat)

def hexDigit (n : Nat) : Char :=
  if n < 10 then Char.ofNat ('0'.toNat + n) else Char.ofNat ('A'.toNat + (n - 10))

def encodeByte (b : UInt8) : List Char :=
  if isPlain b then [Char.ofNat b.toNat]
  else ['%', hexDigit (b.toNat / 16), hexDigit (b.toNat % 16)]

/-- The written form of a segment. The names of the directory itself and of the one above are never
written plainly. -/
def encodeSegment (s : String) : String :=
  if s == "." then "%2E"
  else if s == ".." then "%2E%2E"
  else String.ofList (s.toUTF8.toList.flatMap encodeByte)

/-- The parts between slashes that are not empty. -/
def split (s : String) : List String := (slashParts s).filter (· != "")

def ofKey (k : Key) : StorePath := ⟨(split k.text).map encodeSegment⟩

/-- The path that a text names as it stands. -/
def ofText (s : String) : StorePath := ⟨split s⟩

def text (p : StorePath) : String := String.intercalate "/" p.segments

end StorePath

/-- The keys of listed paths in byte order. A path whose text is blank is no key. -/
def keysOfPaths (paths : List StorePath) : List Key :=
  Key.sorted (paths.filterMap fun p => Key.ofText? p.text)

end DumpVault
