/-!
# Locations

The place of a file as the names that lead to it from the root, and the reading of path texts: a
path is absolute or starts from a working directory, empty names and `.` are passed over, and a
path that ends in a slash or in `.` must name a directory.
-/
namespace DumpVault

def slashParts (s : String) : List String := (s.toList.splitOn '/').map String.ofList

/-- Names from the root downward. -/
abbrev Location := List String

namespace Location

def text (l : Location) : String :=
  if l.isEmpty then "/" else String.join (l.map ("/" ++ ·))

/-- The longest name of a file, in bytes. -/
def longestName : Nat := 255

/-- The longest path, in bytes with its end mark. -/
def longestPath : Nat := 4096

end Location

structure PathText where
  absolute : Bool
  names : List String
  /-- Only a directory fits. -/
  directory : Bool
  /-- The text holds a NUL, which no path may. -/
  hasNul : Bool
  tooLong : Bool
  empty : Bool

namespace PathText

def ofString (s : String) : PathText :=
  let parts := slashParts s
  let last := parts.getLast?.getD ""
  { absolute := s.toList.head? == some '/'
    names := parts.filter fun p => p != "" && p != "."
    directory := last == "" || last == "." || last == ".."
    hasNul := s.toList.contains '\x00'
    tooLong := Location.longestPath ≤ s.utf8ByteSize
    empty := s == "" }

end PathText

/-- Puts a path behind a directory's path; an absolute path replaces it. -/
def joinPath (base path : String) : String :=
  if path.toList.head? == some '/' then path
  else if base == "" || base.toList.getLast? == some '/' then base ++ path
  else base ++ "/" ++ path

end DumpVault
