/-!
# Environments

The variables of a process. Their names and values are any bytes, but a program that wants text sees
only the values that are valid UTF-8.
-/
namespace DumpVault

-- Batteries declares an instance besides that of the core library: this one stands before both.
instance (priority := 2000) decidableEqBytes : DecidableEq ByteArray := ByteArray.decEq

structure Environment where
  entries : List (ByteArray × ByteArray)

namespace Environment

def empty : Environment := ⟨[]⟩

instance : Inhabited Environment := ⟨empty⟩

def unset (e : Environment) (name : String) : Environment :=
  ⟨e.entries.filter fun v => decide (v.1 ≠ name.toUTF8)⟩

def set (e : Environment) (name : String) (value : ByteArray) : Environment :=
  ⟨(e.unset name).entries ++ [(name.toUTF8, value)]⟩

def after? (start bytes : ByteArray) : Option ByteArray :=
  if start.data.toList.isPrefixOf bytes.data.toList then
    some (bytes.extract start.size bytes.size)
  else none

/-- The value of a variable. A variable is looked for as the text `name=value` that begins with the
name and an equals sign, so a name may reach into a value. -/
def get? (e : Environment) (name : String) : Option ByteArray :=
  if name = "" ∨ '\x00' ∈ name.toList then none
  else
    e.entries.findSome? fun (n, v) => after? (name ++ "=").toUTF8 (n ++ "=".toUTF8 ++ v)

def text? (e : Environment) (name : String) : Option String :=
  (e.get? name).bind String.fromUTF8?

end Environment
end DumpVault
