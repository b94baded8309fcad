import DumpVault.Files.Tree
import DumpVault.Machine.Environment
import DumpVault.Run.Call

/-!
# Passwords on a machine

A password is a variable of the environment, or a file without the line ends behind it. A variable
that is not set, or is not text, yields none. A utility gets the password in its environment, which
is else that of the program.
-/
namespace DumpVault

def FileTree.readText (t : FileTree) (cwd : Location) (path : String) : Except IoFault String :=
  t.readFile cwd path >>= IoFault.textOf

def isLineEnd (c : Char) : Bool := c == '\r' || c == '\n'

def withoutLineEnds (s : String) : String :=
  String.ofList (s.toList.reverse.dropWhile isLineEnd).reverse

namespace SecretSource

def password (source : SecretSource) (environment : Environment) (files : FileTree)
    (cwd : Location) : Except Fault (Option Secret) :=
  match source with
  | env var => .ok ((environment.text? var).map Secret.mk)
  | file path =>
    match files.readText cwd path with
    | .ok text => .ok (some ⟨withoutLineEnds text⟩)
    | .error fault => .error (.secret path fault)
  | absent => .ok none

end SecretSource

/-- The environment of a utility. Without a password it holds none, not even that of the program. -/
def Environment.forUtility (e : Environment) (password : Option Secret) : Environment :=
  match password with
  | some s => e.set passwordVariable s.value.toUTF8
  | none => e.unset passwordVariable

end DumpVault
