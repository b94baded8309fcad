import DumpVault.Run.Prog

/-!
# External utilities

The database a utility works on, the arguments that say so, and the ending of a utility that
cancellation has overtaken.
-/
namespace DumpVault

structure Utility where
  host : String
  database : String
  username : String
  program : String
  prefixArgs : List String
  password : SecretSource
  deriving DecidableEq, Repr

namespace Utility

def ofConfig (d : DatabaseConfig) (tool : ToolConfig) (default : String) : Utility :=
  { host := d.host, database := d.name, username := d.username
    program := tool.programOr default, prefixArgs := tool.prefixArgs, password := d.password }

def connection (u : Utility) : List String :=
  [s!"--host={u.host}", s!"--username={u.username}", s!"--dbname={u.database}"]

/-- The command to start, announced in the log without the password. -/
def prepare (u : Utility) (args : List String) (password : Option Secret) (streams : Streams) :
    Prog Command := do
  let all := u.prefixArgs ++ args
  Prog.debug (s!"prepared {u.program} " ++ String.intercalate " " all)
  return ⟨u.program, all, password, streams⟩

/-- Kills the utility and waits for its end. It has been given up already, so what fails here is
only logged. -/
def putDown : Prog Unit := do
  match ← Prog.ask .kill with
  | .error fault => Prog.warn s!"unable to signal child process: {fault.text}"
  | .ok _ =>
    match ← Prog.ask .reap with
    | .error fault => Prog.warn s!"unable to reap killed child process: {fault.text}"
    | .ok _ => return ()

end Utility
end DumpVault
