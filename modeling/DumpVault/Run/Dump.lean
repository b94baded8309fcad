import DumpVault.Run.Utility

/-!
# Dumping a database

The dump utility writes into a fresh staging file. When it fails the file stays where it is, with
what was written, and the log names it.
-/
namespace DumpVault

def defaultDumpProgram : String := "pg_dump"

structure Dump where
  utility : Utility
  stagingDir : String
  deriving DecidableEq, Repr

namespace Dump

def ofConfig (c : Config) : Prog Dump := do
  let dir ← match c.staging.dir with
    | some dir => pure dir
    | none => Prog.ask .temporaryDir
  return ⟨Utility.ofConfig c.database c.dump defaultDumpProgram, dir⟩

def args (u : Utility) : List String := ["--format=custom", "--no-password"] ++ u.connection

def failure (d : Dump) (source : UtilityFault) : Fault :=
  .dumpUtility d.utility.database d.utility.program source

/-- Says that a staging file has been left behind, and passes the fault on. -/
def leave (path : String) (fault : Fault) : Prog (Except Fault String) := do
  Prog.warn s!"staging file {path} retained for inspection"
  return .error fault

def runInto (d : Dump) (path : String) (password : Option Secret) : Prog (Except Fault String) := do
  let command ← d.utility.prepare (args d.utility) password (.intoFile path)
  match ← Prog.ask (.spawn command) with
  | .error fault => leave path (d.failure (.spawn fault))
  | .ok _ =>
    match ← Prog.ask .wait with
    | .exited status =>
      if status.isSuccess then
        Prog.debug s!"dump of {d.utility.database} complete"
        return .ok path
      else leave path (d.failure (.exit status))
    | .failed fault => leave path (d.failure (.wait fault))
    | .interrupted =>
      Utility.putDown
      leave path (.cancelled s!"dumping database '{d.utility.database}'")

/-- Dumps the database into a fresh staging file, whose path is returned. -/
def stage (d : Dump) : Prog (Except Fault String) := do
  match ← Prog.ask (.createStaging d.stagingDir) with
  | .error fault => return .error (.stagingCreate d.stagingDir fault)
  | .ok path =>
    Prog.info s!"dumping database {d.utility.database} on {d.utility.host} into {path}"
    match ← Prog.ask (.password d.utility.password) with
    | .error fault => leave path fault
    | .ok password => d.runInto path password

end Dump
end DumpVault
