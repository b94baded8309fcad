import DumpVault.CommandLine.Invocation
import DumpVault.Run.Pipeline

/-!
# Carrying out a command line

One run from the words of the command line to the exit code: 0 for success, 1 for a run that
failed, 2 for words that make no command. A failed run ends with one line at the level of errors.
-/
namespace DumpVault.CommandLine

def programName : String := "archivist"

def versionText : String := s!"{programName} 0.1.0\n"

def helpText : String :=
  s!"Usage: {programName} [OPTIONS] <COMMAND>\n\n" ++
  "Commands:\n" ++
  "  archive  Dump the database and store the dump in the bucket\n" ++
  "  restore  Restore the database from a stored archive\n" ++
  "  list     List stored archives, oldest first\n" ++
  "  help     Print this message or the help of the given subcommand(s)\n"

namespace UsageFault

/-- Asking for the help or the version is no mistake. -/
def exitCode : UsageFault → UInt8
  | displayHelp | displayVersion => 0
  | _ => 2

def answer : UsageFault → Prog Unit
  | displayHelp => Prog.ask (.print helpText)
  | displayVersion => Prog.ask (.print versionText)
  | _ => pure ()

end UsageFault

def archiveAll (c : Config) : Prog (Except Fault Unit) := do
  match ← openArchiver c with
  | .error fault => return .error fault
  | .ok archiver =>
    match ← archiver.run with
    | .error fault => return .error fault
    | .ok key =>
      Prog.info s!"archive stored as {key.text} in {c.store.bucket}"
      return .ok ()

def restoreKey (c : Config) (key : Key) : Prog (Except Fault Unit) := do
  match ← openRestorer c with
  | .error fault => return .error fault
  | .ok restorer =>
    match ← restorer.run key with
    | .error fault => return .error fault
    | .ok _ =>
      Prog.info s!"restored {key.text} into {c.database.name}"
      return .ok ()

def printKeys (c : Config) : Prog (Except Fault Unit) := do
  match ← listArchives c.store with
  | .error fault => return .error fault
  | .ok keys =>
    Prog.debug s!"{keys.length} archives available"
    Prog.ask (.print (String.join (keys.map fun key => key.text ++ "\n")))
    return .ok ()

def Action.perform (c : Config) : Action → Prog (Except Fault Unit)
  | archive => archiveAll c
  | restore key => restoreKey c key
  | list => printKeys c

def giveUp (text : String) : Prog UInt8 := do
  Prog.log .error text
  return 1

def Invocation.perform (i : Invocation) : Prog UInt8 := do
  match ← i.overrides.resolve with
  | .error fault => giveUp fault.text
  | .ok config =>
    match ← i.action.perform config with
    | .error fault => giveUp fault.text
    | .ok _ => return 0

def run (args : List String) : Prog UInt8 :=
  match parse args with
  | .ok invocation => invocation.perform
  | .error usage => do
    usage.answer
    return usage.exitCode

end DumpVault.CommandLine
