import DumpVault.CommandLine.Scan
import DumpVault.Config.Overrides
import DumpVault.Key

/-!
# Invocations

What a command line asks for: a subcommand and the settings given with it. Settings may stand on
both sides of the subcommand; what is given behind it counts.
-/
namespace DumpVault.CommandLine

inductive Action
  | archive
  | restore (key : Key)
  | list
  deriving DecidableEq, Repr

structure Invocation where
  action : Action
  overrides : Overrides
  deriving DecidableEq, Repr

/-- The settings of two places; those of the inner place count. -/
def overridesOf (outer inner : Given) : Overrides :=
  let value (flag : ValueFlag) : Option String := (inner.value? flag).or (outer.value? flag)
  { configFile := value .config
    host := value .host
    database := value .database
    databasePath := value .databasePath
    username := value .username
    bucket := value .bucket
    credentials := value .credentials
    localStore := value .localStore
    stagingDir := value .stagingDir
    retainStaging := inner.retainStaging || outer.retainStaging
    dumpProgram := value .dumpProgram
    restoreProgram := value .restoreProgram }

def parseInner (c : Subcommand) (args : List String) : Except UsageFault (Action × Given) := do
  let (s, _) ← Scan.words { place := some c } args
  let s ← s.settle
  s.given.validate
  match c with
  | .archive => return (.archive, s.given)
  | .list => return (.list, s.given)
  | .restore =>
    match (s.given.value? .key).bind Key.ofText? with
    | some key => return (.restore key, s.given)
    | none => throw .missingRequiredArgument

def parse (args : List String) : Except UsageFault Invocation := do
  match ← Scan.words { place := none } args with
  | (s, none) =>
    let s ← s.settle
    throw (if s.given.isEmpty then .nothingGiven else .missingSubcommand)
  | (s, some (c, rest)) =>
    let (action, inner) ← parseInner c rest
    let s ← s.settle
    s.given.validate
    return ⟨action, overridesOf s.given inner⟩

end DumpVault.CommandLine
