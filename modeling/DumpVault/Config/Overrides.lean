import DumpVault.Config.Document
import DumpVault.Run.Prog

/-!
# Overriding settings

Settings given with a command replace those of the configuration file, one by one. The name of the
database may stand in a file of its own, and the blobs in a directory instead of the cloud.
-/
namespace DumpVault

structure Overrides where
  configFile : Option String := none
  host : Option String := none
  database : Option String := none
  databasePath : Option String := none
  username : Option String := none
  bucket : Option String := none
  credentials : Option String := none
  localStore : Option String := none
  stagingDir : Option String := none
  retainStaging : Bool := false
  dumpProgram : Option String := none
  restoreProgram : Option String := none
  deriving DecidableEq, Repr

inductive ResolveFault
  | unreadableConfig (path : String) (cause : IoFault)
  | malformedConfig (cause : Yaml.DecodeFault)
  | unreadableName (path : String) (cause : IoFault)

namespace ResolveFault

def context : ResolveFault → String
  | unreadableConfig path _ => s!"Failed to read config file: {path}"
  | malformedConfig _ => "Failed to parse YAML configuration"
  | unreadableName path _ => s!"Failed to read database name from {path}"

def cause : ResolveFault → String
  | unreadableConfig _ fault | unreadableName _ fault => fault.text
  | malformedConfig fault => fault.text

def text (f : ResolveFault) : String := s!"{f.context}: {f.cause}"

end ResolveFault

def readText (path : String) : Prog (Except IoFault String) := do
  let bytes ← Prog.ask (.readFile path)
  return bytes >>= IoFault.textOf

def loadConfig (path : String) : Prog (Except ResolveFault Config) := do
  match ← readText path with
  | .error fault => return .error (.unreadableConfig path fault)
  | .ok text =>
    match Config.ofText text with
    | .error fault => return .error (.malformedConfig fault)
    | .ok config => return .ok config

/-- Reads the name of the database from its file; the blanks around it do not count. -/
def loadName (path : String) : Prog (Except ResolveFault String) := do
  match ← readText path with
  | .error fault => return .error (.unreadableName path fault)
  | .ok text => return .ok (Text.trim text)

namespace Overrides

def databaseOver (o : Overrides) (name : Option String) (d : DatabaseConfig) : DatabaseConfig :=
  { d with
    host := o.host.getD d.host
    name := name.getD (o.database.getD d.name)
    username := o.username.getD d.username }

def storeOver (o : Overrides) (s : StoreConfig) : StoreConfig :=
  { bucket := o.bucket.getD s.bucket
    credentialsPath := o.credentials.or s.credentialsPath
    backend := (o.localStore.map Backend.directory).getD s.backend }

def stagingOver (o : Overrides) (s : StagingConfig) : StagingConfig :=
  { dir := o.stagingDir.or s.dir
    retain := o.retainStaging || s.retain }

def programOver (program : Option String) (t : ToolConfig) : ToolConfig :=
  { t with program := program.getD t.program }

/-- The configuration with the overrides put over it; `name` is the content of the name's file. -/
def applyTo (o : Overrides) (name : Option String) (c : Config) : Config :=
  { database := o.databaseOver name c.database
    store := o.storeOver c.store
    dump := programOver o.dumpProgram c.dump
    restore := programOver o.restoreProgram c.restore
    staging := o.stagingOver c.staging }

def resolve (o : Overrides) : Prog (Except ResolveFault Config) := do
  let base ← match o.configFile with
    | some path => loadConfig path
    | none => pure (.ok {})
  match base with
  | .error fault => return .error fault
  | .ok config =>
    match o.databasePath with
    | none => return .ok (o.applyTo none config)
    | some path =>
      match ← loadName path with
      | .error fault => return .error fault
      | .ok name => return .ok (o.applyTo (some name) config)

end Overrides
end DumpVault
