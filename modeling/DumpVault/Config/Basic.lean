/-!
# Configuration

The settings of a run: the database, the blob store, the two external utilities and the place of
staging files. Every field has a default.
-/
namespace DumpVault

def passwordVariable : String := "PGPASSWORD"

inductive SecretSource
  | env (var : String)
  | file (path : String)
  | absent
  deriving DecidableEq, Repr

instance : Inhabited SecretSource := ⟨.env passwordVariable⟩

inductive Backend
  /-- Google Cloud Storage. -/
  | gcs
  /-- Buckets are directories within `root`. -/
  | directory (root : String)
  | memory
  deriving DecidableEq, Repr

structure DatabaseConfig where
  host : String := ""
  name : String := ""
  username : String := "backup"
  password : SecretSource := .env passwordVariable
  deriving DecidableEq, Repr

structure StoreConfig where
  bucket : String := ""
  /-- The service account file of the cloud backend. -/
  credentialsPath : Option String := none
  backend : Backend := .gcs
  deriving DecidableEq, Repr

structure ToolConfig where
  program : String := ""
  prefixArgs : List String := []
  deriving DecidableEq, Repr

/-- The program of a tool; an empty name means the default. -/
def ToolConfig.programOr (tool : ToolConfig) (default : String) : String :=
  if tool.program = "" then default else tool.program

structure StagingConfig where
  /-- The directory of staging files; unset means the system's temporary directory. -/
  dir : Option String := none
  /-- Keep the staging file after an upload that succeeded. -/
  retain : Bool := false
  deriving DecidableEq, Repr

structure Config where
  database : DatabaseConfig := {}
  store : StoreConfig := {}
  dump : ToolConfig := {}
  restore : ToolConfig := {}
  staging : StagingConfig := {}
  deriving DecidableEq, Repr

instance : Inhabited Config := ⟨{}⟩

end DumpVault
