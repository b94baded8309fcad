import DumpVault.Config.Basic
import DumpVault.Fault.Basic
import DumpVault.Text.Blank

/-!
# Settings that a run cannot do without

Checks are made in a fixed order and the first that fails is reported.
-/
namespace DumpVault
open Text

def requireText (field value : String) : Except Fault Unit :=
  if AllBlank value then .error (.config s!"{field} is required") else .ok ()

def DatabaseConfig.validate (d : DatabaseConfig) : Except Fault Unit := do
  requireText "database.host" d.host
  requireText "database.name" d.name
  requireText "database.username" d.username
  match d.password with
  | .env var => requireText "database.password.var" var
  | _ => .ok ()

/-- The bucket must be named, by a name without slashes. -/
def StoreConfig.validate (s : StoreConfig) : Except Fault Unit := do
  requireText "store.bucket" s.bucket
  if s.bucket.toList.contains '/' then
    .error (.config "store.bucket must not contain '/'")
  else .ok ()

def Config.validate (c : Config) : Except Fault Unit := do
  c.database.validate
  c.store.validate

end DumpVault
