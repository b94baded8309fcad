import DumpVault.Fault.Cause

/-!
# Faults of an object store
-/
namespace DumpVault

inductive BlobFault
  | generic (store : String) (source : Cause)
  | notFound (path : String) (source : Cause)
  | alreadyExists (path : String) (source : Cause)
  | precondition (path : String) (source : Cause)
  | notModified (path : String) (source : Cause)
  | permissionDenied (path : String) (source : Cause)
  | unauthenticated (path : String) (source : Cause)
  | notSupported (source : Cause)
  | notImplemented
  | unknownConfigurationKey (store key : String)
  /-- An object whose place is no path. -/
  | invalidPath (source : Cause)
  /-- A task of the store's own that did not come to its end. -/
  | taskLost (source : Cause)
  deriving DecidableEq, Repr

namespace BlobFault

def text : BlobFault → String
  | generic store source => s!"Generic {store} error: {source.text}"
  | notFound path source => s!"Object at location {path} not found: {source.text}"
  | alreadyExists path source => s!"Object at location {path} already exists: {source.text}"
  | precondition path source => s!"Request precondition failure for path {path}: {source.text}"
  | notModified path source => s!"Object at location {path} not modified: {source.text}"
  | permissionDenied path source =>
    s!"The operation lacked the necessary privileges to complete for path {path}: {source.text}"
  | unauthenticated path source =>
    s!"The operation lacked valid authentication credentials for path {path}: {source.text}"
  | notSupported source => s!"Operation not supported: {source.text}"
  | notImplemented => "Operation not yet implemented."
  | unknownConfigurationKey store key =>
    s!"Configuration key: '{key}' is not valid for store '{store}'."
  | invalidPath source => s!"Encountered object with invalid path: {source.text}"
  | taskLost source => s!"Error joining spawned task: {source.text}"

/-- The texts of the successive sources, for the faults that have one. -/
def causes : BlobFault → List String
  | generic _ source | notFound _ source | alreadyExists _ source | precondition _ source
  | notModified _ source | permissionDenied _ source | unauthenticated _ source
  | notSupported source | invalidPath source | taskLost source => source.text :: source.causes
  | notImplemented | unknownConfigurationKey _ _ => []

def isNotFound : BlobFault → Bool
  | notFound _ _ => true
  | _ => false

end BlobFault
end DumpVault
