import DumpVault.Config.Basic
import DumpVault.Yaml.Content

/-!
# Configuration documents

A configuration is read from a YAML document. Whatever the document leaves out has its default,
section by section and field by field; the password's source and the store's backend are tagged
values, given whole or not at all.
-/
namespace DumpVault
open Yaml

namespace SecretSource

def rule : TagRule := ⟨"SecretSource", "from", ["env", "file", "none"]⟩

def ofVariant (variant : String) (c : Content) : Except DecodeFault SecretSource :=
  if variant == "env" then env <$> c.variantOfOne "SecretSource::Env" "var" "a string"
  else if variant == "file" then file <$> c.variantOfOne "SecretSource::File" "path" "path string"
  else (fun _ => absent) <$> c.variantOfNone "SecretSource::None"

def ofContent (c : Content) : Except DecodeFault SecretSource := do
  let (variant, c) ← rule.split c
  ofVariant variant c

def read (d : Document) (depth : Nat) (path : Path) (n : Node) : Decode SecretSource := do
  let (variant, c) ← Decode.tagged d rule depth path n
  liftM (ofVariant variant c)

end SecretSource

namespace Backend

def rule : TagRule := ⟨"StoreBackend", "kind", ["gcs", "local", "memory"]⟩

def ofVariant (variant : String) (c : Content) : Except DecodeFault Backend :=
  if variant == "gcs" then (fun _ => gcs) <$> c.variantOfNone "StoreBackend::Gcs"
  else if variant == "local" then
    directory <$> c.variantOfOne "StoreBackend::Local" "root" "path string"
  else (fun _ => memory) <$> c.variantOfNone "StoreBackend::Memory"

def read (d : Document) (depth : Nat) (path : Path) (n : Node) : Decode Backend := do
  let (variant, c) ← Decode.tagged d rule depth path n
  liftM (ofVariant variant c)

end Backend

open Decode in
def DatabaseConfig.read (d : Document) : Nat → Path → Node → Decode DatabaseConfig :=
  record d "struct DatabaseConfig"
    [⟨"host", fun _ path n => do
        let host ← text d "a string" path n
        return ({ · with host })⟩,
      ⟨"name", fun _ path n => do
        let name ← text d "a string" path n
        return ({ · with name })⟩,
      ⟨"username", fun _ path n => do
        let username ← text d "a string" path n
        return ({ · with username })⟩,
      ⟨"password", fun depth path n => do
        let password ← SecretSource.read d depth path n
        return ({ · with password })⟩] {}

open Decode in
def StoreConfig.read (d : Document) : Nat → Path → Node → Decode StoreConfig :=
  record d "struct StoreConfig"
    [⟨"bucket", fun _ path n => do
        let bucket ← text d "a string" path n
        return ({ · with bucket })⟩,
      ⟨"credentials_path", fun _ path n => do
        let credentialsPath ← option d n (text d "path string" path)
        return ({ · with credentialsPath })⟩,
      ⟨"backend", fun depth path n => do
        let backend ← Backend.read d depth path n
        return ({ · with backend })⟩] {}

open Decode in
def ToolConfig.read (d : Document) : Nat → Path → Node → Decode ToolConfig :=
  record d "struct ToolConfig"
    [⟨"program", fun _ path n => do
        let program ← text d "a string" path n
        return ({ · with program })⟩,
      ⟨"prefix_args", fun depth path n => do
        let prefixArgs ← list d path depth (fun _ path n => text d "a string" path n) n
        return ({ · with prefixArgs })⟩] {}

open Decode in
def StagingConfig.read (d : Document) : Nat → Path → Node → Decode StagingConfig :=
  record d "struct StagingConfig"
    [⟨"dir", fun _ path n => do
        let dir ← option d n (text d "path string" path)
        return ({ · with dir })⟩,
      ⟨"retain", fun _ path n => do
        let retain ← bool d path n
        return ({ · with retain })⟩] {}

namespace Config

open Decode in
def read (d : Document) : Nat → Path → Node → Decode Config :=
  record d "struct Config"
    [⟨"database", fun depth path n => do
        let database ← DatabaseConfig.read d depth path n
        return ({ · with database })⟩,
      ⟨"store", fun depth path n => do
        let store ← StoreConfig.read d depth path n
        return ({ · with store })⟩,
      ⟨"dump", fun depth path n => do
        let dump ← ToolConfig.read d depth path n
        return ({ · with dump })⟩,
      ⟨"restore", fun depth path n => do
        let restore ← ToolConfig.read d depth path n
        return ({ · with restore })⟩,
      ⟨"staging", fun depth path n => do
        let staging ← StagingConfig.read d depth path n
        return ({ · with staging })⟩] {}

/-- The configuration that a document describes; it must be the only one. -/
def ofDocument (d : Document) : Except DecodeFault Config :=
  match read d depthLimit .root d.root 0 with
  | .error f => .error f
  | .ok (c, _) =>
    match d.interruption with
    | some i => .error (.interrupted i)
    | none => if d.more then .error .severalDocuments else .ok c

def ofText (text : String) : Except DecodeFault Config := ofDocument (Document.ofText text)

end Config
end DumpVault
