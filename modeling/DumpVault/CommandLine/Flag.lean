/-!
# Commands and flags

The words of the command line: the subcommands, the flags that stand alone and those that take a
value. The flags for settings may stand before the subcommand or after it; the key belongs to
`restore` alone.
-/
namespace DumpVault.CommandLine

inductive Subcommand
  | archive | restore | list
  deriving DecidableEq, Repr

namespace Subcommand

def name : Subcommand → String
  | archive => "archive"
  | restore => "restore"
  | list => "list"

def all : List Subcommand := [archive, restore, list]

def ofName? (name : String) : Option Subcommand := all.find? fun c => c.name == name

end Subcommand

/-- The word that asks for the help of a subcommand. -/
def helpWord : String := "help"

inductive ValueFlag
  | config | host | database | databasePath | username | bucket | credentials | localStore
  | stagingDir | dumpProgram | restoreProgram | key
  deriving DecidableEq, Repr

namespace ValueFlag

def name : ValueFlag → String
  | config => "config"
  | host => "host"
  | database => "database"
  | databasePath => "database-path"
  | username => "username"
  | bucket => "bucket"
  | credentials => "credentials"
  | localStore => "local-store"
  | stagingDir => "staging-dir"
  | dumpProgram => "dump-program"
  | restoreProgram => "restore-program"
  | key => "key"

def all : List ValueFlag :=
  [config, host, database, databasePath, username, bucket, credentials, localStore, stagingDir,
    dumpProgram, restoreProgram, key]

/-- A path is never the empty text. -/
def isPath : ValueFlag → Bool
  | config | databasePath | credentials | localStore | stagingDir => true
  | _ => false

/-- A flag is known before any subcommand (`none`) and after each, but the key only after
`restore`. -/
def knownAt (place : Option Subcommand) : ValueFlag → Bool
  | key => place == some .restore
  | _ => true

end ValueFlag

inductive Switch
  | retainStaging | help | version
  deriving DecidableEq, Repr

namespace Switch

def name : Switch → String
  | retainStaging => "retain-staging"
  | help => "help"
  | version => "version"

def all : List Switch := [retainStaging, help, version]

/-- The version is asked for before any subcommand only. -/
def knownAt (place : Option Subcommand) : Switch → Bool
  | version => place.isNone
  | _ => true

def letter? : Switch → Option Char
  | retainStaging => none
  | help => some 'h'
  | version => some 'V'

end Switch

inductive Flag
  | value (flag : ValueFlag)
  | switch (flag : Switch)
  deriving DecidableEq, Repr

def Flag.ofName? (place : Option Subcommand) (name : String) : Option Flag :=
  match ValueFlag.all.find? fun f => f.name == name && f.knownAt place with
  | some f => some (.value f)
  | none => (Switch.all.find? fun f => f.name == name && f.knownAt place).map .switch

def Switch.ofLetter? (place : Option Subcommand) (letter : Char) : Option Switch :=
  all.find? fun f => f.letter? == some letter && f.knownAt place

end DumpVault.CommandLine
