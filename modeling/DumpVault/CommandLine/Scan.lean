import DumpVault.CommandLine.Flag
import DumpVault.Text.Blank

/-!
# Scanning words

The words before a subcommand and those after it are scanned in the same way. A flag's value is
the text behind its equals sign or the next word, unless that word looks like a flag itself. A
value is looked at when the next flag comes or the words end, so what is wrong with a value may be
found later than what is wrong with a word behind it.
-/
namespace DumpVault.CommandLine

/-- Why a command line is not carried out; asking for help or the version counts. -/
inductive UsageFault
  | displayHelp | displayVersion | nothingGiven | missingSubcommand | invalidSubcommand
  | unknownArgument | invalidValue | valueValidation | tooManyValues | argumentConflict
  | missingRequiredArgument
  deriving DecidableEq, Repr

structure Given where
  values : List (ValueFlag × String) := []
  retainStaging : Bool := false
  deriving DecidableEq, Repr

namespace Given

def value? (g : Given) (flag : ValueFlag) : Option String := g.values.lookup flag

def isEmpty (g : Given) : Bool := g.values.isEmpty && !g.retainStaging

def check (flag : ValueFlag) (value : String) : Except UsageFault Unit :=
  if flag.isPath && value == "" then .error .invalidValue
  else if flag == .key && decide (Text.AllBlank value) then .error .valueValidation
  else .ok ()

/-- Takes in the value of a flag, which may be given once. -/
def add (g : Given) (flag : ValueFlag) (value : String) : Except UsageFault Given :=
  if (g.value? flag).isSome then .error .argumentConflict
  else do
    check flag value
    return { g with values := g.values ++ [(flag, value)] }

/-- The name of the database must not be given in two ways. -/
def validate (g : Given) : Except UsageFault Unit :=
  if (g.value? .database).isSome && (g.value? .databasePath).isSome then .error .argumentConflict
  else .ok ()

end Given

/-- A flag whose value has yet to come, or to be looked at. -/
inductive Pending
  | nothing
  | awaiting (flag : ValueFlag)
  | holding (flag : ValueFlag) (value : String)
  deriving DecidableEq, Repr

structure Scan where
  place : Option Subcommand
  given : Given := {}
  pending : Pending := .nothing

namespace Scan

/-- Looks at the pending value. -/
def settle (s : Scan) : Except UsageFault Scan :=
  match s.pending with
  | .nothing => .ok s
  | .awaiting _ => .error .invalidValue
  | .holding flag value => do
    let given ← s.given.add flag value
    return { s with given, pending := .nothing }

def applySwitch (s : Scan) (f : Switch) : Except UsageFault Scan := do
  let s ← s.settle
  match f with
  | .help => throw .displayHelp
  | .version => throw .displayVersion
  | .retainStaging =>
    if s.given.retainStaging then throw .argumentConflict
    return { s with given := { s.given with retainStaging := true } }

def splitLong (cs : List Char) : String × Option String :=
  let name := String.ofList (cs.takeWhile (· != '='))
  match cs.dropWhile (· != '=') with
  | [] => (name, none)
  | _ :: value => (name, some (String.ofList value))

def long (s : Scan) (cs : List Char) : Except UsageFault Scan := do
  let (name, attached) := splitLong cs
  match Flag.ofName? s.place name, attached with
  | none, _ => throw .unknownArgument
  | some (.switch _), some _ => throw .tooManyValues
  | some (.switch f), none => s.applySwitch f
  | some (.value f), some value =>
    let s ← s.settle
    let given ← s.given.add f value
    return { s with given }
  | some (.value f), none =>
    let s ← s.settle
    return { s with pending := .awaiting f }

def letters (s : Scan) : List Char → Except UsageFault Scan
  | [] => .ok s
  | c :: rest =>
    match Switch.ofLetter? s.place c with
    | none => .error .unknownArgument
    | some f => do
      let s ← s.applySwitch f
      letters s rest

/-- The fault of a word that is nothing expected: before a subcommand, no subcommand. -/
def stray (s : Scan) : UsageFault :=
  match s.place with
  | none => .invalidSubcommand
  | some _ => .unknownArgument

/-- The fault of the first word after a lone double dash: nothing may follow it. -/
def strayTrailing (s : Scan) (word : String) : UsageFault :=
  if s.place.isNone && (word == helpWord || (Subcommand.ofName? word).isSome) then
    .unknownArgument
  else s.stray

def word (s : Scan) (w : String) : Except UsageFault Scan :=
  match w.toList with
  | '-' :: '-' :: cs => s.long cs
  | '-' :: c :: cs => s.letters (c :: cs)
  | _ =>
    match s.pending with
    | .awaiting flag => .ok { s with pending := .holding flag w }
    | _ => .error s.stray

/-- The outcome of asking for the help of what the words name. -/
def helpOf : List String → UsageFault
  | [] => .displayHelp
  | [w] =>
    if w == helpWord || (Subcommand.ofName? w).isSome then .displayHelp else .invalidSubcommand
  | _ => .invalidSubcommand

def subcommand? (s : Scan) (w : String) : Option Subcommand :=
  match s.place, s.pending with
  | none, .nothing | none, .holding _ _ => Subcommand.ofName? w
  | _, _ => none

def asksHelp (s : Scan) (w : String) : Bool :=
  match s.place, s.pending with
  | none, .nothing | none, .holding _ _ => w == helpWord
  | _, _ => false

/-- Scans words up to a subcommand, which is returned with the words behind it. -/
def words (s : Scan) : List String → Except UsageFault (Scan × Option (Subcommand × List String))
  | [] => .ok (s, none)
  | w :: rest =>
    if s.asksHelp w then .error (helpOf rest)
    else
      match s.subcommand? w with
      | some c => .ok (s, some (c, rest))
      | none =>
        if w == "--" then
          match rest with
          | [] => .ok (s, none)
          | next :: _ => .error (s.strayTrailing next)
        else do
          let s ← s.word w
          words s rest

end Scan
end DumpVault.CommandLine
