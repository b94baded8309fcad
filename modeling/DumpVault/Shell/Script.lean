import DumpVault.Shell.Word

/-!
# Shell scripts

A script is a row of pipelines, each carried out always or by the outcome of what came before it,
and some as jobs beside what follows. A command is a row of words with redirections of its input and
output.
-/
namespace DumpVault.Shell

inductive Redirection
  | read (stream : Nat) (path : Word)
  | write (stream : Nat) (path : Word)
  | append (stream : Nat) (path : Word)
  /-- The stream becomes a copy of another, or is closed for `-`. -/
  | copy (stream : Nat) (origin : Word)
  deriving DecidableEq, Repr

structure Command where
  words : List Word := []
  redirections : List Redirection := []
  deriving DecidableEq, Repr

def Command.isEmpty (c : Command) : Bool := c.words.isEmpty && c.redirections.isEmpty

abbrev Pipeline := List Command

inductive Joint
  | always | onSuccess | onFailure
  deriving DecidableEq, Repr

structure Clause where
  joint : Joint
  pipeline : Pipeline
  /-- The script goes on without waiting for the end. -/
  isJob : Bool
  deriving DecidableEq, Repr

abbrev Script := List Clause

structure Assembly where
  script : Script := []
  joint : Joint := .always
  pipeline : Pipeline := []
  command : Command := {}

namespace Assembly

def addWord (a : Assembly) (w : Word) : Assembly :=
  { a with command := { a.command with words := a.command.words ++ [w] } }

def redirect (a : Assembly) (r : Redirection) : Assembly :=
  { a with command := { a.command with redirections := a.command.redirections ++ [r] } }

def endCommand (a : Assembly) : Option Assembly :=
  if a.command.isEmpty then none
  else some { a with pipeline := a.pipeline ++ [a.command], command := {} }

/-- Ends a pipeline; `joint` is how the next one follows it. -/
def endPipeline (a : Assembly) (joint : Joint) (isJob : Bool := false) : Option Assembly := do
  let a ← a.endCommand
  return { a with script := a.script ++ [⟨a.joint, a.pipeline, isJob⟩], pipeline := [], joint }

def isFresh (a : Assembly) : Bool := a.command.isEmpty && a.pipeline.isEmpty

def finish (a : Assembly) : Option Script :=
  if a.isFresh && a.joint == .always then some a.script
  else (a.endPipeline .always).map (·.script)

def take : List Token → Assembly → Option Script
  | [], a => a.finish
  | .word w :: rest, a => take rest (a.addWord w)
  | .output n :: .output _ :: .word w :: rest, a => take rest (a.redirect (.append n w))
  | .output n :: .operator '&' :: .word w :: rest, a => take rest (a.redirect (.copy n w))
  | .output n :: .word w :: rest, a => take rest (a.redirect (.write n w))
  | .input n :: .operator '&' :: .word w :: rest, a => take rest (a.redirect (.copy n w))
  | .input n :: .word w :: rest, a => take rest (a.redirect (.read n w))
  | .operator '&' :: .operator '&' :: rest, a => a.endPipeline .onSuccess >>= take rest
  | .operator '|' :: .operator '|' :: rest, a => a.endPipeline .onFailure >>= take rest
  | .operator '&' :: rest, a =>
    if a.joint == .always then a.endPipeline .always true >>= take rest else none
  | .operator '|' :: rest, a => a.endCommand >>= take rest
  | .operator ';' :: rest, a =>
    if a.isFresh then take rest a else a.endPipeline .always >>= take rest
  | _ :: _, _ => none

end Assembly

def Script.ofText? (text : String) : Option Script := do
  let tokens ← tokens? text
  Assembly.take tokens {}

end DumpVault.Shell
