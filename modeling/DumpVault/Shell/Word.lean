import DumpVault.Text.Digits

/-!
# Words of a shell script

A script is read character by character into words and operators. A word keeps apart what stands
plainly, what is quoted and what a parameter is to be put in for, since they are expanded by
different rules.
-/
namespace DumpVault.Shell

/-- A parameter, with the text that stands for it when it is not set. With `orEmpty` an empty
value counts as not set. -/
structure Parameter where
  name : String
  default : Option String := none
  orEmpty : Bool := false
  deriving DecidableEq, Repr

inductive Piece
  | plain (text : String)
  | quoted (text : String)
  | parameter (p : Parameter) (isQuoted : Bool)
  deriving DecidableEq, Repr

abbrev Word := List Piece

inductive Token
  | word (w : Word)
  /-- `<`, with the number of the stream in front of it. -/
  | input (stream : Nat)
  /-- `>`, with the number of the stream in front of it. -/
  | output (stream : Nat)
  | operator (c : Char)
  deriving DecidableEq, Repr

inductive Mode
  | bare
  | comment
  | single
  | double
  | escape (inDouble : Bool)
  | dollar (inDouble : Bool)
  | name (inDouble : Bool) (read : List Char)
  | brace (inDouble : Bool) (read : List Char)
  deriving DecidableEq, Repr

structure Lexer where
  /-- The tokens read, the last one first. -/
  tokens : List Token := []
  /-- The pieces of the word begun, the last one first. -/
  word : Option Word := none
  mode : Mode := .bare

namespace Lexer

def push (l : Lexer) (p : Piece) : Lexer := { l with word := some (p :: l.word.getD []) }

def addPlain (l : Lexer) (c : Char) : Lexer :=
  match l.word with
  | some (.plain s :: rest) => { l with word := some (.plain (s.push c) :: rest) }
  | _ => l.push (.plain (String.singleton c))

def addQuoted (l : Lexer) (c : Char) : Lexer :=
  match l.word with
  | some (.quoted s :: rest) => { l with word := some (.quoted (s.push c) :: rest) }
  | _ => l.push (.quoted (String.singleton c))

def endWord (l : Lexer) : Lexer :=
  match l.word with
  | none => l
  | some pieces => { l with tokens := .word pieces.reverse :: l.tokens, word := none }

def emit (l : Lexer) (t : Token) : Lexer := { l with tokens := t :: l.tokens }

/-- Takes the number of a stream off the word begun. -/
def takeStream (l : Lexer) (default : Nat) : Nat × Lexer :=
  match l.word with
  | some [.plain s] =>
    match s.toList with
    | [c] => if Text.isDigit c then (Text.digitValue c, { l with word := none }) else (default, l.endWord)
    | _ => (default, l.endWord)
  | _ => (default, l.endWord)

def isNameChar (c : Char) : Bool := c.isAlphanum || c == '_'

def isSpecial (c : Char) : Bool := "@*#?$!-".toList.contains c || Text.isDigit c

def braced (read : List Char) : Parameter :=
  let name := read.takeWhile fun c => isNameChar c || isSpecial c && c != '-'
  let rest := read.drop name.length
  let name := String.ofList name
  match rest with
  | ':' :: '-' :: default => ⟨name, some (String.ofList default), true⟩
  | '-' :: default => ⟨name, some (String.ofList default), false⟩
  | _ => ⟨name, none, false⟩

def stepBare (l : Lexer) (c : Char) : Lexer :=
  if c == ' ' || c == '\t' then l.endWord
  else if c == '\n' then l.endWord.emit (.operator ';')
  else if c == '\'' then { l with word := some (.quoted "" :: l.word.getD []), mode := .single }
  else if c == '"' then { l with word := some (.quoted "" :: l.word.getD []), mode := .double }
  else if c == '\\' then { l with mode := .escape false }
  else if c == '$' then { l with mode := .dollar false }
  else if c == '#' && l.word.isNone then { l with mode := .comment }
  else if c == '<' then
    let (n, l) := l.takeStream 0
    l.emit (.input n)
  else if c == '>' then
    let (n, l) := l.takeStream 1
    l.emit (.output n)
  else if ";&|()".toList.contains c then l.endWord.emit (.operator c)
  else l.addPlain c

def stepDouble (l : Lexer) (c : Char) : Lexer :=
  if c == '"' then { l with mode := .bare }
  else if c == '\\' then { l with mode := .escape true }
  else if c == '$' then { l with mode := .dollar true }
  else l.addQuoted c

def resume (l : Lexer) (inDouble : Bool) : Lexer :=
  { l with mode := if inDouble then .double else .bare }

def stepText (l : Lexer) (inDouble : Bool) (c : Char) : Lexer :=
  if inDouble then l.stepDouble c else l.stepBare c

def addText (l : Lexer) (inDouble : Bool) (c : Char) : Lexer :=
  if inDouble then l.addQuoted c else l.addPlain c

def endName (l : Lexer) (inDouble : Bool) (read : List Char) : Lexer :=
  (l.push (.parameter ⟨String.ofList read, none, false⟩ inDouble)).resume inDouble

def step (l : Lexer) (c : Char) : Lexer :=
  match l.mode with
  | .bare => l.stepBare c
  | .comment => if c == '\n' then { l.emit (.operator ';') with mode := .bare } else l
  | .single => if c == '\'' then { l with mode := .bare } else l.addQuoted c
  | .double => l.stepDouble c
  | .escape false => { if c == '\n' then l else l.addQuoted c with mode := .bare }
  | .escape true =>
    let l := { l with mode := .double }
    if "$`\"\\".toList.contains c then l.addQuoted c
    else if c == '\n' then l
    else (l.addQuoted '\\').addQuoted c
  | .dollar inDouble =>
    if c == '\x7b' then { l with mode := .brace inDouble [] }
    else if isSpecial c then l.endName inDouble [c]
    else if isNameChar c then { l with mode := .name inDouble [c] }
    else ((l.resume inDouble).addText inDouble '$').stepText inDouble c
  | .name inDouble read =>
    if isNameChar c then { l with mode := .name inDouble (read ++ [c]) }
    else (l.endName inDouble read).stepText inDouble c
  | .brace inDouble read =>
    if c == '\x7d' then (l.push (.parameter (braced read) inDouble)).resume inDouble
    else { l with mode := .brace inDouble (read ++ [c]) }

/-- The tokens of the text read; a quote left open is none. -/
def finish (l : Lexer) : Option (List Token) :=
  match l.mode with
  | .bare | .comment => some l.endWord.tokens.reverse
  | .escape false => some (l.addPlain '\\').endWord.tokens.reverse
  | .dollar false => some (l.addPlain '$').endWord.tokens.reverse
  | .name false read => some (l.endName false read).endWord.tokens.reverse
  | _ => none

end Lexer

def tokens? (script : String) : Option (List Token) :=
  (script.toList.foldl Lexer.step {}).finish

end DumpVault.Shell
