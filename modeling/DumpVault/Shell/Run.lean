import DumpVault.Shell.Script
import DumpVault.Shell.Tool

/-!
# Carrying scripts out

Commands run one after the other, those of a pipeline with the output of each as the input of the
next. A script that reads on after its input has ended, or writes where nothing is kept, simply
goes on; it ends by its last command, by `exit` or by a signal to itself. The jobs that run beside it
are carried out when it has ended.
-/
namespace DumpVault.Shell

inductive Outcome
  | exited (status : UInt8)
  | killed (signal : UInt8)
  | asleep
  deriving DecidableEq, Repr

def notFound : UInt8 := 127

/-- The status of a script that cannot be read, or of a redirection that fails. -/
def misused : UInt8 := 2

/-- Points a stream somewhere; errors are not kept, so the stream of errors leads nowhere. -/
def redirect (s : State) : Redirection → Option State
  | .read n path =>
    (s.openInput (s.expandOne path)).map fun input => if n == 0 then { s with input } else s
  | .write n path =>
    (s.openOutput false (s.expandOne path)).map fun (sink, s) =>
      if n == 1 then { s with output := sink } else s
  | .append n path =>
    (s.openOutput true (s.expandOne path)).map fun (sink, s) =>
      if n == 1 then { s with output := sink } else s
  | .copy n origin =>
    let origin := s.expandOne origin
    if n == 0 && origin == "-" then some { s with input := .closed }
    else if n == 1 && origin == "-" then some { s with output := .closed }
    else if n == 1 && origin == "2" then some { s with output := .nowhere }
    else if n ≥ 3 && origin == "0" then some { s with copies := n :: s.copies }
    else if n ≥ 3 && origin == "-" then some { s with copies := s.copies.filter (· != n) }
    else some s

/-- Takes back the streams that a command has redirected; input that it has read stays read. -/
def restoreStreams (before : State) (rs : List Redirection) (after : State) : State :=
  let redirectsInput := rs.any fun r => match r with
    | .read 0 _ | .copy 0 _ => true
    | _ => false
  { after with
    output := before.output
    copies := before.copies
    input := if redirectsInput then before.input else after.input }

def assignment? (w : Word) : Option (String × Word) :=
  match w with
  | .plain t :: rest =>
    let cs := t.toList
    let name := cs.takeWhile Lexer.isNameChar
    match cs.drop name.length with
    | '=' :: value =>
      if name.isEmpty || Text.isDigit (name.headD '0') then none
      else some (String.ofList name,
        if value.isEmpty then rest else .plain (String.ofList value) :: rest)
    | _ => none
  | _ => none

def assign (s : State) (assignments : List (String × Word)) : State :=
  assignments.foldl (fun s (name, w) =>
    { s with environment := s.environment.set name (s.expandOne w).toUTF8 }) s

/-- Runs what words name; `program` runs what is no utility of the shell. -/
def runWords (program : Tool) (words : List String) (s : State) : State × Flow :=
  match words with
  | [] => (s, .next)
  | name :: args =>
    match Tool.ofShell.lookup name with
    | some tool => tool args s
    | none => program (name :: args) s

/-- Runs a command. Behind `exec` the script ends with the command, and redirections without a
command stay in force. -/
def runCommand (program : Tool) (c : Command) (s : State) : State × Flow :=
  let assignments := (c.words.map assignment?).takeWhile Option.isSome |>.filterMap id
  let words := (c.words.drop assignments.length).flatMap s.expandWord
  match c.redirections.foldlM redirect s with
  | none => (s.withStatus misused, .next)
  | some redirected =>
    match words with
    | [] => (assign ((restoreStreams s c.redirections redirected).withStatus 0) assignments, .next)
    | ["exec"] => (redirected.withStatus 0, .next)
    | "exec" :: words =>
      match runWords program words (assign redirected assignments) with
      | (s, .next) => (s, .exit)
      | r => r
    | words =>
      let (after, flow) := runWords program words (assign redirected assignments)
      (restoreStreams s c.redirections { after with environment := s.environment }, flow)

/-- What becomes of a command of a pipeline: leaving it leaves only its own shell. -/
def inPipeline (r : State × Flow) : State × Flow :=
  match r with
  | (s, .exit) => (s, .next)
  | r => r

def runPipeline (program : Tool) : Pipeline → State → State × Flow
  | [], s => (s, .next)
  | [c], s => runCommand program c s
  | c :: rest, s =>
    let (t, flow) := inPipeline (runCommand program c { s with output := .pipe, piped := .empty })
    match flow with
    | .next =>
      let u := { t with output := s.output, input := .bytes t.piped, piped := s.piped }
      let (v, flow) := inPipeline (runPipeline program rest u)
      ({ v with input := t.input }, flow)
    | flow => (t, flow)

def Joint.applies (j : Joint) (status : UInt8) : Bool :=
  match j with
  | .always => true
  | .onSuccess => status == 0
  | .onFailure => status != 0

/-- The state in which a job of a script goes on that has left another behind. A job reads nothing. -/
def State.forJob (s ended : State) : State :=
  { s with
    files := ended.files
    input := .bytes .empty
    emitted := ended.emitted
    status := 0
    interruptsParent := false }

/-- What is left when a job has ended that was started from `s`. -/
def State.afterJob (ended s job : State) : State :=
  { ended with
    files := job.files
    emitted := job.emitted
    remains :=
      { holdsInput := job.remains.holdsInput || ended.remains.holdsInput || !s.copies.isEmpty
        interruptsParent := job.remains.interruptsParent || ended.remains.interruptsParent ||
          job.interruptsParent } }

def runScript (program : Tool) : Script → State → State × Flow
  | [], s => (s, .next)
  | clause :: rest, s =>
    if clause.joint.applies s.status then
      if clause.isJob then
        let (ended, flow) := runScript program rest (s.withStatus 0)
        let (job, _) := runPipeline program clause.pipeline (s.forJob ended)
        (ended.afterJob s job, flow)
      else
        match runPipeline program clause.pipeline s with
        | (s, .next) => runScript program rest s
        | r => r
    else runScript program rest s

def shellNames : List String := ["sh", "dash", "bash"]

def baseName (name : String) : String :=
  let cs := name.toList
  let strip (dir : String) : Option String :=
    if dir.toList.isPrefixOf cs then some (String.ofList (cs.drop dir.length)) else none
  ((strip "/usr/bin/").or (strip "/bin/")).getD name

/-- Runs a program by name. The number bounds how deep shells are nested. -/
def runProgram : Nat → Tool
  | 0, _, s => (s.withStatus notFound, .next)
  | _, [], s => (s.withStatus notFound, .next)
  | depth + 1, name :: args, s =>
    let name := baseName name
    if shellNames.contains name then
      match args with
      | "-c" :: script :: rest =>
        match Script.ofText? script with
        | none => (s.withStatus misused, .next)
        | some script =>
          let inner := { s with
            arguments := if rest.isEmpty then [name] else rest
            environment := s.environment
            status := 0 }
          match runScript (runProgram depth) script inner with
          | (t, .exit) => ({ t with arguments := s.arguments }, .next)
          | (t, flow) => ({ t with arguments := s.arguments }, flow)
      | "-c" :: [] => (s.withStatus misused, .next)
      | _ => (s.withStatus notFound, .next)
    else
      match Tool.programs.lookup name with
      | some tool =>
        match tool args s with
        | (s, .exit) => (s, .next)
        | r => r
      | none => (s.withStatus notFound, .next)

def nesting : Nat := 16

def isProgram (name : String) : Bool :=
  let base := baseName name
  !base.toList.contains '/' && (shellNames.contains base || (Tool.programs.lookup base).isSome)

def run (words : List String) (s : State) : Outcome × State :=
  match runProgram nesting words s with
  | (s, .next) | (s, .exit) => (.exited s.status, s)
  | (s, .killed signal) => (.killed signal, s)
  | (s, .asleep) => (.asleep, s)

end DumpVault.Shell
