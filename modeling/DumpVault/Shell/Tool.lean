import DumpVault.Shell.State

/-!
# Small utilities

The utilities that scripts use, each as a function from its arguments and the state to the state
that it leaves. A utility that is given an option it does not know fails with status 1.
-/
namespace DumpVault.Shell

abbrev Tool := List String → State → State × Flow

namespace Tool

def ending (status : UInt8) (s : State) : State × Flow := (s.withStatus status, .next)

def output (s : State) (bytes : ByteArray) : State × Flow := ending 0 (s.emit bytes)

def isOption (a : String) : Bool :=
  match a.toList with
  | '-' :: _ :: _ => true
  | _ => false

def succeed : Tool := fun _ s => ending 0 s

def fail : Tool := fun _ s => ending 1 s

def bytesOf (cs : List Char) : ByteArray := (String.ofList cs).toUTF8

def octal (cs : List Char) (most : Nat) : Nat × List Char :=
  let ds := (cs.take most).takeWhile fun c => '0' ≤ c && c ≤ '7'
  (ds.foldl (fun n c => 8 * n + Text.digitValue c) 0, cs.drop ds.length)

def escapeByte? (c : Char) : Option UInt8 :=
  match c with
  | 'a' => some 7
  | 'b' => some 8
  | 'f' => some 12
  | 'n' => some 10
  | 'r' => some 13
  | 't' => some 9
  | 'v' => some 11
  | '\\' => some 92
  | _ => none

/-- Writes a text out with its escapes; the flag says that the text ended the output. The number
bounds the characters read. With `leadingZero` an octal escape begins with a zero. -/
def unescape (leadingZero : Bool) : Nat → List Char → ByteArray → ByteArray × Bool
  | 0, _, acc => (acc, false)
  | _, [], acc => (acc, false)
  | fuel + 1, '\\' :: c :: cs, acc =>
    if c == 'c' then (acc, true)
    else if leadingZero && c == '0' then
      let (n, rest) := octal cs 3
      unescape leadingZero fuel rest (acc.push n.toUInt8)
    else if !leadingZero && '0' ≤ c && c ≤ '7' then
      let (n, rest) := octal (c :: cs) 3
      unescape leadingZero fuel rest (acc.push n.toUInt8)
    else
      match escapeByte? c with
      | some b => unescape leadingZero fuel cs (acc.push b)
      | none => unescape leadingZero fuel cs (acc ++ bytesOf ['\\', c])
  | fuel + 1, c :: cs, acc => unescape leadingZero fuel cs (acc ++ bytesOf [c])

/-- The shell's own `echo`, which knows `-n` and always reads escapes. -/
def echo : Tool := fun args s =>
  let (newline, args) := match args with
    | "-n" :: rest => (false, rest)
    | args => (true, args)
  let text := String.intercalate " " args
  let (bytes, stopped) := unescape true (text.length + 1) text.toList .empty
  output s (if newline && !stopped then bytes.push 10 else bytes)

def isEchoOption (a : String) : Bool :=
  match a.toList with
  | '-' :: c :: cs => (c :: cs).all "neE".toList.contains
  | _ => false

/-- `echo` as a program, which reads escapes only behind `-e`. -/
def echoProgram : Tool := fun args s =>
  let options := args.takeWhile isEchoOption
  let letters := options.flatMap String.toList
  let text := String.intercalate " " (args.drop options.length)
  let escapes := (letters.reverse.find? fun c => c == 'e' || c == 'E') == some 'e'
  let (bytes, stopped) := if escapes then unescape true (text.length + 1) text.toList .empty
    else (text.toUTF8, false)
  output s (if letters.contains 'n' || stopped then bytes else bytes.push 10)

structure Directive where
  left : Bool := false
  zero : Bool := false
  width : Nat := 0
  precision : Option Nat := none
  letter : Char

def takeNumber (cs : List Char) : Nat × List Char :=
  let ds := cs.takeWhile Text.isDigit
  (Text.valueOf ds, cs.drop ds.length)

def directive? (cs : List Char) : Option (Directive × List Char) :=
  let flags := cs.takeWhile "-+ 0#".toList.contains
  let (width, rest) := takeNumber (cs.drop flags.length)
  let (precision, rest) : Option Nat × List Char := match rest with
    | '.' :: rest =>
      let (n, rest) := takeNumber rest
      (some n, rest)
    | rest => (none, rest)
  match rest with
  | [] => none
  | c :: rest =>
    some ({ left := flags.contains '-', zero := flags.contains '0', width, precision, letter := c },
      rest)

def pad (d : Directive) (bytes : ByteArray) : ByteArray :=
  let fill := ByteArray.mk (Array.replicate (d.width - bytes.size) 32)
  if d.left then bytes ++ fill else fill ++ bytes

def numberOf (a : String) : Int :=
  match a.toList with
  | '-' :: cs => -(takeNumber cs).1
  | '+' :: cs => (takeNumber cs).1
  | ['\'', c] | ['"', c] => c.toNat
  | cs => (takeNumber cs).1

def numeral (d : Directive) (n : Int) : ByteArray :=
  let base := if d.letter == 'o' then 8 else if d.letter == 'x' || d.letter == 'X' then 16 else 10
  let ds := Nat.toDigits base n.natAbs
  let ds := if d.letter == 'X' then ds.map Char.toUpper else ds
  let sign := if n < 0 then ['-'] else []
  let least := d.precision.getD (if d.zero && !d.left then d.width - sign.length else 0)
  pad d (bytesOf (sign ++ List.replicate (least - ds.length) '0' ++ ds))

/-- One pass of `printf` over its format. -/
structure Printing where
  bytes : ByteArray := .empty
  args : List String
  used : Bool := false
  /-- Whether the format ended the output, and with what status. -/
  stopped : Option UInt8 := none

namespace Printing

def next (p : Printing) : String × Printing :=
  match p.args with
  | [] => ("", { p with used := true })
  | a :: rest => (a, { p with args := rest, used := true })

def add (p : Printing) (bytes : ByteArray) : Printing := { p with bytes := p.bytes ++ bytes }

def apply (p : Printing) (d : Directive) : Printing :=
  if d.letter == '%' then p.add "%".toUTF8
  else if d.letter == 's' then
    let (a, p) := p.next
    let bytes := a.toUTF8
    p.add (pad d (bytes.extract 0 (d.precision.getD bytes.size)))
  else if d.letter == 'b' then
    let (a, p) := p.next
    let (bytes, stopped) := unescape true (a.length + 1) a.toList .empty
    { p.add (pad d bytes) with stopped := if stopped then some 0 else none }
  else if d.letter == 'c' then
    let (a, p) := p.next
    p.add (pad d (a.toUTF8.extract 0 1))
  else if "diouxX".toList.contains d.letter then
    let (a, p) := p.next
    p.add (numeral d (numberOf a))
  else { p with stopped := some 1 }

/-- Goes through a format once. The number bounds the characters read. -/
def pass : Nat → List Char → Printing → Printing
  | 0, _, p => p
  | _, [], p => p
  | fuel + 1, '%' :: cs, p =>
    match directive? cs with
    | none => { p with stopped := some 1 }
    | some (d, rest) =>
      let p := p.apply d
      if p.stopped.isSome then p else pass fuel rest p
  | fuel + 1, '\\' :: c :: cs, p =>
    if c == 'c' then { p with stopped := some 0 }
    else if '0' ≤ c && c ≤ '7' then
      let (n, rest) := octal (c :: cs) 3
      pass fuel rest (p.add (ByteArray.mk #[n.toUInt8]))
    else
      match escapeByte? c with
      | some b => pass fuel cs (p.add (ByteArray.mk #[b]))
      | none => pass fuel cs (p.add (bytesOf ['\\', c]))
  | fuel + 1, c :: cs, p => pass fuel cs (p.add (bytesOf [c]))

/-- Goes through a format until no argument is left. The number bounds the passes. -/
def all (format : List Char) : Nat → Printing → Printing
  | 0, p => p
  | fuel + 1, p =>
    let q := pass (format.length + 1) format { p with used := false }
    if q.stopped.isSome || q.args.isEmpty || !q.used then q else all format fuel q

end Printing

def printf : Tool := fun args s =>
  match args with
  | [] => ending 2 s
  | "--" :: [] => ending 2 s
  | "--" :: format :: rest | format :: rest =>
    let p := Printing.all format.toList (rest.length + 1) { args := rest }
    ending (p.stopped.getD 0) (s.emit p.bytes)

/-- The contents of named inputs in turn, `-` being the input of the utility. -/
def cat : Tool := fun args s =>
  let options := args.takeWhile isOption
  if options.any fun o => o != "-u" && o != "--" then ending 1 s
  else
    match args.drop options.length with
    | [] =>
      match s.input with
      | .closed => ending 1 s
      | _ =>
        let (bytes, s) := s.drainInput
        output s bytes
    | paths =>
      paths.foldl (fun (s, flow) path =>
        if path == "-" then
          let (bytes, s) := s.drainInput
          (s.emit bytes, flow)
        else
          match s.openInput path with
          | some (.bytes bytes) => (s.emit bytes, flow)
          | _ => (s.withStatus 1, flow)) (ending 0 s)

/-- The argument of a one-letter option, attached or apart. -/
def optionValue? (letter : Char) : List String → Option (String × List String)
  | [] => none
  | a :: rest =>
    match a.toList, rest with
    | ['-', c], value :: rest => if c == letter then some (value, rest) else none
    | '-' :: c :: value, rest =>
      if c == letter then some (String.ofList value, rest) else none
    | _, _ => none

def firstLines (n : Nat) (bytes : ByteArray) : ByteArray :=
  let (size, _) := bytes.foldl (fun (size, left) b =>
    if left == 0 then (size, left) else (size + 1, if b == 10 then left - 1 else left)) (0, n)
  bytes.extract 0 size

def headBytes (n : Nat) (paths : List String) (s : State) : State × Flow :=
  match paths with
  | [] | ["-"] =>
    let (bytes, s) := s.takeInput n
    output s bytes
  | path :: _ =>
    match s.openInput path with
    | some (.bytes bytes) => output s (bytes.extract 0 n)
    | some .zeros => output s (ByteArray.mk (Array.replicate n 0))
    | _ => ending 1 s

def headLines (n : Nat) (paths : List String) (s : State) : State × Flow :=
  match paths with
  | [] | ["-"] =>
    let (bytes, s) := s.drainInput
    output s (firstLines n bytes)
  | path :: _ =>
    match s.openInput path with
    | some (.bytes bytes) => output s (firstLines n bytes)
    | _ => ending 1 s

def number? (a : String) : Option Nat :=
  if a != "" && a.toList.all Text.isDigit then some (Text.valueOf a.toList) else none

def head : Tool := fun args s =>
  match optionValue? 'c' args, optionValue? 'n' args with
  | some (value, paths), _ =>
    match number? value with
    | some n => headBytes n paths s
    | none => ending 1 s
  | none, some (value, paths) =>
    match number? value with
    | some n => headLines n paths s
    | none => ending 1 s
  | none, none => if args.any isOption then ending 1 s else headLines 10 args s

/-- The characters of a set: escapes are read and ranges filled in. -/
def trSet : Nat → List Char → List UInt8
  | 0, _ => []
  | _, [] => []
  | fuel + 1, '\\' :: c :: cs =>
    if '0' ≤ c && c ≤ '7' then
      let (n, rest) := octal (c :: cs) 3
      n.toUInt8 :: trSet fuel rest
    else (escapeByte? c).getD c.toNat.toUInt8 :: trSet fuel cs
  | fuel + 1, a :: '-' :: b :: cs =>
    (List.range (b.toNat + 1 - a.toNat)).map (fun i => (a.toNat + i).toUInt8) ++ trSet fuel cs
  | fuel + 1, c :: cs => (bytesOf [c]).toList ++ trSet fuel cs

def setOf (a : String) : List UInt8 := trSet (a.length + 1) a.toList

def tr : Tool := fun args s =>
  match args with
  | ["-d", set] =>
    let (bytes, s) := s.drainInput
    let set := setOf set
    output s (bytes.foldl (fun acc b => if set.contains b then acc else acc.push b) .empty)
  | [from', into] =>
    if isOption from' then ending 1 s
    else
      let (bytes, s) := s.drainInput
      let into := setOf into
      let table := (setOf from').zipIdx.map fun (b, i) => (b, into[i]?.or into.getLast?)
      let image := (List.range 256).map fun n =>
        ((table.reverse.lookup n.toUInt8).getD none).getD n.toUInt8
      let image := ByteArray.mk image.toArray
      output s (bytes.foldl (fun acc b => acc.push (image.get! b.toNat)) (.emptyWithCapacity bytes.size))
  | _ => ending 1 s

/-- Removes files; with `-f`, missing ones do not count. -/
def rm : Tool := fun args s =>
  let options := args.takeWhile isOption
  if options.any fun o => o != "-f" && o != "--" then ending 1 s
  else
    let force := options.contains "-f"
    let s := s.withStatus 0
    ((args.drop options.length).foldl (fun s path =>
      match s.files.removeFile s.cwd path with
      | .ok files => { s with files }
      | .error (.os code) =>
        if force && code == Fault.noEntry then s else s.withStatus 1
      | .error _ => s.withStatus 1) s, .next)

def listing (names : List String) : ByteArray :=
  (String.join ((names.mergeSort fun a b => decide (a ≤ b)).map (· ++ "\n"))).toUTF8

def ls : Tool := fun args s =>
  let options := args.takeWhile isOption
  if options.any fun o => o != "-1" && o != "--" && o != "-A" && o != "-a" then ending 2 s
  else
    let path := (args.drop options.length).headD "."
    match s.files.stat s.cwd path with
    | .error _ => ending 2 s
    | .ok (_, .file _) => output s (path ++ "\n").toUTF8
    | .ok (l, .directory) =>
      let hidden := options.contains "-A" || options.contains "-a"
      output s (listing ((s.files.names l).filter fun n => hidden || n.toList.head? != some '.'))

structure Substitution where
  atStart : Bool
  atEnd : Bool
  items : List Item
  replacement : List Char
  everywhere : Bool

/-- Reads up to a delimiter that no backslash stands before. -/
def upTo (delimiter : Char) : List Char → List Char → Option (List Char × List Char)
  | _, [] => none
  | acc, '\\' :: c :: cs =>
    upTo delimiter (if c == delimiter then acc ++ [c] else acc ++ ['\\', c]) cs
  | acc, c :: cs => if c == delimiter then some (acc, cs) else upTo delimiter (acc ++ [c]) cs

def substitution? (script : String) : Option Substitution := do
  match script.toList with
  | 's' :: delimiter :: rest =>
    let (pattern, rest) ← upTo delimiter [] rest
    let (replacement, flags) ← upTo delimiter [] rest
    let (atStart, pattern) := match pattern with
      | '^' :: p => (true, p)
      | p => (false, p)
    let (atEnd, pattern) :=
      if pattern.getLast? == some '$' then (true, pattern.dropLast) else (false, pattern)
    if flags == [] || flags == ['g'] then
      return { atStart, atEnd, items := Pattern.ofBasic (pattern.length + 1) pattern, replacement
               everywhere := flags == ['g'] }
    else none
  | _ => none

def Substitution.put (matched : List Char) : List Char → List Char
  | [] => []
  | '\\' :: c :: cs => c :: put matched cs
  | '&' :: cs => matched ++ put matched cs
  | c :: cs => c :: put matched cs

/-- Substitutes within a line. The number bounds the characters read. -/
def Substitution.apply (u : Substitution) : Nat → Bool → List Char → List Char
  | 0, _, cs => cs
  | fuel + 1, isStart, cs =>
    let found := if u.atStart && !isStart then none
      else Pattern.matchFront (fun rest => !u.atEnd || rest.isEmpty) u.items cs
    match found, cs with
    | some rest, cs =>
      let matched := cs.take (cs.length - rest.length)
      let out := Substitution.put matched u.replacement
      if !u.everywhere then out ++ rest
      else
        match matched, rest with
        | [], [] => out
        | [], c :: rest => out ++ c :: u.apply fuel false rest
        | _, rest => if rest.isEmpty then out else out ++ u.apply fuel false rest
    | none, [] => []
    | none, c :: cs => c :: u.apply fuel false cs

def sed : Tool := fun args s =>
  match args with
  | [script] =>
    match substitution? script with
    | none => ending 1 s
    | some u =>
      let (bytes, s) := s.drainInput
      let text := (String.fromUTF8? bytes).getD ""
      let lines := text.splitOn "\n"
      output s (String.intercalate "\n" (lines.map fun line =>
        if line == "" && !u.atEnd then line
        else String.ofList (u.apply (line.length + 1) true line.toList))).toUTF8
  | _ => ending 1 s

def wc : Tool := fun args s =>
  match args with
  | ["-c"] =>
    let (bytes, s) := s.drainInput
    output s (toString bytes.size ++ "\n").toUTF8
  | _ => ending 1 s

def isDuration (a : String) : Bool :=
  let cs := a.toList
  let cs := if "smhd".toList.contains (cs.getLastD '0') then cs.dropLast else cs
  !cs.isEmpty && cs.all fun c => Text.isDigit c || c == '.'

/-- Sleeping takes no time, but nobody wakes up whose parent has been interrupted. -/
def sleep : Tool := fun args s =>
  if args.isEmpty || !args.all isDuration then ending 1 s
  else if s.interruptsParent then (s, .asleep)
  else ending 0 s

def signals : List (String × UInt8) :=
  [("HUP", 1), ("INT", 2), ("QUIT", 3), ("ILL", 4), ("TRAP", 5), ("ABRT", 6), ("BUS", 7),
   ("FPE", 8), ("KILL", 9), ("USR1", 10), ("SEGV", 11), ("USR2", 12), ("PIPE", 13), ("ALRM", 14),
   ("TERM", 15), ("STKFLT", 16), ("XCPU", 24), ("XFSZ", 25), ("VTALRM", 26), ("PROF", 27),
   ("IO", 29), ("PWR", 30), ("SYS", 31)]

def signal? (name : String) : Option UInt8 :=
  match number? name with
  | some n => if n < 32 then some n.toUInt8 else none
  | none =>
    let name := if name.startsWith "SIG" then String.ofList (name.toList.drop 3) else name
    signals.lookup name

/-- Signals a process: the script itself or its parent. -/
def kill : Tool := fun args s =>
  let (signal, targets) : Option UInt8 × List String := match args with
    | "-s" :: name :: rest => (signal? name, rest)
    | a :: rest => if isOption a then (signal? (String.ofList (a.toList.drop 1)), rest)
      else (some 15, a :: rest)
    | [] => (none, [])
  match signal, targets with
  | some n, [target] =>
    if n == 0 then ending 0 s
    else if target == ownNumber then (s, .killed n)
    else if target == parentNumber then
      ending 0 (if n == 2 then { s with interruptsParent := true } else s)
    else ending 1 s
  | _, _ => ending 1 s

def exit : Tool := fun args s =>
  match args with
  | [] => (s, .exit)
  | a :: _ =>
    match number? a with
    | some n => (s.withStatus n.toUInt8, .exit)
    | none => (s.withStatus 2, .exit)

def test (args : List String) (s : State) : Bool :=
  match args with
  | [a] => a != ""
  | ["!", a] => a == ""
  | ["-n", a] => a != ""
  | ["-z", a] => a == ""
  | ["-e", p] => (s.files.stat s.cwd p).isOk
  | ["-f", p] => (s.files.readFile s.cwd p).isOk
  | ["-s", p] => match s.files.readFile s.cwd p with
    | .ok bytes => bytes.size != 0
    | .error _ => false
  | ["-d", p] => match s.files.stat s.cwd p with
    | .ok (_, .directory) => true
    | _ => false
  | [a, "=", b] => a == b
  | [a, "!=", b] => a != b
  | [a, "-eq", b] => numberOf a == numberOf b
  | [a, "-ne", b] => numberOf a != numberOf b
  | [a, "-gt", b] => numberOf a > numberOf b
  | [a, "-lt", b] => numberOf a < numberOf b
  | [a, "-ge", b] => numberOf a ≥ numberOf b
  | [a, "-le", b] => numberOf a ≤ numberOf b
  | _ => false

def condition : Tool := fun args s => ending (if test args s then 0 else 1) s

def bracket : Tool := fun args s =>
  if args.getLast? == some "]" then condition args.dropLast s else ending 2 s

def ofShell : List (String × Tool) :=
  [(":", succeed), ("true", succeed), ("false", fail), ("echo", echo), ("printf", printf),
   ("kill", kill), ("exit", exit), ("test", condition), ("[", bracket)]

def programs : List (String × Tool) :=
  [("true", succeed), ("false", fail), ("echo", echoProgram), ("printf", printf), ("cat", cat),
   ("head", head), ("tr", tr), ("rm", rm), ("ls", ls), ("sed", sed), ("wc", wc),
   ("sleep", sleep), ("kill", kill), ("test", condition)]

end Tool
end DumpVault.Shell
