/-!
# Exit statuses

How a process ended, as the 32-bit wait status of a POSIX system: by exiting with a code, by a
signal, perhaps with a core dump, or not at all (stopped, continued).
-/
namespace DumpVault

structure ExitStatus where
  raw : UInt32
  deriving DecidableEq, Repr

namespace ExitStatus

def signalNames : List (Nat × String) :=
  [(1, "SIGHUP"), (2, "SIGINT"), (3, "SIGQUIT"), (4, "SIGILL"), (5, "SIGTRAP"), (6, "SIGABRT"),
   (7, "SIGBUS"), (8, "SIGFPE"), (9, "SIGKILL"), (10, "SIGUSR1"), (11, "SIGSEGV"),
   (12, "SIGUSR2"), (13, "SIGPIPE"), (14, "SIGALRM"), (15, "SIGTERM"), (16, "SIGSTKFLT"),
   (17, "SIGCHLD"), (18, "SIGCONT"), (19, "SIGSTOP"), (20, "SIGTSTP"), (21, "SIGTTIN"),
   (22, "SIGTTOU"), (23, "SIGURG"), (24, "SIGXCPU"), (25, "SIGXFSZ"), (26, "SIGVTALRM"),
   (27, "SIGPROF"), (28, "SIGWINCH"), (29, "SIGIO"), (30, "SIGPWR"), (31, "SIGSYS")]

def ofCode (code : UInt8) : ExitStatus := ⟨code.toUInt32 <<< 8⟩

def ofSignal (signal : UInt8) : ExitStatus := ⟨signal.toUInt32⟩

def success : ExitStatus := ⟨0⟩

def isSuccess (s : ExitStatus) : Bool := s.raw == 0

def low (s : ExitStatus) : Nat := (s.raw &&& 0x7f).toNat

def second (s : ExitStatus) : Nat := (s.raw >>> 8 &&& 0xff).toNat

def code? (s : ExitStatus) : Option Nat := if s.low = 0 then some s.second else none

def signal? (s : ExitStatus) : Option Nat :=
  if 0 < s.low ∧ s.low < 0x7f then some s.low else none

def coreDumped (s : ExitStatus) : Bool := s.raw &&& 0x80 != 0

def stopSignal? (s : ExitStatus) : Option Nat :=
  if s.raw &&& 0xff == 0x7f then some s.second else none

def continued (s : ExitStatus) : Bool := s.raw == 0xffff

def signalText (signal : Nat) : String :=
  match signalNames.find? fun row => row.1 == signal with
  | some row => s!"{signal} ({row.2})"
  | none => toString signal

def hexText (n : Nat) : String := "0x" ++ String.ofList (Nat.toDigits 16 n)

def text (s : ExitStatus) : String :=
  match s.code? with
  | some code => s!"exit status: {code}"
  | none =>
    match s.signal? with
    | some signal =>
      "signal: " ++ signalText signal ++ (if s.coreDumped then " (core dumped)" else "")
    | none =>
      match s.stopSignal? with
      | some signal => "stopped (not terminated) by signal: " ++ signalText signal
      | none =>
        if s.continued then "continued (WIFCONTINUED)"
        else s!"unrecognised wait status: {s.raw.toInt32} " ++ hexText s.raw.toNat

example : (ofCode 3).text = "exit status: 3" := by decide +kernel
example : (ofSignal 9).text = "signal: 9 (SIGKILL)" := by decide +kernel

end ExitStatus
end DumpVault
