import DumpVault.Text.Blank

/-!
# Log lines

Everything a run reports while it works is a line with a level. A setting names the least level
that is shown, or switches the log off.
-/
namespace DumpVault

inductive Level
  | debug | info | warn | error
  deriving DecidableEq, Repr, Inhabited

def Level.rank : Level → Nat
  | debug => 0
  | info => 1
  | warn => 2
  | error => 3

def Level.name : Level → String
  | debug => "debug"
  | info => "info"
  | warn => "warn"
  | error => "error"

structure Line where
  level : Level
  text : String
  deriving DecidableEq, Repr, Inhabited

namespace Log

def variableName : String := "ARCHIVIST_LOG"

inductive Setting
  | off
  | least (level : Level)
  | unknown
  deriving DecidableEq, Repr

/-- The meaning of a setting; without one, and for a blank one, the least level is `info`. -/
def Setting.read (value : Option String) : Setting :=
  match value.map Text.trim with
  | none | some "" | some "info" => .least .info
  | some "off" => .off
  | some "debug" => .least .debug
  | some "warn" => .least .warn
  | some "error" => .least .error
  | some _ => .unknown

def Setting.name : Setting → String
  | .off => "off"
  | .least level => level.name
  | .unknown => "unknown"

/-- The least level in force: an unknown setting counts as `info`, and `off` admits nothing. -/
def Setting.threshold? : Setting → Option Level
  | .off => none
  | .least level => some level
  | .unknown => some .info

def Setting.shown (s : Setting) (lines : List Line) : List Line :=
  match s.threshold? with
  | none => []
  | some bound => lines.filter fun line => bound.rank ≤ line.level.rank

def warning? (value : Option String) : Option String :=
  match Setting.read value with
  | .unknown =>
    let shown := value.getD ""
    some s!"Warning: Unknown {variableName} value '{shown}', using 'info'"
  | _ => none

end Log
end DumpVault
