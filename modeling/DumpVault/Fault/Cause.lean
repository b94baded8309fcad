/-!
# Causes from elsewhere

An error that another library has raised is known by its text, which ends with the text of its own
source where it has one.
-/
namespace DumpVault

inductive Cause
  | plain (text : String)
  /-- The text of a source, behind some words. -/
  | behind (words : String) (source : Cause)
  deriving DecidableEq, Repr

namespace Cause

instance : Coe String Cause := ⟨plain⟩

def text : Cause → String
  | plain text => text
  | behind words source => words ++ source.text

/-- The texts of the successive sources. -/
def causes : Cause → List String
  | plain _ => []
  | behind _ source => source.text :: source.causes

end Cause
end DumpVault
