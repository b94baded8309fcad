import DumpVault.Run.Prog

/-!
# Fetching an archive

A blob is opened for reading unless the run has been cancelled already.
-/
namespace DumpVault

def fetch (bucket : String) (key : Key) : Prog (Except Fault Source) := do
  Prog.info s!"fetching {key.text} from {bucket}"
  if ← Prog.ask .pause then
    return .error (.cancelled s!"opening '{key.text}' in bucket '{bucket}'")
  Prog.ask (.openReader key)

end DumpVault
