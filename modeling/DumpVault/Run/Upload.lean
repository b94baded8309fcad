import DumpVault.Run.Copy

/-!
# Uploading a staging file

The file is copied into a blob named by the time at which the upload begins. A key in use is
refused before anything is opened. The writer is ended once: aborted when cancellation wins, and
else finalized, even after a failed copy.
-/
namespace DumpVault

def uploadTarget (bucket : String) (key : Key) : String := s!"'{key.text}' in bucket '{bucket}'"

def finalizeWriter (w : Writer) (target : String) : Prog (Except Fault Unit) := do
  match ← Prog.ask (.finalize w) with
  | .ok _ => return .ok ()
  | .error source => return .error (.finalize s!"writer for {target}" source)

def abortWriter (w : Writer) (target : String) : Prog (Except Fault Unit) := do
  match ← Prog.ask (.abort w) with
  | .ok _ => return .ok ()
  | .error source => return .error (.finalize s!"aborted writer for {target}" source)

/-- Ends the writer as the end of the copy demands and gathers what went wrong. -/
def endUpload (w : Writer) (path target : String) (key : Key) : CopyEnd → Prog FirstFault
  | .copied bytes => do
    Prog.debug s!"copied {bytes} bytes into {key.text}"
    let ended ← finalizeWriter w target
    Prog.record .empty ended
  | .failed source => do
    let faults ← Prog.record .empty (.error (.copy path target source))
    let ended ← finalizeWriter w target
    Prog.record faults ended
  | .interrupted => do
    let faults ← Prog.record .empty (.error (.cancelled s!"uploading {target}"))
    let ended ← abortWriter w target
    Prog.record faults ended

def uploadFrom (bucket path : String) (key : Key) (file : Source) : Prog (Except Fault Key) := do
  Prog.info s!"uploading {path} to {bucket} as {key.text}"
  match ← Prog.ask (.openWriter key) with
  | .error fault => return .error fault
  | .ok w =>
    let copied ← copyInto w file
    let faults ← endUpload w path (uploadTarget bucket key) key copied
    match faults.finish key with
    | .error fault => return .error fault
    | .ok key =>
      Prog.info s!"stored archive {key.text} in {bucket}"
      return .ok key

/-- Stores a staging file under a key minted now. The key is returned only once the blob has been
finalized. -/
def upload (bucket path : String) : Prog (Except Fault Key) := do
  let key := Key.mint (← Prog.ask .now)
  match ← Prog.ask (.exists key) with
  | .error fault => return .error fault
  | .ok true => return .error (.objectExists bucket key.text)
  | .ok false =>
    match ← Prog.ask (.openFile path) with
    | .error source => return .error (.stagingRead path source)
    | .ok file => uploadFrom bucket path key file

end DumpVault
