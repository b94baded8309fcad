import DumpVault.Proofs.Course
import DumpVault.Run.Pipeline

/-!
# The courses of the pipelines

Every course of a pipeline goes through its stages in their order and ends at the first that fails.
`Dump.Course`, `Archiver.Course` and `Restorer.Course` list the courses step by step, so that a fact
about all of them is a case split.
-/
namespace DumpVault
open Prog

namespace Prog

variable {β : Type}

def Step.line (line : Line) : Step := ⟨.log line, ()⟩

theorem mem_logSteps {lines : List Line} {s : Step} :
    s ∈ logSteps lines ↔ ∃ line ∈ lines, s = .line line := by
  simp [logSteps, Step.line, eq_comm]

theorem yields_line_bind {line : Line} {f : Unit → Prog β} {steps : List Step} {b : β} :
    Yields (ask (.log line) >>= f) steps b ↔
      ∃ rest, steps = .line line :: rest ∧ Yields (f ()) rest b := by
  rw [yields_ask_bind]
  exact ⟨fun ⟨_, rest, h⟩ => ⟨rest, h⟩, fun ⟨rest, h⟩ => ⟨(), rest, h⟩⟩

end Prog

namespace Utility

/-- The line that announces a utility. -/
def announced (u : Utility) (args : List String) : Line :=
  ⟨.debug, s!"prepared {u.program} " ++ String.intercalate " " (u.prefixArgs ++ args)⟩

/-- How a utility that has been given up is put down. -/
inductive PutDown : List Step → Prop
  | unsignalled (fault : IoFault) : PutDown [⟨.kill, .error fault⟩,
      .line ⟨.warn, s!"unable to signal child process: {fault.text}"⟩]
  | unreaped (fault : IoFault) : PutDown [⟨.kill, .ok ()⟩, ⟨.reap, .error fault⟩,
      .line ⟨.warn, s!"unable to reap killed child process: {fault.text}"⟩]
  | reaped (status : ExitStatus) : PutDown [⟨.kill, .ok ()⟩, ⟨.reap, .ok status⟩]

theorem putDown_course {steps : List Step} (h : Yields putDown steps ()) : PutDown steps := by
  obtain ⟨killed, rest, rfl, hkilled⟩ := yields_ask_bind.mp h
  cases killed with
  | error fault =>
    obtain ⟨_, _, rfl, hend⟩ := yields_call.mp hkilled
    obtain ⟨rfl, _⟩ := yields_pure.mp hend
    exact .unsignalled fault
  | ok =>
    obtain ⟨reaped, rest, rfl, hreaped⟩ := yields_ask_bind.mp hkilled
    cases reaped with
    | error fault =>
      obtain ⟨_, _, rfl, hend⟩ := yields_call.mp hreaped
      obtain ⟨rfl, _⟩ := yields_pure.mp hend
      exact .unreaped fault
    | ok status =>
      obtain ⟨rfl, _⟩ := yields_pure.mp hreaped
      exact .reaped status

end Utility

namespace Dump

variable {d : Dump} {path : String} {steps : List Step}

def begun (d : Dump) (path : String) : Line :=
  ⟨.info, s!"dumping database {d.utility.database} on {d.utility.host} into {path}"⟩

def completed (d : Dump) : Line := ⟨.debug, s!"dump of {d.utility.database} complete"⟩

def retained (path : String) : Line := ⟨.warn, s!"staging file {path} retained for inspection"⟩

def command (d : Dump) (path : String) (password : Option Secret) : Command :=
  ⟨d.utility.program, d.utility.prefixArgs ++ args d.utility, password, .intoFile path⟩

/-- How the utility is started and how it comes to its end, with the fault that this makes of the
dump. -/
inductive Ends (d : Dump) (command : Command) : List Step → Option Fault → Prop
  | unstarted (fault : IoFault) :
      Ends d command [⟨.spawn command, .error fault⟩] (some (d.failure (.spawn fault)))
  | lost (captured : Bool) (fault : IoFault) :
      Ends d command [⟨.spawn command, .ok captured⟩, ⟨.wait, .failed fault⟩]
        (some (d.failure (.wait fault)))
  | failed (captured : Bool) (status : ExitStatus) (unsuccessful : status.isSuccess = false) :
      Ends d command [⟨.spawn command, .ok captured⟩, ⟨.wait, .exited status⟩]
        (some (d.failure (.exit status)))
  | overtaken (captured : Bool) {killing : List Step} (killed : Utility.PutDown killing) :
      Ends d command (⟨.spawn command, .ok captured⟩ :: ⟨.wait, .interrupted⟩ :: killing)
        (some (.cancelled s!"dumping database '{d.utility.database}'"))
  | succeeded (captured : Bool) (status : ExitStatus) (successful : status.isSuccess = true) :
      Ends d command [⟨.spawn command, .ok captured⟩, ⟨.wait, .exited status⟩] none

/-- The steps up to the utility's start. -/
def opening (d : Dump) (path : String) (password : Option Secret) : List Step :=
  [⟨.createStaging d.stagingDir, .ok path⟩, .line (d.begun path),
    ⟨.password d.utility.password, .ok password⟩, .line (d.utility.announced (args d.utility))]

inductive Course (d : Dump) : List Step → Except Fault String → Prop
  | uncreated (fault : IoFault) :
      Course d [⟨.createStaging d.stagingDir, .error fault⟩]
        (.error (.stagingCreate d.stagingDir fault))
  | refused (path : String) (fault : Fault) :
      Course d [⟨.createStaging d.stagingDir, .ok path⟩, .line (d.begun path),
        ⟨.password d.utility.password, .error fault⟩, .line (retained path)] (.error fault)
  | failed (path : String) (password : Option Secret) {utility : List Step} {fault : Fault}
      (ends : d.Ends (d.command path password) utility (some fault)) :
      Course d (d.opening path password ++ (utility ++ [.line (retained path)])) (.error fault)
  | dumped (path : String) (password : Option Secret) {utility : List Step}
      (ends : d.Ends (d.command path password) utility none) :
      Course d (d.opening path password ++ (utility ++ [.line d.completed])) (.ok path)

theorem leave_course {fault : Fault} {r : Except Fault String}
    (h : Yields (leave path fault) steps r) :
    steps = [.line (retained path)] ∧ r = .error fault := by
  obtain ⟨rest, rfl, hrest⟩ := yields_log_bind.mp h
  obtain ⟨rfl, rfl⟩ := yields_pure.mp hrest
  exact ⟨rfl, rfl⟩

/-- A utility that is run into a file ends in one of the ways, and the log says what this makes of
the file. -/
theorem runInto_course {password : Option Secret} {r : Except Fault String}
    (h : Yields (d.runInto path password) steps r) : ∃ utility fault,
      d.Ends (d.command path password) utility fault ∧
      steps = .line (d.utility.announced (args d.utility)) ::
        (utility ++ [.line (if fault.isSome then retained path else d.completed)]) ∧
      r = (match fault with
        | some fault => .error fault
        | none => .ok path) := by
  obtain ⟨_, rest, command, rfl, hprepare, hrun⟩ := yields_bind_iff.mp h
  obtain ⟨_, rfl, hcommand⟩ := yields_log_bind.mp hprepare
  obtain ⟨rfl, rfl⟩ := yields_pure.mp hcommand
  obtain ⟨spawned, rest, rfl, hspawned⟩ := yields_ask_bind.mp hrun
  cases spawned with
  | error fault =>
    obtain ⟨rfl, rfl⟩ := leave_course hspawned
    exact ⟨_, _, .unstarted fault, rfl, rfl⟩
  | ok captured =>
    obtain ⟨waited, rest, rfl, hwaited⟩ := yields_ask_bind.mp hspawned
    cases waited with
    | failed fault =>
      obtain ⟨rfl, rfl⟩ := leave_course hwaited
      exact ⟨_, _, .lost captured fault, rfl, rfl⟩
    | interrupted =>
      obtain ⟨killing, left, _, rfl, hkilling, hleft⟩ := yields_bind_iff.mp hwaited
      obtain ⟨rfl, rfl⟩ := leave_course hleft
      exact ⟨_, _, .overtaken captured (Utility.putDown_course hkilling), rfl, rfl⟩
    | exited status =>
      dsimp only at hwaited
      split at hwaited
      · next hsuccess =>
        obtain ⟨_, rfl, hdone⟩ := yields_log_bind.mp hwaited
        obtain ⟨rfl, rfl⟩ := yields_pure.mp hdone
        exact ⟨_, _, .succeeded captured status hsuccess, rfl, rfl⟩
      · next hfailure =>
        obtain ⟨rfl, rfl⟩ := leave_course hwaited
        exact ⟨_, _, .failed captured status (Bool.eq_false_iff.mpr hfailure), rfl, rfl⟩

theorem course_of_yields {r : Except Fault String} (h : Yields d.stage steps r) :
    d.Course steps r := by
  obtain ⟨created, rest, rfl, hcreated⟩ := yields_ask_bind.mp h
  cases created with
  | error fault =>
    obtain ⟨rfl, rfl⟩ := yields_pure.mp hcreated
    exact .uncreated fault
  | ok path =>
    obtain ⟨_, rfl, hbegun⟩ := yields_log_bind.mp hcreated
    obtain ⟨password, rest, rfl, hpassword⟩ := yields_ask_bind.mp hbegun
    cases password with
    | error fault =>
      obtain ⟨rfl, rfl⟩ := leave_course hpassword
      exact .refused path fault
    | ok password =>
      obtain ⟨utility, fault, hends, rfl, rfl⟩ := runInto_course hpassword
      cases fault with
      | none => exact .dumped path password hends
      | some fault => exact .failed path password hends

end Dump

namespace Restore
variable {u : Utility} {archive : Source} {fed : FeedEnd}

/-- What is made of the wait for a utility whose input has been closed. -/
def concluded (u : Utility) (fed : FeedEnd) : Waited → Prog (Except Fault Unit)
  | .interrupted => giveUp u
  | .exited status => settle u (exitResult u (.ok status)) fed
  | .failed fault => settle u (exitResult u (.error fault)) fed

/-- The end of a feed: the utility is waited for unless the feed has been interrupted. -/
def awaited (u : Utility) : FeedEnd → Prog (Except Fault Unit)
  | .interrupted => giveUp u
  | fed => ask .wait >>= concluded u fed

theorem awaited_eq (hfed : fed ≠ .interrupted) :
    awaited u fed = ask .wait >>= concluded u fed := by
  cases fed with
  | interrupted => exact absurd rfl hfed
  | fed | readFailed | writeFailed => rfl

theorem feed_eq : feed u archive =
    feedChunks archive.ending (archive.reads feedLimit) 0 >>= fun fed =>
      closing fed >>= awaited u := by
  refine bind_congr fun fed => bind_congr fun closed => ?_
  cases closed <;> rfl

end Restore

namespace Archiver

variable {a : Archiver} {steps : List Step}

/-- The steps by which an archive run begins to dump. -/
def toDump : List Step := [.line (passage .start .dumping), ⟨.isCancelled, false⟩]

/-- The steps by which an archive run goes on to upload. -/
def toUpload : List Step := [.line (passage .dumping .uploading), ⟨.isCancelled, false⟩]

def cutBefore (stage : Stage) : Fault :=
  (Fault.cancelled s!"starting the {stage.name} stage").inStage stage

/-- What becomes of a staging file whose content has been stored. -/
inductive CleanedUp (a : Archiver) (path : String) : List Step → Prop
  | retained (retain : a.retain = true) :
      CleanedUp a path [.line ⟨.info, s!"staging file {path} retained"⟩]
  | removed (retain : a.retain = false) : CleanedUp a path [⟨.removeFile path, .ok ()⟩]
  | unremoved (retain : a.retain = false) (fault : IoFault) :
      CleanedUp a path [⟨.removeFile path, .error fault⟩,
        .line ⟨.warn, s!"unable to remove staging file {path}: {fault.text}"⟩]

theorem cleanUp_course {path : String} (h : Yields (a.cleanUp path) steps ()) :
    a.CleanedUp path steps := by
  rw [cleanUp] at h
  split at h
  · next hretain =>
    obtain ⟨_, _, rfl, hend⟩ := yields_call.mp h
    obtain ⟨rfl, _⟩ := yields_pure.mp hend
    exact .retained hretain
  · next hretain =>
    have hretain : a.retain = false := Bool.eq_false_iff.mpr hretain
    obtain ⟨removed, rest, rfl, hremoved⟩ := yields_ask_bind.mp h
    cases removed with
    | ok =>
      obtain ⟨rfl, _⟩ := yields_pure.mp hremoved
      exact .removed hretain
    | error fault =>
      obtain ⟨_, _, rfl, hend⟩ := yields_call.mp hremoved
      obtain ⟨rfl, _⟩ := yields_pure.mp hend
      exact .unremoved hretain fault

inductive Course (a : Archiver) : List Step → Except Fault Key → Prop
  | cutBeforeDump :
      Course a [.line (passage .start .dumping), ⟨.isCancelled, true⟩,
        .line (passage .dumping .failed)] (.error (cutBefore .dump))
  | undumped {dump : List Step} {fault : Fault} (dumping : a.dump.Course dump (.error fault)) :
      Course a (toDump ++ (dump ++ [.line (passage .dumping .failed)]))
        (.error (fault.inStage .dump))
  | cutBeforeUpload {path : String} {dump : List Step} (dumping : a.dump.Course dump (.ok path)) :
      Course a (toDump ++ (dump ++ [.line (passage .dumping .uploading), ⟨.isCancelled, true⟩,
        .line (passage .uploading .failed)])) (.error (cutBefore .upload))
  | unstored {path : String} {dump copying : List Step} {fault : Fault}
      (dumping : a.dump.Course dump (.ok path))
      (uploading : Yields (upload a.bucket path) copying (.error fault)) :
      Course a (toDump ++ (dump ++ (toUpload ++ (copying ++ [.line (passage .uploading .failed)]))))
        (.error (fault.inStage .upload))
  | stored {path : String} {dump copying cleaning : List Step} {key : Key}
      (dumping : a.dump.Course dump (.ok path))
      (uploading : Yields (upload a.bucket path) copying (.ok key))
      (cleaned : a.CleanedUp path cleaning) :
      Course a (toDump ++ (dump ++ (toUpload ++ (copying ++
        (cleaning ++ [.line (passage .uploading .done)]))))) (.ok key)

/-- The last line of a run. -/
def lastLine (state : ArchiveState) : Except Fault Key → Line
  | .ok _ => passage state .done
  | .error _ => passage state .failed

theorem course_of_uploadStage {path : String} {dump : List Step} {state : ArchiveState}
    {r : Except Fault Key} (hdump : a.dump.Course dump (.ok path))
    (h : Yields (a.uploadStage path) steps (state, r)) :
    a.Course (toDump ++ (dump ++ (steps ++ [.line (lastLine state r)]))) r := by
  obtain ⟨rest, rfl, hpassed⟩ := yields_line_bind.mp h
  obtain ⟨_, _, entered, rfl, henter, hentered⟩ := yields_bind_iff.mp hpassed
  obtain ⟨cut, _, rfl, hcut⟩ := yields_ask_bind.mp henter
  cases cut with
  | true =>
    obtain ⟨rfl, rfl⟩ := yields_pure.mp hcut
    obtain ⟨rfl, hend⟩ := yields_pure.mp hentered
    obtain ⟨rfl, rfl⟩ := Prod.mk.inj hend
    exact .cutBeforeUpload hdump
  | false =>
    obtain ⟨rfl, rfl⟩ := yields_pure.mp hcut
    obtain ⟨copying, _, uploaded, rfl, hupload, hrest⟩ := yields_bind_iff.mp hentered
    cases uploaded with
    | error fault =>
      obtain ⟨rfl, hend⟩ := yields_pure.mp hrest
      obtain ⟨rfl, rfl⟩ := Prod.mk.inj hend
      simpa [toUpload, lastLine] using Course.unstored hdump hupload
    | ok key =>
      obtain ⟨cleaning, _, _, rfl, hclean, hlast⟩ := yields_bind_iff.mp hrest
      obtain ⟨rfl, hend⟩ := yields_pure.mp hlast
      obtain ⟨rfl, rfl⟩ := Prod.mk.inj hend
      simpa [toUpload, lastLine] using Course.stored hdump hupload (cleanUp_course hclean)

/-- Every course of an archive run is one of those listed. -/
theorem course_of_yields {r : Except Fault Key} (h : Yields a.run steps r) : a.Course steps r := by
  obtain ⟨_, _, ⟨state, result⟩, rfl, hstages, hlast⟩ := yields_bind_iff.mp h
  obtain ⟨rest, rfl, hend⟩ := yields_line_bind.mp hlast
  obtain ⟨rfl, rfl⟩ := yields_pure.mp hend
  rw [show passage state _ = lastLine state r by cases r <;> rfl]
  obtain ⟨rest, rfl, hpassed⟩ := yields_line_bind.mp hstages
  obtain ⟨_, _, entered, rfl, henter, hentered⟩ := yields_bind_iff.mp hpassed
  obtain ⟨cut, _, rfl, hcut⟩ := yields_ask_bind.mp henter
  cases cut with
  | true =>
    obtain ⟨rfl, rfl⟩ := yields_pure.mp hcut
    obtain ⟨rfl, hend⟩ := yields_pure.mp hentered
    obtain ⟨rfl, rfl⟩ := Prod.mk.inj hend
    exact .cutBeforeDump
  | false =>
    obtain ⟨rfl, rfl⟩ := yields_pure.mp hcut
    obtain ⟨dump, _, dumped, rfl, hdump, hrest⟩ := yields_bind_iff.mp hentered
    have hdump := Dump.course_of_yields hdump
    cases dumped with
    | error fault =>
      obtain ⟨rfl, hend⟩ := yields_pure.mp hrest
      obtain ⟨rfl, rfl⟩ := Prod.mk.inj hend
      simpa [toDump, lastLine] using Course.undumped hdump
    | ok path => simpa [toDump] using course_of_uploadStage hdump hrest

end Archiver

namespace Restorer

variable {r : Restorer} {key : Key} {steps : List Step}

/-- The steps by which a restore run begins to fetch. -/
def toFetch (r : Restorer) (key : Key) : List Step :=
  [.line (passage .start .fetching), ⟨.isCancelled, false⟩,
    .line ⟨.info, s!"fetching {key.text} from {r.bucket}"⟩]

/-- The steps by which a restore run goes on to restore. -/
def toRestore : List Step := [.line (passage .fetching .restoring), ⟨.isCancelled, false⟩]

def lastLine (state : RestoreState) : Except Fault Unit → Line
  | .ok _ => passage state .done
  | .error _ => passage state .failed

inductive Course (r : Restorer) (key : Key) : List Step → Except Fault Unit → Prop
  | cutBeforeFetch :
      Course r key [.line (passage .start .fetching), ⟨.isCancelled, true⟩,
        .line (passage .fetching .failed)] (.error (Archiver.cutBefore .fetch))
  | cutInFetch :
      Course r key (r.toFetch key ++ [⟨.pause, true⟩, .line (passage .fetching .failed)])
        (.error ((Fault.cancelled s!"opening '{key.text}' in bucket '{r.bucket}'").inStage .fetch))
  | unfetched (fault : Fault) :
      Course r key (r.toFetch key ++ [⟨.pause, false⟩, ⟨.openReader key, .error fault⟩,
        .line (passage .fetching .failed)]) (.error (fault.inStage .fetch))
  | cutBeforeRestore (archive : Source) :
      Course r key (r.toFetch key ++ [⟨.pause, false⟩, ⟨.openReader key, .ok archive⟩,
        .line (passage .fetching .restoring), ⟨.isCancelled, true⟩,
        .line (passage .restoring .failed)]) (.error (Archiver.cutBefore .restore))
  | applied (archive : Source) {applying : List Step} {result : Except Fault Unit}
      (yields : Yields (Restore.apply r.utility archive) applying result) :
      Course r key (r.toFetch key ++ (⟨.pause, false⟩ :: ⟨.openReader key, .ok archive⟩ ::
        (toRestore ++ (applying ++ [.line (lastLine .restoring result)])))) (tagged .restore result)

theorem course_of_restoreStage {archive : Source} {state : RestoreState}
    {result : Except Fault Unit} (h : Yields (r.restoreStage archive) steps (state, result)) :
    r.Course key (r.toFetch key ++ (⟨.pause, false⟩ :: ⟨.openReader key, .ok archive⟩ ::
      (steps ++ [.line (lastLine state result)]))) result := by
  obtain ⟨rest, rfl, hpassed⟩ := yields_line_bind.mp h
  obtain ⟨_, _, entered, rfl, henter, hentered⟩ := yields_bind_iff.mp hpassed
  obtain ⟨cut, _, rfl, hcut⟩ := yields_ask_bind.mp henter
  cases cut with
  | true =>
    obtain ⟨rfl, rfl⟩ := yields_pure.mp hcut
    obtain ⟨rfl, hend⟩ := yields_pure.mp hentered
    obtain ⟨rfl, rfl⟩ := Prod.mk.inj hend
    exact .cutBeforeRestore archive
  | false =>
    obtain ⟨rfl, rfl⟩ := yields_pure.mp hcut
    obtain ⟨applying, _, applied, rfl, happly, hrest⟩ := yields_bind_iff.mp hentered
    obtain ⟨rfl, hend⟩ := yields_pure.mp hrest
    obtain ⟨rfl, rfl⟩ := Prod.mk.inj hend
    have hcourse : r.Course key _ _ := .applied archive happly
    cases applied <;> simpa [toRestore, lastLine, tagged] using hcourse

/-- Every course of a restore run is one of those listed. -/
theorem course_of_yields {result : Except Fault Unit} (h : Yields (r.run key) steps result) :
    r.Course key steps result := by
  obtain ⟨_, _, ⟨state, result⟩, rfl, hstages, hlast⟩ := yields_bind_iff.mp h
  obtain ⟨rest, rfl, hend⟩ := yields_line_bind.mp hlast
  obtain ⟨rfl, rfl⟩ := yields_pure.mp hend
  rw [show passage state _ = lastLine state result by cases result <;> rfl]
  obtain ⟨rest, rfl, hpassed⟩ := yields_line_bind.mp hstages
  obtain ⟨_, _, entered, rfl, henter, hentered⟩ := yields_bind_iff.mp hpassed
  obtain ⟨cut, _, rfl, hcut⟩ := yields_ask_bind.mp henter
  cases cut with
  | true =>
    obtain ⟨rfl, rfl⟩ := yields_pure.mp hcut
    obtain ⟨rfl, hend⟩ := yields_pure.mp hentered
    obtain ⟨rfl, rfl⟩ := Prod.mk.inj hend
    exact .cutBeforeFetch
  | false =>
    obtain ⟨rfl, rfl⟩ := yields_pure.mp hcut
    obtain ⟨_, _, fetched, rfl, hfetch, hrest⟩ := yields_bind_iff.mp hentered
    obtain ⟨_, rfl, hpause⟩ := yields_log_bind.mp hfetch
    obtain ⟨paused, _, rfl, hpaused⟩ := yields_ask_bind.mp hpause
    cases paused with
    | true =>
      obtain ⟨rfl, rfl⟩ := yields_pure.mp hpaused
      obtain ⟨rfl, hend⟩ := yields_pure.mp hrest
      obtain ⟨rfl, rfl⟩ := Prod.mk.inj hend
      exact .cutInFetch
    | false =>
      obtain ⟨found, _, rfl, hfound⟩ := yields_call.mp hpaused
      obtain ⟨rfl, rfl⟩ := yields_pure.mp hfound
      cases fetched with
      | error fault =>
        obtain ⟨rfl, hend⟩ := yields_pure.mp hrest
        obtain ⟨rfl, rfl⟩ := Prod.mk.inj hend
        exact .unfetched fault
      | ok archive =>
        have hcourse : r.Course key _ result := course_of_restoreStage hrest
        simpa [toFetch, Step.line] using hcourse

end Restorer

/-- Answers that let every call succeed, or that have the run cancelled beforehand. -/
def obliging (cancelled : Bool) : Handler Unit := fun c s =>
  match c with
  | .log _ | .stall | .print _ => ((), s)
  | .isCancelled | .pause => (cancelled, s)
  | .now => (.epoch, s)
  | .temporaryDir => ("/tmp", s)
  | .password _ => (.ok none, s)
  | .createStaging _ => (.ok "/staged", s)
  | .openFile _ | .openReader _ => (.ok (.ofBytes ⟨#[68, 85, 77, 80]⟩), s)
  | .readFile _ => (.ok .empty, s)
  | .removeFile _ | .connect _ | .finalize _ | .abort _ | .closeInput | .kill => (.ok (), s)
  | .exists _ => (.ok false, s)
  | .openWriter _ => (.ok ⟨0⟩, s)
  | .list => (.ok [], s)
  | .write _ _ | .offer _ => (.accepted, s)
  | .spawn _ => (.ok true, s)
  | .wait => (.exited .success, s)
  | .reap => (.ok .success, s)

end DumpVault
