import DumpVault.Proofs.Passages
import DumpVault.Proofs.UploadWord

/-!
# The courses of a restore utility

An archive is offered to the utility chunk by chunk, then the input is closed and the utility waited
for. Of what fails on the way the first fault is returned, where a broken pipe comes behind the
utility's own failure. `Restore.Course` lists the courses, as `Dump.Course` does for a dump.
-/
namespace DumpVault
open Prog

/-- The steps in which a utility takes chunks. -/
def offered (chunks : List ByteArray) : List Step :=
  chunks.flatMap fun chunk => [⟨.pause, false⟩, ⟨.offer chunk, .accepted⟩]

namespace FeedEnd

/-- What the closing of the input makes of a feed. -/
def closed : FeedEnd → Except IoFault Unit → FeedEnd
  | fed _, .error fault => writeFailed fault
  | other, _ => other

/-- The faults behind a feed and the utility's end, in the order in which they count. -/
def faults (u : Utility) (exit : Option Fault) : FeedEnd → List Fault
  | fed _ => exit.toList
  | readFailed fault => Restore.feedFailure u fault :: exit.toList
  | writeFailed fault =>
    if fault.isBrokenPipe then exit.toList ++ [Restore.feedFailure u fault]
    else Restore.feedFailure u fault :: exit.toList
  | interrupted => []

def said (u : Utility) : FeedEnd → List Line
  | fed bytes => [⟨.debug, s!"fed {bytes} bytes to {u.program}"⟩]
  | _ => []

theorem closed_ne_interrupted {fed : FeedEnd} (h : fed ≠ interrupted)
    (reply : Except IoFault Unit) : fed.closed reply ≠ interrupted := by
  cases fed with
  | interrupted => exact absurd rfl h
  | fed | readFailed | writeFailed => cases reply <;> simp [closed]

end FeedEnd

/-- The steps by which chunks are fed, `total` bytes having gone before, and how this ends. -/
inductive Fed (ending : Ending) (total : Nat) (chunks : List ByteArray) :
    List Step → FeedEnd → Prop
  | whole (complete : ending = .complete) :
      Fed ending total chunks (offered chunks ++ [⟨.pause, false⟩])
        (.fed (total + (chunks.map ByteArray.size).sum))
  | readFailed (fault : IoFault) (broken : ending = .failed fault) :
      Fed ending total chunks (offered chunks ++ [⟨.pause, false⟩]) (.readFailed fault)
  | stalled (stays : ending = .stalled) :
      Fed ending total chunks (offered chunks ++ [⟨.pause, false⟩, ⟨.stall, ()⟩]) .interrupted
  | refused (done rest : List ByteArray) (chunk : ByteArray) (fault : IoFault)
      (cut : chunks = done ++ chunk :: rest) :
      Fed ending total chunks
        (offered done ++ [⟨.pause, false⟩, ⟨.offer chunk, .failed fault⟩]) (.writeFailed fault)
  | unfinished (done rest : List ByteArray) (chunk : ByteArray)
      (cut : chunks = done ++ chunk :: rest) :
      Fed ending total chunks
        (offered done ++ [⟨.pause, false⟩, ⟨.offer chunk, .interrupted⟩]) .interrupted
  | cancelled (done rest : List ByteArray) (cut : chunks = done ++ rest) :
      Fed ending total chunks (offered done ++ [⟨.pause, true⟩]) .interrupted

theorem Fed.cons {ending : Ending} {total : Nat} {chunk : ByteArray} {chunks : List ByteArray}
    {steps : List Step} {fed : FeedEnd} (h : Fed ending (total + chunk.size) chunks steps fed) :
    Fed ending total (chunk :: chunks)
      (⟨.pause, false⟩ :: ⟨.offer chunk, .accepted⟩ :: steps) fed := by
  cases h with
  | whole complete =>
    have hsum : total + chunk.size + (chunks.map ByteArray.size).sum =
        total + ((chunk :: chunks).map ByteArray.size).sum := by
      simp only [List.map_cons, List.sum_cons]
      omega
    rw [hsum]
    exact .whole complete
  | readFailed fault broken => exact .readFailed fault broken
  | stalled stays => exact .stalled stays
  | refused done rest last fault cut =>
    exact .refused (chunk :: done) rest last fault (by rw [cut, List.cons_append])
  | unfinished done rest last cut =>
    exact .unfinished (chunk :: done) rest last (by rw [cut, List.cons_append])
  | cancelled done rest cut => exact .cancelled (chunk :: done) rest (by rw [cut, List.cons_append])

/-- A call by which chunks are fed. -/
def Call.isFeeding : Call → Bool
  | .pause | .stall | .offer _ => true
  | _ => false

theorem Fed.feeding {ending : Ending} {total : Nat} {chunks : List ByteArray} {steps : List Step}
    {fed : FeedEnd} (h : Fed ending total chunks steps fed) :
    ∀ s ∈ steps, s.call.isFeeding = true := by
  have hoffered : ∀ done, ∀ s ∈ offered done, s.call.isFeeding = true := by
    intro done s hs
    simp only [offered, List.mem_flatMap, List.mem_cons, List.not_mem_nil, or_false] at hs
    obtain ⟨chunk, _, rfl | rfl⟩ := hs <;> rfl
  cases h <;> simpa [or_imp, forall_and, Call.isFeeding] using hoffered _

namespace Restore

variable {u : Utility} {archive : Source} {steps : List Step}

theorem feedChunks_course {ending : Ending} {chunks : List ByteArray} {total : Nat} {fed : FeedEnd}
    (h : Yields (feedChunks ending chunks total) steps fed) :
    Fed ending total chunks steps fed := by
  induction chunks generalizing total steps with
  | nil =>
    obtain ⟨cut, rest, rfl, hcut⟩ := yields_ask_bind.mp h
    cases cut with
    | true =>
      obtain ⟨rfl, rfl⟩ := yields_pure.mp hcut
      exact .cancelled [] [] rfl
    | false =>
      cases ending with
      | complete =>
        obtain ⟨rfl, rfl⟩ := yields_pure.mp hcut
        exact .whole rfl
      | failed fault =>
        obtain ⟨rfl, rfl⟩ := yields_pure.mp hcut
        exact .readFailed fault rfl
      | stalled =>
        obtain ⟨_, _, rfl, hend⟩ := yields_ask_bind.mp hcut
        obtain ⟨rfl, rfl⟩ := yields_pure.mp hend
        exact .stalled rfl
  | cons chunk chunks ih =>
    obtain ⟨cut, rest, rfl, hcut⟩ := yields_ask_bind.mp h
    cases cut with
    | true =>
      obtain ⟨rfl, rfl⟩ := yields_pure.mp hcut
      exact .cancelled [] _ rfl
    | false =>
      obtain ⟨taken, rest, rfl, htaken⟩ := yields_ask_bind.mp hcut
      cases taken with
      | accepted => exact (ih htaken).cons
      | failed fault =>
        obtain ⟨rfl, rfl⟩ := yields_pure.mp htaken
        exact .refused [] chunks chunk fault rfl
      | interrupted =>
        obtain ⟨rfl, rfl⟩ := yields_pure.mp htaken
        exact .unfinished [] chunks chunk rfl

/-- An interrupted feed leaves the input as it is; after any other the input is closed. -/
theorem closing_course {fed closed : FeedEnd} (h : Yields (closing fed) steps closed) :
    fed = .interrupted ∧ steps = [] ∧ closed = .interrupted ∨
      fed ≠ .interrupted ∧ ∃ reply, steps = [⟨.closeInput, reply⟩] ∧ closed = fed.closed reply := by
  cases fed with
  | interrupted =>
    obtain ⟨rfl, rfl⟩ := yields_pure.mp h
    exact .inl ⟨rfl, rfl, rfl⟩
  | fed | readFailed | writeFailed =>
    obtain ⟨reply, rest, rfl, hreply⟩ := yields_ask_bind.mp h
    cases reply <;> obtain ⟨rfl, rfl⟩ := yields_pure.mp hreply <;>
      exact .inr ⟨by simp, _, rfl, rfl⟩

/-- What the end of the utility makes of a restore. -/
def waitedFault? (u : Utility) : Waited → Option Fault
  | .exited status => if status.isSuccess then none else some (failure u (.exit status))
  | .failed fault => some (failure u (.wait fault))
  | .interrupted => none

theorem record_two_course {a b : Option Fault} {r : Except Fault Unit}
    (h : Yields (record .empty (outcome a) >>= fun first => record first (outcome b) >>=
      fun faults => (Pure.pure (faults.finish ()) : Prog (Except Fault Unit))) steps r) :
    steps = logSteps ((a.toList ++ b.toList).tail.map FirstFault.discarded) ∧
      r = outcome (a.toList ++ b.toList).head? := by
  obtain ⟨_, _, _, rfl, ha, hrest⟩ := yields_bind_iff.mp h
  obtain ⟨rfl, rfl⟩ := yields_record.mp ha
  obtain ⟨_, _, _, rfl, hb, hend⟩ := yields_bind_iff.mp hrest
  obtain ⟨rfl, rfl⟩ := yields_record.mp hb
  obtain ⟨rfl, rfl⟩ := yields_pure.mp hend
  cases a <;> cases b <;> exact ⟨rfl, rfl⟩

/-- Of the faults of a restore that came to its end the first is returned, and the others are
logged. -/
theorem settle_course {exit : Option Fault} {fed : FeedEnd} {r : Except Fault Unit}
    (hfed : fed ≠ .interrupted) (h : Yields (settle u (outcome exit) fed) steps r) :
    steps = logSteps (fed.said u ++ (fed.faults u exit).tail.map FirstFault.discarded) ∧
      r = outcome (fed.faults u exit).head? := by
  cases fed with
  | interrupted => exact absurd rfl hfed
  | fed bytes =>
    obtain ⟨_, rfl, hrest⟩ := yields_log_bind.mp h
    obtain ⟨_, _, _, rfl, hrecord, hend⟩ := yields_bind_iff.mp hrest
    obtain ⟨rfl, rfl⟩ := yields_record.mp hrecord
    obtain ⟨rfl, rfl⟩ := yields_pure.mp hend
    cases exit <;> exact ⟨rfl, rfl⟩
  | readFailed fault => exact record_two_course (a := some (feedFailure u fault)) h
  | writeFailed fault =>
    rw [settle] at h
    rw [FeedEnd.faults]
    split at h
    · next hpipe =>
      rw [if_pos hpipe]
      exact record_two_course (b := some (feedFailure u fault)) h
    · next hpipe =>
      rw [if_neg hpipe]
      exact record_two_course (a := some (feedFailure u fault)) h

def begun (u : Utility) : Line := ⟨.info, s!"restoring database {u.database} on {u.host}"⟩

def command (u : Utility) (password : Option Secret) : Command :=
  ⟨u.program, u.prefixArgs ++ args u, password, .fromPipe⟩

def uncaptured (u : Utility) : Fault :=
  failure u (.spawn (.described .other "stdin of the restore utility was not captured"))

def overtaken (u : Utility) : Fault := .cancelled s!"restoring database '{u.database}'"

/-- The steps up to the utility's start. -/
def opening (u : Utility) (password : Option Secret) : List Step :=
  [.line (begun u), ⟨.password u.password, .ok password⟩, .line (u.announced (args u))]

/-- How a started utility is fed and comes to its end, and what is returned. -/
inductive Feeding (u : Utility) (archive : Source) : List Step → Except Fault Unit → Prop
  | cutInFeed {feeding killing : List Step}
      (feed : Fed archive.ending 0 (archive.reads feedLimit) feeding .interrupted)
      (killed : Utility.PutDown killing) :
      Feeding u archive (feeding ++ killing) (.error (overtaken u))
  | cutInWait {feeding killing : List Step} {fed : FeedEnd} (closed : Except IoFault Unit)
      (feed : Fed archive.ending 0 (archive.reads feedLimit) feeding fed)
      (ended : fed ≠ .interrupted) (killed : Utility.PutDown killing) :
      Feeding u archive
        (feeding ++ (⟨.closeInput, closed⟩ :: ⟨.wait, .interrupted⟩ :: killing))
        (.error (overtaken u))
  | settled {feeding : List Step} {fed : FeedEnd} (closed : Except IoFault Unit) (waited : Waited)
      (feed : Fed archive.ending 0 (archive.reads feedLimit) feeding fed)
      (ended : fed ≠ .interrupted) (gone : waited ≠ .interrupted) :
      Feeding u archive
        (feeding ++ (⟨.closeInput, closed⟩ :: ⟨.wait, waited⟩ ::
          logSteps ((fed.closed closed).said u ++
            ((fed.closed closed).faults u (waitedFault? u waited)).tail.map FirstFault.discarded)))
        (outcome ((fed.closed closed).faults u (waitedFault? u waited)).head?)

inductive Course (u : Utility) (archive : Source) : List Step → Except Fault Unit → Prop
  | refused (fault : Fault) :
      Course u archive [.line (begun u), ⟨.password u.password, .error fault⟩] (.error fault)
  | unstarted (password : Option Secret) (fault : IoFault) :
      Course u archive (opening u password ++ [⟨.spawn (command u password), .error fault⟩])
        (.error (failure u (.spawn fault)))
  | uncaptured (password : Option Secret) {killing : List Step}
      (killed : Utility.PutDown killing) :
      Course u archive (opening u password ++ (⟨.spawn (command u password), .ok false⟩ :: killing))
        (.error (uncaptured u))
  | fed (password : Option Secret) {feeding : List Step} {result : Except Fault Unit}
      (feed : Feeding u archive feeding result) :
      Course u archive (opening u password ++ (⟨.spawn (command u password), .ok true⟩ :: feeding))
        result

theorem giveUp_course {r : Except Fault Unit} (h : Yields (giveUp u) steps r) :
    Utility.PutDown steps ∧ r = .error (overtaken u) := by
  obtain ⟨killing, _, _, rfl, hkilling, hend⟩ := yields_bind_iff.mp h
  obtain ⟨rfl, rfl⟩ := yields_pure.mp hend
  exact ⟨by simpa using Utility.putDown_course hkilling, rfl⟩

/-- The wait for the utility, after its input has been closed. -/
theorem wait_course {fed : FeedEnd} {r : Except Fault Unit} (hfed : fed ≠ .interrupted)
    (h : Yields (ask .wait >>= concluded u fed) steps r) :
    (∃ killing, Utility.PutDown killing ∧ steps = ⟨.wait, .interrupted⟩ :: killing ∧
      r = .error (overtaken u)) ∨
    ∃ waited, waited ≠ .interrupted ∧ steps = ⟨.wait, waited⟩ :: logSteps (fed.said u ++
        (fed.faults u (waitedFault? u waited)).tail.map FirstFault.discarded) ∧
      r = outcome (fed.faults u (waitedFault? u waited)).head? := by
  obtain ⟨waited, rest, rfl, hwaited⟩ := yields_ask_bind.mp h
  cases waited with
  | interrupted =>
    obtain ⟨hkilling, rfl⟩ := giveUp_course hwaited
    exact .inl ⟨rest, hkilling, rfl, rfl⟩
  | exited status =>
    have hexit : exitResult u (.ok status) = outcome (waitedFault? u (.exited status)) := by
      by_cases hsuccess : status.isSuccess = true <;>
        simp [exitResult, waitedFault?, outcome, hsuccess]
    rw [concluded, hexit] at hwaited
    obtain ⟨rfl, rfl⟩ := settle_course hfed hwaited
    exact .inr ⟨.exited status, by simp, rfl, rfl⟩
  | failed fault =>
    have hsettle : Yields (settle u (outcome (waitedFault? u (.failed fault))) fed) rest r :=
      hwaited
    obtain ⟨rfl, rfl⟩ := settle_course hfed hsettle
    exact .inr ⟨.failed fault, by simp, rfl, rfl⟩

theorem feeding_of_yields {r : Except Fault Unit} (h : Yields (feed u archive) steps r) :
    Feeding u archive steps r := by
  rw [feed_eq] at h
  obtain ⟨feeding, _, fed, rfl, hfeed, hrest⟩ := yields_bind_iff.mp h
  obtain ⟨closing, rest, closed, rfl, hclose, hend⟩ := yields_bind_iff.mp hrest
  have hfed := feedChunks_course hfeed
  obtain ⟨rfl, rfl, rfl⟩ | ⟨hne, reply, rfl, rfl⟩ := closing_course hclose
  · obtain ⟨hkilling, rfl⟩ := giveUp_course hend
    exact .cutInFeed hfed hkilling
  · have hclosed := FeedEnd.closed_ne_interrupted hne reply
    rw [awaited_eq hclosed] at hend
    obtain ⟨killing, hkilling, rfl, rfl⟩ | ⟨waited, hwaited, rfl, rfl⟩ := wait_course hclosed hend
    · exact .cutInWait reply hfed hne hkilling
    · exact .settled reply waited hfed hne hwaited

/-- Every course of a restore utility is one of those listed. -/
theorem course_of_yields {r : Except Fault Unit} (h : Yields (apply u archive) steps r) :
    Course u archive steps r := by
  obtain ⟨_, rfl, hbegun⟩ := yields_log_bind.mp h
  obtain ⟨password, _, rfl, hpassword⟩ := yields_ask_bind.mp hbegun
  cases password with
  | error fault =>
    obtain ⟨rfl, rfl⟩ := yields_pure.mp hpassword
    exact .refused fault
  | ok password =>
    obtain ⟨_, _, command, rfl, hprepare, hrun⟩ := yields_bind_iff.mp hpassword
    obtain ⟨_, rfl, hcommand⟩ := yields_log_bind.mp hprepare
    obtain ⟨rfl, rfl⟩ := yields_pure.mp hcommand
    obtain ⟨spawned, _, rfl, hspawned⟩ := yields_ask_bind.mp hrun
    match spawned with
    | .error fault =>
      obtain ⟨rfl, rfl⟩ := yields_pure.mp hspawned
      exact .unstarted password fault
    | .ok false =>
      obtain ⟨killing, _, _, rfl, hkilling, hend⟩ := yields_bind_iff.mp hspawned
      obtain ⟨rfl, rfl⟩ := yields_pure.mp hend
      exact .uncaptured password (by simpa using Utility.putDown_course hkilling)
    | .ok true => exact .fed password (feeding_of_yields hspawned)

end Restore
end DumpVault
