import DumpVault.Proofs.Handed
import DumpVault.Proofs.OwnFaults

/-!
# What a restore reports

What the utility has been handed is at every moment a first part of the archive. A restore succeeds
only if all of the archive went in and the utility came to a good end. Else its fault is that of the
reading, of the utility's input or of the utility itself, by fixed ranks: a failed read comes first,
and a broken pipe comes last.
-/
namespace DumpVault
open Prog

def Prog.Step.taken? : Step → Option ByteArray
  | ⟨.offer chunk, .accepted⟩ => some chunk
  | _ => none

/-- The chunks that the utility's input has accepted, in their order. -/
def taken (steps : List Step) : List ByteArray := steps.filterMap Step.taken?

/-- The utility was started, and its input was captured. -/
def Started (steps : List Step) : Prop := ∃ command, ⟨.spawn command, .ok true⟩ ∈ steps

/-- Cancellation has won. -/
def Overtaken (steps : List Step) : Prop := ∃ s ∈ steps, s.showsCancelled = true

/-- The utility's input has not accepted a chunk. -/
def Rejects (steps : List Step) (fault : IoFault) : Prop :=
  ∃ chunk, ⟨.offer chunk, .failed fault⟩ ∈ steps

/-- The utility was left to come to its end. -/
def Uncut (steps : List Step) : Prop := Started steps ∧ ¬ Overtaken steps

/-- The faults of the provider are those of the sources of a password. -/
def Provided (steps : List Step) : Prop :=
  ∀ source fault, ⟨.password source, .error fault⟩ ∈ steps →
    ∃ environment files cwd, source.password environment files cwd = .error fault

/-- The archive was read up to where reading it fails. -/
def Source.Fails (archive : Source) (steps : List Step) (fault : IoFault) : Prop :=
  archive.ending = .failed fault ∧ ∀ other, ¬ Rejects steps other

/-- The utility's input failed: it rejected a chunk, or could not be closed behind all of them. -/
def InputFails (archive : Source) (steps : List Step) (fault : IoFault) : Prop :=
  Rejects steps fault ∨ archive.ending = .complete ∧ (∀ other, ¬ Rejects steps other) ∧
    ⟨.closeInput, .error fault⟩ ∈ steps

/-- The archive was read to its end, and the utility's input took in all of it and then its end. -/
def FedWhole (archive : Source) (steps : List Step) : Prop :=
  archive.ending = .complete ∧ joined (taken steps) = archive.bytes ∧
    ⟨.closeInput, .ok ()⟩ ∈ steps

section Shown
variable {steps more : List Step} {s : Step} {lines : List Line} {chunks : List ByteArray}
  {fault : IoFault}

@[simp] theorem taken_nil : taken [] = [] := rfl

@[simp] theorem taken_append : taken (steps ++ more) = taken steps ++ taken more :=
  List.filterMap_append

theorem taken_cons : taken (s :: steps) = s.taken?.toList ++ taken steps := by
  cases h : s.taken? <;> simp [taken, h]

@[simp] theorem overtaken_nil : ¬ Overtaken [] := by simp [Overtaken]

@[simp] theorem overtaken_append : Overtaken (steps ++ more) ↔ Overtaken steps ∨ Overtaken more := by
  simp [Overtaken, or_and_right, exists_or]

@[simp] theorem overtaken_cons :
    Overtaken (s :: steps) ↔ s.showsCancelled = true ∨ Overtaken steps := by
  simp [Overtaken]

@[simp] theorem showsCancelled_line (line : Line) : (Step.line line).showsCancelled = false := rfl

@[simp] theorem showsCancelled_password {source : SecretSource}
    {reply : Except Fault (Option Secret)} :
    (⟨.password source, reply⟩ : Step).showsCancelled = false := rfl

@[simp] theorem showsCancelled_spawn {command : Command} {reply : Except IoFault Bool} :
    (⟨.spawn command, reply⟩ : Step).showsCancelled = false := rfl

@[simp] theorem showsCancelled_pause {cut : Bool} :
    (⟨.pause, cut⟩ : Step).showsCancelled = cut := by
  cases cut <;> rfl

@[simp] theorem showsCancelled_stall {reply : Unit} :
    (⟨.stall, reply⟩ : Step).showsCancelled = true := rfl

@[simp] theorem showsCancelled_offer {chunk : ByteArray} {reply : Taken} :
    (⟨.offer chunk, reply⟩ : Step).showsCancelled = true ↔ reply = .interrupted := by
  cases reply <;> simp [Step.showsCancelled, Step.isInterruption]

@[simp] theorem showsCancelled_closeInput {reply : Except IoFault Unit} :
    (⟨.closeInput, reply⟩ : Step).showsCancelled = false := rfl

@[simp] theorem showsCancelled_wait {reply : Waited} :
    (⟨.wait, reply⟩ : Step).showsCancelled = true ↔ reply = .interrupted := by
  cases reply <;> simp [Step.showsCancelled, Step.isInterruption]

@[simp] theorem showsCancelled_kill {reply : Except IoFault Unit} :
    (⟨.kill, reply⟩ : Step).showsCancelled = false := rfl

@[simp] theorem showsCancelled_reap {reply : Except IoFault ExitStatus} :
    (⟨.reap, reply⟩ : Step).showsCancelled = false := rfl

@[simp] theorem rejects_nil : ¬ Rejects [] fault := by simp [Rejects]

@[simp] theorem rejects_append :
    Rejects (steps ++ more) fault ↔ Rejects steps fault ∨ Rejects more fault := by
  simp [Rejects, exists_or]

@[simp] theorem rejects_cons : Rejects (s :: steps) fault ↔
    (∃ chunk, s = ⟨.offer chunk, .failed fault⟩) ∨ Rejects steps fault := by
  simp [Rejects, exists_or, eq_comm]

@[simp] theorem taken_logSteps : taken (logSteps lines) = [] := by
  rw [taken, List.filterMap_eq_nil_iff]
  rintro _ hs
  obtain ⟨line, _, rfl⟩ := mem_logSteps.mp hs
  rfl

@[simp] theorem not_overtaken_logSteps : ¬ Overtaken (logSteps lines) := by
  rintro ⟨_, hs, hcut⟩
  obtain ⟨line, _, rfl⟩ := mem_logSteps.mp hs
  cases hcut

@[simp] theorem not_rejects_logSteps : ¬ Rejects (logSteps lines) fault := by
  simp [Rejects, mem_logSteps, Step.line]

@[simp] theorem taken_offered : taken (offered chunks) = chunks := by
  induction chunks with
  | nil => rfl
  | cons chunk chunks ih =>
    have hsteps : offered (chunk :: chunks) =
        ⟨.pause, false⟩ :: ⟨.offer chunk, .accepted⟩ :: offered chunks := rfl
    rw [hsteps, taken_cons, taken_cons, ih]
    rfl

@[simp] theorem not_overtaken_offered : ¬ Overtaken (offered chunks) := by
  rintro ⟨s, hs, hcut⟩
  simp only [offered, List.mem_flatMap, List.mem_cons, List.not_mem_nil, or_false] at hs
  obtain ⟨chunk, _, rfl | rfl⟩ := hs <;> cases hcut

@[simp] theorem not_rejects_offered : ¬ Rejects (offered chunks) fault := by
  simp [Rejects, offered]

end Shown

section Feeds
variable {ending : Ending} {total : Nat} {chunks : List ByteArray} {steps : List Step} {fed : FeedEnd}
  {fault : IoFault}

theorem Fed.overtaken_iff (h : Fed ending total chunks steps fed) :
    Overtaken steps ↔ fed = .interrupted := by
  cases h <;> simp

theorem Fed.rejects_iff (h : Fed ending total chunks steps fed) :
    Rejects steps fault ↔ fed = .writeFailed fault := by
  cases h <;> simp [eq_comm]

/-- What a feed that came to its end says of the archive, of which `bytes` were accepted. -/
inductive Reached (archive : Source) (bytes : ByteArray) : FeedEnd → Prop
  | whole (n : Nat) (complete : archive.ending = .complete) (all : bytes = archive.bytes) :
      Reached archive bytes (.fed n)
  | broken (fault : IoFault) (failed : archive.ending = .failed fault) :
      Reached archive bytes (.readFailed fault)
  | short (fault : IoFault) (part : bytes ≠ archive.bytes) : Reached archive bytes (.writeFailed fault)

theorem Fed.reached {archive : Source}
    (h : Fed archive.ending total (archive.reads feedLimit) steps fed) (hfed : fed ≠ .interrupted) :
    Reached archive (joined (taken steps)) fed := by
  have hall : joined (archive.reads feedLimit) = archive.bytes := joined_reads (by decide) archive
  cases h with
  | whole complete => exact .whole _ complete (by simpa [taken_cons, Step.taken?] using hall)
  | readFailed fault broken => exact .broken fault broken
  | refused done rest chunk fault cut =>
    refine .short fault fun heq => ?_
    have hchunk := (size_of_mem_reads (cut ▸ by simp : chunk ∈ archive.reads feedLimit)).1
    rw [← hall, cut] at heq
    have hsize := congrArg ByteArray.size heq
    obtain ⟨rfl, _⟩ : chunk = .empty ∧ joined rest = .empty := by
      simpa [taken_cons, Step.taken?] using hsize
    exact absurd hchunk (by simp)
  | stalled | unfinished | cancelled => exact absurd rfl hfed

end Feeds

namespace Restore

variable {u : Utility} {archive : Source} {steps : List Step} {r : Except Fault Unit}

/-- What decides the result of a restore whose utility was started and which cancellation did not
cut off. -/
structure Settled (u : Utility) (archive : Source) (steps : List Step) (fed : FeedEnd)
    (closed : Except IoFault Unit) (waited : Waited) (r : Except Fault Unit) : Prop where
  reached : Reached archive (joined (taken steps)) fed
  rejects : ∀ fault, Rejects steps fault ↔ fed = .writeFailed fault
  closes : ∀ reply, ⟨.closeInput, reply⟩ ∈ steps ↔ reply = closed
  waits : ∀ reply, ⟨.wait, reply⟩ ∈ steps ↔ reply = waited
  gone : waited ≠ .interrupted
  result : r = outcome ((fed.closed closed).faults u (waitedFault? u waited)).head?

/-- The ends of a restore, as far as they decide its result. -/
inductive Ended (u : Utility) (archive : Source) (steps : List Step) : Except Fault Unit → Prop
  | refused (fault : Fault) (idle : ¬ Started steps) (undisturbed : ¬ Overtaken steps)
      (shown : ⟨.password u.password, .error fault⟩ ∈ steps) :
      Ended u archive steps (.error fault)
  | unstarted (command : Command) (fault : IoFault) (idle : ¬ Started steps)
      (undisturbed : ¬ Overtaken steps) (shown : ⟨.spawn command, .error fault⟩ ∈ steps) :
      Ended u archive steps (.error (failure u (.spawn fault)))
  | uncaptured (command : Command) (idle : ¬ Started steps) (undisturbed : ¬ Overtaken steps)
      (shown : ⟨.spawn command, .ok false⟩ ∈ steps) :
      Ended u archive steps (.error (uncaptured u))
  | overtaken (started : Started steps) (cut : Overtaken steps) :
      Ended u archive steps (.error (overtaken u))
  | settled (password : Option Secret) (known : ⟨.password u.password, .ok password⟩ ∈ steps)
      (started : Started steps) (undisturbed : ¬ Overtaken steps) {fed : FeedEnd}
      {closed : Except IoFault Unit} {waited : Waited} {r : Except Fault Unit}
      (settled : Settled u archive steps fed closed waited r) : Ended u archive steps r

theorem not_overtaken_putDown {killing : List Step} (h : Utility.PutDown killing) :
    ¬ Overtaken killing := by
  cases h <;> simp

@[simp] theorem not_overtaken_opening {password : Option Secret} :
    ¬ Overtaken (opening u password) := by
  simp [opening]

theorem Feeding.ended {password : Option Secret} {feeding : List Step}
    (h : Feeding u archive feeding r) : Ended u archive
      (opening u password ++ (⟨.spawn (command u password), .ok true⟩ :: feeding)) r := by
  have hstarted : ∀ rest, Started
      (opening u password ++ (⟨.spawn (command u password), .ok true⟩ :: rest)) :=
    fun rest => ⟨command u password, by simp⟩
  cases h with
  | cutInFeed feed killed => exact .overtaken (hstarted _) (by simp [feed.overtaken_iff])
  | cutInWait closed feed ended killed => exact .overtaken (hstarted _) (by simp)
  | @settled feeding fed closed waited feed ended gone =>
    -- closing and waiting are not feeding
    have hapart : ∀ {c : Call} {reply : Reply c}, c.isFeeding = false → ⟨c, reply⟩ ∉ feeding :=
      fun hc hmem => Bool.false_ne_true (hc.symm.trans (feed.feeding _ hmem))
    refine .settled password (by simp [opening]) (hstarted _) ?_
      (⟨?_, fun fault => ?_, fun reply => ?_, fun reply => ?_, gone, rfl⟩ :
        Settled u archive _ fed closed waited _)
    · simp [feed.overtaken_iff, ended, gone]
    · simpa [opening, Step.line, taken_cons, Step.taken?] using feed.reached ended
    · simp [opening, Step.line, feed.rejects_iff]
    · simp [opening, Step.line, mem_logSteps, hapart (c := .closeInput) rfl]
    · simp [opening, Step.line, mem_logSteps, hapart (c := .wait) rfl]

theorem Course.ended (h : Course u archive steps r) : Ended u archive steps r := by
  cases h with
  | refused fault =>
    exact .refused fault (by simp [Started, Step.line]) (by simp) (by simp)
  | unstarted password fault =>
    exact .unstarted (command u password) fault (by simp [Started, opening, Step.line]) (by simp)
      (by simp)
  | uncaptured password killed =>
    refine .uncaptured (command u password) ?_ (by simp [not_overtaken_putDown killed]) (by simp)
    cases killed <;> simp [Started, opening, Step.line]
  | fed password feed => exact feed.ended

/-- Who lets the utility come to its end does not report a cancellation. -/
theorem isCancelled_of_outcome {fed : FeedEnd} {waited : Waited} {own : Fault}
    (h : outcome (fed.faults u (waitedFault? u waited)).head? = .error own) :
    own.isCancelled = false := by
  have hmem : own ∈ fed.faults u (waitedFault? u waited) := by
    refine List.mem_of_mem_head? ?_
    revert h
    cases (fed.faults u (waitedFault? u waited)).head? <;> simp [outcome]
  obtain hexit | ⟨source, rfl, _⟩ := mem_faults hmem
  · revert hexit
    cases waited with
    | interrupted => simp [waitedFault?]
    | failed fault => rintro ⟨⟩; rfl
    | exited status =>
      rw [waitedFault?]
      split
      · simp
      · rintro ⟨⟩; rfl
  · rfl

namespace Settled
variable {fed : FeedEnd} {closed : Except IoFault Unit} {waited : Waited} {fault : IoFault}

theorem fails_iff (h : Settled u archive steps fed closed waited r) :
    archive.Fails steps fault ↔ fed = .readFailed fault := by
  have hrejects := h.rejects
  constructor
  · rintro ⟨hending, hnone⟩
    cases h.reached with
    | whole n complete => exact absurd (complete.symm.trans hending) (by simp)
    | broken other failed =>
      obtain rfl : other = fault := by simpa using failed.symm.trans hending
      rfl
    | short other => exact absurd ((hrejects other).mpr rfl) (hnone other)
  · rintro rfl
    cases h.reached with
    | broken _ failed => exact ⟨failed, fun other => by simp [hrejects]⟩

theorem inputFails_iff (h : Settled u archive steps fed closed waited r) :
    InputFails archive steps fault ↔ fed.closed closed = .writeFailed fault := by
  rw [InputFails, h.rejects fault, h.closes]
  cases h.reached with
  | whole n complete =>
    cases closed <;> simp [complete, h.rejects, FeedEnd.closed, eq_comm]
  | broken other failed => simp [failed, FeedEnd.closed]
  | short other => simp [h.rejects, FeedEnd.closed]

theorem fedWhole_iff (h : Settled u archive steps fed closed waited r) :
    FedWhole archive steps ↔ ∃ n, fed.closed closed = .fed n := by
  rw [FedWhole, h.closes]
  cases h.reached with
  | whole n complete all =>
    cases closed <;> simp [complete, all, FeedEnd.closed]
  | broken other failed => simp [failed, FeedEnd.closed]
  | short other part => simp [part, FeedEnd.closed]

/-- The archive, the utility's input and neither of them: a feed ends in one of three ways. -/
theorem cells (h : Settled u archive steps fed closed waited r) :
    (∃ fault, archive.Fails steps fault) ∨ (∃ fault, InputFails archive steps fault) ∨
      FedWhole archive steps := by
  simp only [h.fails_iff, h.inputFails_iff, h.fedWhole_iff]
  cases h.reached <;> cases closed <;> simp [FeedEnd.closed]

theorem result_of_fails (h : Settled u archive steps fed closed waited r)
    (hfails : archive.Fails steps fault) : r = .error (feedFailure u fault) := by
  obtain rfl := h.fails_iff.mp hfails
  rw [h.result]
  rfl

theorem result_of_inputFails (h : Settled u archive steps fed closed waited r)
    (hfails : InputFails archive steps fault) : r = .error
      (if fault.isBrokenPipe then (waitedFault? u waited).getD (feedFailure u fault)
       else feedFailure u fault) := by
  rw [h.result, h.inputFails_iff.mp hfails, FeedEnd.faults]
  split
  · cases waitedFault? u waited <;> rfl
  · rfl

theorem result_of_fedWhole (h : Settled u archive steps fed closed waited r)
    (hwhole : FedWhole archive steps) : r = outcome (waitedFault? u waited) := by
  obtain ⟨n, hn⟩ := h.fedWhole_iff.mp hwhole
  rw [h.result, hn, FeedEnd.faults, Option.head?_toList]

/-- A restore that was left to its end succeeds if the utility took in everything and ended well. -/
theorem result_eq_ok_iff (h : Settled u archive steps fed closed waited r) :
    r = .ok () ↔ FedWhole archive steps ∧
      ∃ status, ⟨.wait, .exited status⟩ ∈ steps ∧ status.isSuccess = true := by
  have hexit : outcome (waitedFault? u waited) = .ok () ↔
      ∃ status, ⟨.wait, .exited status⟩ ∈ steps ∧ status.isSuccess = true := by
    simp only [h.waits]
    cases hwaited : waited with
    | interrupted => exact absurd hwaited h.gone
    | failed fault => simp [waitedFault?, outcome]
    | exited status => cases hsuccess : status.isSuccess <;> simp [waitedFault?, outcome, hsuccess]
  constructor
  · intro hok
    obtain ⟨fault, hfails⟩ | ⟨fault, hfails⟩ | hwhole := h.cells
    · exact absurd (hok.symm.trans (h.result_of_fails hfails)) (by simp)
    · exact absurd (hok.symm.trans (h.result_of_inputFails hfails)) (by simp)
    · exact ⟨hwhole, hexit.mp ((h.result_of_fedWhole hwhole).symm.trans hok)⟩
  · rintro ⟨hwhole, hstatus⟩
    rw [h.result_of_fedWhole hwhole, hexit.mpr hstatus]

theorem isCancelled_eq_false (h : Settled u archive steps fed closed waited r) {own : Fault}
    (hr : r = .error own) : own.isCancelled = false :=
  isCancelled_of_outcome (h.result.symm.trans hr)

end Settled

end Restore

theorem SecretSource.password_fault {source : SecretSource} {environment : Environment}
    {files : FileTree} {cwd : Location} {fault : Fault}
    (h : source.password environment files cwd = .error fault) :
    ∃ path cause, fault = .secret path cause := by
  cases source with
  | env | absent => cases h
  | file path =>
    rw [password] at h
    split at h
    · cases h
    · next cause _ => exact ⟨path, cause, (Except.error.inj h).symm⟩

/-- A fault from before the utility was started: that of the password's provider, or that of the
start. -/
inductive Halts (u : Utility) (steps : List Step) : Except Fault Unit → Prop
  | refused (fault : Fault) (shown : ⟨.password u.password, .error fault⟩ ∈ steps) :
      Halts u steps (.error fault)
  | unstarted (command : Command) (fault : IoFault) (shown : ⟨.spawn command, .error fault⟩ ∈ steps) :
      Halts u steps (.error (Restore.failure u (.spawn fault)))
  | uncaptured (command : Command) (shown : ⟨.spawn command, .ok false⟩ ∈ steps) :
      Halts u steps (.error (Restore.uncaptured u))

/-- What the steps of a restore say about its result. -/
structure Verdict (u : Utility) (archive : Source) (steps : List Step)
    (result : Except Fault Unit) : Prop where
  /-- At every moment the utility has been handed a first part of the archive. -/
  handed : ∀ {before after : List Step} {held : ByteArray}, steps = before ++ after →
    Along Takes .empty before held → ∃ rest, held ++ rest = archive.bytes
  succeeded_iff : result = .ok () ↔ (∃ password, ⟨.password u.password, .ok password⟩ ∈ steps) ∧
    Uncut steps ∧ FedWhole archive steps ∧
      ∃ status, ⟨.wait, .exited status⟩ ∈ steps ∧ status.isSuccess = true
  halted : ¬ Started steps → ¬ Overtaken steps ∧ Halts u steps result
  secret : Provided steps → ∀ {fault}, ⟨.password u.password, .error fault⟩ ∈ steps →
    ∃ path cause, fault = .secret path cause
  cancelled : Overtaken steps → result = .error (Restore.overtaken u)
  cancelled_iff : Provided steps →
    ((∃ fault, result = .error fault ∧ fault.isCancelled = true) ↔ Overtaken steps)
  waited : Uncut steps →
    ∃ waited, waited ≠ .interrupted ∧ ∀ reply, ⟨.wait, reply⟩ ∈ steps ↔ reply = waited
  cells : Uncut steps → (∃ fault, archive.Fails steps fault) ∨
    (∃ fault, InputFails archive steps fault) ∨ FedWhole archive steps
  unread : Uncut steps → ∀ {fault}, archive.Fails steps fault →
    result = .error (Restore.feedFailure u fault)
  rejected : Uncut steps → ∀ {fault}, InputFails archive steps fault →
    fault.isBrokenPipe = false → result = .error (Restore.feedFailure u fault)
  brokenPipe : Uncut steps → ∀ {fault waited}, InputFails archive steps fault →
    fault.isBrokenPipe = true → ⟨.wait, waited⟩ ∈ steps →
    result = .error ((Restore.waitedFault? u waited).getD (Restore.feedFailure u fault))
  whole : Uncut steps → ∀ {waited}, FedWhole archive steps → ⟨.wait, waited⟩ ∈ steps →
    result = outcome (Restore.waitedFault? u waited)

section Verdict
variable {u : Utility} {archive : Source} {steps : List Step} {result : Except Fault Unit}

theorem Provided.secret (h : Provided steps) {source : SecretSource} {fault : Fault}
    (hmem : ⟨.password source, .error fault⟩ ∈ steps) : ∃ path cause, fault = .secret path cause := by
  obtain ⟨_, _, _, hfault⟩ := h _ _ hmem
  exact SecretSource.password_fault hfault

theorem Halts.ne_ok (h : Halts u steps result) : result ≠ .ok () := by
  cases h <;> simp

theorem Halts.isCancelled_eq_false (hprovided : Provided steps) {fault : Fault}
    (h : Halts u steps (.error fault)) : fault.isCancelled = false := by
  cases h with
  | refused _ shown =>
    obtain ⟨path, cause, rfl⟩ := hprovided.secret shown
    rfl
  | unstarted | uncaptured => rfl

/-- A restore that was not left to its end: nothing is to be said of the feed. -/
theorem Verdict.of_cut (hcut : ¬ Uncut steps) (hfails : result ≠ .ok ())
    (handed : ∀ {before after : List Step} {held : ByteArray}, steps = before ++ after →
      Along Takes .empty before held → ∃ rest, held ++ rest = archive.bytes)
    (halted : ¬ Started steps → ¬ Overtaken steps ∧ Halts u steps result)
    (cancelled : Overtaken steps → result = .error (Restore.overtaken u))
    (cancelled_iff : Provided steps →
      ((∃ fault, result = .error fault ∧ fault.isCancelled = true) ↔ Overtaken steps)) :
    Verdict u archive steps result where
  handed := handed
  succeeded_iff := by simp [hfails, hcut]
  halted := halted
  secret := fun hprovided => hprovided.secret
  cancelled := cancelled
  cancelled_iff := cancelled_iff
  waited := fun huncut => absurd huncut hcut
  cells := fun huncut => absurd huncut hcut
  unread := fun huncut => absurd huncut hcut
  rejected := fun huncut => absurd huncut hcut
  brokenPipe := fun huncut => absurd huncut hcut
  whole := fun huncut => absurd huncut hcut

/-- What ended a restore gives its verdict. -/
theorem Restore.Ended.verdict (h : Restore.Ended u archive steps result)
    (handed : ∀ {before after : List Step} {held : ByteArray}, steps = before ++ after →
      Along Takes .empty before held → ∃ rest, held ++ rest = archive.bytes) :
    Verdict u archive steps result := by
  have hhalted : ∀ {result}, ¬ Started steps → ¬ Overtaken steps → Halts u steps result →
      Verdict u archive steps result := by
    intro result idle undisturbed halts
    refine .of_cut (fun huncut => idle huncut.1) halts.ne_ok handed
      (fun _ => ⟨undisturbed, halts⟩) (fun hcancelled => absurd hcancelled undisturbed) ?_
    intro hprovided
    simp only [undisturbed, iff_false]
    rintro ⟨fault, rfl, hcancelled⟩
    exact absurd (halts.isCancelled_eq_false hprovided) (by simp [hcancelled])
  cases h with
  | refused fault idle undisturbed shown => exact hhalted idle undisturbed (.refused fault shown)
  | unstarted command fault idle undisturbed shown =>
    exact hhalted idle undisturbed (.unstarted command fault shown)
  | uncaptured command idle undisturbed shown =>
    exact hhalted idle undisturbed (.uncaptured command shown)
  | overtaken started cut =>
    exact .of_cut (fun huncut => huncut.2 cut) (by simp) handed (fun idle => absurd started idle)
      (fun _ => rfl) fun _ => by simp [cut, Restore.overtaken, Fault.isCancelled, Fault.root]
  | @settled password known started undisturbed fed closed waited r settled =>
    have huncut : Uncut steps := ⟨started, undisturbed⟩
    exact {
      handed
      succeeded_iff := by
        rw [settled.result_eq_ok_iff]
        exact ⟨fun h => ⟨⟨password, known⟩, huncut, h⟩, fun ⟨_, _, h⟩ => h⟩
      halted := fun idle => absurd started idle
      secret := fun hprovided => hprovided.secret
      cancelled := fun hcancelled => absurd hcancelled undisturbed
      cancelled_iff := by
        intro _
        simp only [undisturbed, iff_false]
        rintro ⟨fault, hfault, hcancelled⟩
        exact absurd (settled.isCancelled_eq_false hfault) (by simp [hcancelled])
      waited := fun _ => ⟨waited, settled.gone, settled.waits⟩
      cells := fun _ => settled.cells
      unread := fun _ => settled.result_of_fails
      rejected := fun _ _ hfails hpipe => by simp [settled.result_of_inputFails hfails, hpipe]
      brokenPipe := fun _ _ _ hfails hpipe hwaited => by
        obtain rfl := (settled.waits _).mp hwaited
        simp [settled.result_of_inputFails hfails, hpipe]
      whole := fun _ _ hwhole hwaited => by
        obtain rfl := (settled.waits _).mp hwaited
        exact settled.result_of_fedWhole hwhole }

/-- What is reported of a restore, for every archive and every course of its utility. -/
theorem restore_verdict (h : Yields (Restore.apply u archive) steps result) :
    Verdict u archive steps result := by
  have hcourse := Restore.course_of_yields h
  refine hcourse.ended.verdict fun hsteps halong => ?_
  subst hsteps
  exact hcourse.handed halong

end Verdict

/-- A utility that goes away with an exit status, and how it leaves the chunks that it is offered. -/
def departing (status : ExitStatus) (taken : Taken) : Handler Unit := fun c s =>
  match c with
  | .offer _ => (taken, s)
  | .wait => (.exited status, s)
  | c => obliging false c s

/-- Of a broken pipe and an exit status behind it, the exit status is reported. -/
theorem restore_verdict_departing :
    let u : Utility := .ofConfig {} {} defaultRestoreProgram
    let archive : Source := .ofBytes ⟨#[1, 2, 3]⟩
    let status := ExitStatus.ofCode 1
    let pipe := Taken.failed (.os Fault.brokenPipe)
    let steps := (Restore.apply u archive).course (departing status pipe) ()
    let result : Except Fault Unit := .error (Restore.failure u (.exit status))
    Yields (Restore.apply u archive) steps result ∧ Uncut steps ∧
      InputFails archive steps (.os Fault.brokenPipe) ∧ taken steps = [] ∧
      Verdict u archive steps result := by
  intro u archive status pipe steps result
  have hyields : Yields (Restore.apply u archive) steps result :=
    yields_course (departing status pipe) (Restore.apply u archive) ()
  have hsteps : steps = Restore.opening u none ++ [⟨.spawn (Restore.command u none), .ok true⟩,
      ⟨.pause, false⟩, ⟨.offer ⟨#[1, 2, 3]⟩, pipe⟩, ⟨.closeInput, .ok ()⟩, ⟨.wait, .exited status⟩,
      .line (FirstFault.discarded (Restore.feedFailure u (.os Fault.brokenPipe)))] := rfl
  have hstarted : Started steps := ⟨Restore.command u none, by simp [hsteps]⟩
  have huncut : ¬ Overtaken steps := by simp [hsteps]
  have hrejects : Rejects steps (.os Fault.brokenPipe) := ⟨⟨#[1, 2, 3]⟩, by simp [hsteps, pipe]⟩
  exact ⟨hyields, ⟨hstarted, huncut⟩, .inl hrejects, rfl, restore_verdict hyields⟩

end DumpVault
