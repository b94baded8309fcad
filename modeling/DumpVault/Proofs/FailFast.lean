import DumpVault.Proofs.Passages

/-!
# Failing fast

Both pipelines do first what may fail cheaply. The store hears nothing of an archive run before the
dump utility has come to a good end, and a restore run needs neither password nor utility before the
archive has been opened. A run that was cancelled beforehand touches nothing.
-/
namespace DumpVault
open Prog

namespace Call

def reachesStore : Call → Bool
  | .connect _ | .exists _ | .openWriter _ | .write _ _ | .finalize _ | .abort _ | .openReader _
  | .list => true
  | _ => false

/-- A call that reads a secret or concerns the process of a utility. -/
def reachesUtility : Call → Bool
  | .password _ | .spawn _ | .offer _ | .closeInput | .wait | .kill | .reap => true
  | _ => false

/-- A call that reaches neither files nor processes, secrets or the store. -/
def isIdle : Call → Bool
  | .log _ | .isCancelled => true
  | _ => false

end Call

section Quiet
variable {P : Call → Bool} {quiet rest before after : List Step} {s : Step}

theorem not_of_quiet (hsplit : before ++ s :: after = quiet)
    (hquiet : ∀ x ∈ quiet, P x.call = false) : ¬ P s.call = true := by
  rw [hquiet s (hsplit ▸ by simp)]
  exact Bool.false_ne_true

theorem prefix_of_notMem (hsplit : before ++ s :: after = quiet ++ rest) (hs : s ∉ quiet) :
    ∃ more, before = quiet ++ more := by
  rcases List.append_eq_append_iff.mp hsplit.symm with ⟨more, hmore, _⟩ | ⟨more, hmore, hrest⟩
  · exact ⟨more, hmore⟩
  · cases more with
    | nil => exact ⟨[], by simpa using hmore.symm⟩
    | cons x more =>
      obtain ⟨rfl, _⟩ := List.cons.inj hrest
      exact absurd (hmore ▸ by simp) hs

/-- Steps among which there is none of a kind lie before the first of that kind. -/
theorem prefix_of_quiet (hsplit : before ++ s :: after = quiet ++ rest)
    (hquiet : ∀ x ∈ quiet, P x.call = false) (hs : P s.call = true) :
    ∃ more, before = quiet ++ more :=
  prefix_of_notMem hsplit fun hmem => Bool.false_ne_true ((hquiet s hmem).symm.trans hs)

end Quiet

namespace Dump

variable {d : Dump} {steps : List Step}

theorem Ends.quiet {command : Command} {fault : Option Fault} (h : d.Ends command steps fault) :
    ∀ s ∈ steps, s.call.reachesStore = false := by
  cases h with
  | overtaken captured killed => cases killed <;> simp [Step.line, Call.reachesStore]
  | unstarted | lost | failed | succeeded => simp [Call.reachesStore]

theorem Course.quiet {r : Except Fault String} (h : d.Course steps r) :
    ∀ s ∈ steps, s.call.reachesStore = false := by
  cases h with
  | uncreated | refused => simp [Step.line, Call.reachesStore]
  | failed path password ends | dumped path password ends =>
    simpa [opening, Step.line, Call.reachesStore, or_imp, forall_and] using ends.quiet

end Dump

namespace Archiver

variable {a : Archiver} {steps before after : List Step} {s : Step} {result : Except Fault Key}

/-- The dump utility was started, was waited for and exited with the raw status zero, and the token
was not cancelled when the upload stage was entered. -/
def MayUpload (a : Archiver) (before : List Step) : Prop :=
  ∃ path password captured status earlier between later,
    before = earlier ++ ⟨.spawn (a.dump.command path password), .ok captured⟩ ::
      ⟨.wait, .exited status⟩ :: (between ++ (toUpload ++ later)) ∧
    status.raw = 0

theorem mayUpload_of_dump {path : String} {dump more : List Step}
    (h : a.dump.Course dump (.ok path)) :
    a.MayUpload (toDump ++ (dump ++ (toUpload ++ more))) := by
  cases h with
  | dumped _ password ends =>
    cases ends with
    | succeeded captured status successful =>
      refine ⟨path, password, captured, status, toDump ++ a.dump.opening path password,
        [.line a.dump.completed], more, by simp, ?_⟩
      simpa [ExitStatus.isSuccess] using successful

/-- A call to the store comes only after a good end of the dump utility. -/
theorem store_waits (h : Yields a.run (before ++ s :: after) result)
    (hs : s.call.reachesStore = true) : a.MayUpload before := by
  have hcourse := course_of_yields h
  have hdumped : ∀ {path : String} {dump rest : List Step}, a.dump.Course dump (.ok path) →
      before ++ s :: after = toDump ++ (dump ++ (toUpload ++ rest)) → a.MayUpload before := by
    intro path dump rest hdump hsplit
    have hquiet : ∀ x ∈ toDump ++ (dump ++ toUpload), x.call.reachesStore = false := by
      simpa [toDump, toUpload, Step.line, Call.reachesStore, or_imp, forall_and] using hdump.quiet
    obtain ⟨more, rfl⟩ := prefix_of_quiet (by simpa using hsplit) hquiet hs
    have hmay : a.MayUpload (toDump ++ (dump ++ (toUpload ++ more))) := mayUpload_of_dump hdump
    simpa using hmay
  generalize hsplit : before ++ s :: after = steps at hcourse
  cases hcourse with
  | cutBeforeDump =>
    exact absurd hs (not_of_quiet hsplit (by simp [Step.line, Call.reachesStore]))
  | undumped dumping | cutBeforeUpload dumping =>
    exact absurd hs (not_of_quiet hsplit (by
      simpa [toDump, Step.line, Call.reachesStore, or_imp, forall_and] using dumping.quiet))
  | unstored dumping uploading => exact hdumped dumping hsplit
  | stored dumping uploading cleaned => exact hdumped dumping hsplit

/-- A run that finds the token cancelled whenever it looks does nothing. -/
theorem idle_of_cancelled (h : Yields a.run steps result)
    (hcancelled : ∀ s ∈ steps, s ≠ ⟨.isCancelled, false⟩) :
    result = .error (cutBefore .dump) ∧ ∀ s ∈ steps, s.call.isIdle = true := by
  cases course_of_yields h with
  | cutBeforeDump => simp [Step.line, Call.isIdle]
  | undumped | cutBeforeUpload | unstored | stored =>
    exact absurd rfl (hcancelled ⟨.isCancelled, false⟩ (by simp [toDump]))

end Archiver

namespace Restorer

variable {r : Restorer} {key : Key} {steps before after : List Step} {s : Step}
  {result : Except Fault Unit}

/-- The archive was opened, and the token was not cancelled when the restore stage was entered. -/
def MayRestore (key : Key) (before : List Step) : Prop :=
  ∃ archive earlier later,
    before = earlier ++ ⟨.openReader key, .ok archive⟩ :: (toRestore ++ later)

/-- Password and utility come only after the archive. -/
theorem utility_waits (h : Yields (r.run key) (before ++ s :: after) result)
    (hs : s.call.reachesUtility = true) : MayRestore key before := by
  have hcourse := course_of_yields h
  generalize hsplit : before ++ s :: after = steps at hcourse
  cases hcourse with
  | applied archive =>
    have hquiet : ∀ x ∈ r.toFetch key ++ (⟨.pause, false⟩ :: ⟨.openReader key, .ok archive⟩ ::
        toRestore), x.call.reachesUtility = false := by
      simp [toFetch, toRestore, Step.line, Call.reachesUtility]
    obtain ⟨more, rfl⟩ := prefix_of_quiet (by simpa using hsplit) hquiet hs
    exact ⟨archive, r.toFetch key ++ [⟨.pause, false⟩], more, by simp⟩
  | cutBeforeFetch | cutInFetch | unfetched | cutBeforeRestore =>
    exact absurd hs (not_of_quiet hsplit (by simp [toFetch, Step.line, Call.reachesUtility]))

theorem idle_of_cancelled (h : Yields (r.run key) steps result)
    (hcancelled : ∀ s ∈ steps, s ≠ ⟨.isCancelled, false⟩) :
    result = .error (Archiver.cutBefore .fetch) ∧ ∀ s ∈ steps, s.call.isIdle = true := by
  cases course_of_yields h with
  | cutBeforeFetch => simp [Step.line, Call.isIdle]
  | cutInFetch | unfetched | cutBeforeRestore | applied =>
    exact absurd rfl (hcancelled ⟨.isCancelled, false⟩ (by simp [toFetch]))

end Restorer

/-- The store hears nothing of an archive run unless the dump utility exited with the raw status
zero and the upload stage was entered. A restore run neither reads the password nor starts the
utility unless the archive was opened and the restore stage was entered. What was cancelled
beforehand makes no call that reaches anything. -/
theorem pipelines_fail_fast {a : Archiver} {r : Restorer} {key : Key}
    {archiving restoring : List Step} {archived : Except Fault Key} {restored : Except Fault Unit}
    (harchive : Yields a.run archiving archived)
    (hrestore : Yields (r.run key) restoring restored) :
    (∀ before s after, archiving = before ++ s :: after → s.call.reachesStore = true →
      a.MayUpload before) ∧
    (∀ before s after, restoring = before ++ s :: after → s.call.reachesUtility = true →
      Restorer.MayRestore key before) ∧
    ((∀ s ∈ archiving, s ≠ ⟨.isCancelled, false⟩) → archived = .error (Archiver.cutBefore .dump) ∧
      ∀ s ∈ archiving, s.call.isIdle = true) ∧
    ((∀ s ∈ restoring, s ≠ ⟨.isCancelled, false⟩) →
      restored = .error (Archiver.cutBefore .fetch) ∧ ∀ s ∈ restoring, s.call.isIdle = true) := by
  refine ⟨?_, ?_, a.idle_of_cancelled harchive, r.idle_of_cancelled hrestore⟩
  · rintro before s after rfl hs
    exact a.store_waits harchive hs
  · rintro before s after rfl hs
    exact r.utility_waits hrestore hs

/-- With all going well the store and the utility are reached; cancelled beforehand, the same two
runs end at once. -/
theorem pipelines_fail_fast_obliging :
    let a : Archiver := ⟨⟨.ofConfig {} {} defaultDumpProgram, "/tmp"⟩, "archives", false⟩
    let r : Restorer := ⟨"archives", .ofConfig {} {} defaultRestoreProgram⟩
    let key := Key.mint .epoch
    let archiving := a.run.course (obliging false) ()
    let restoring := (r.run key).course (obliging false) ()
    Yields a.run archiving (.ok key) ∧ Yields (r.run key) restoring (.ok ()) ∧
      (∃ s ∈ archiving, s.call.reachesStore = true) ∧
      (∃ s ∈ restoring, s.call.reachesUtility = true) ∧
      (∀ before s after, archiving = before ++ s :: after → s.call.reachesStore = true →
        a.MayUpload before) ∧
      (∀ before s after, restoring = before ++ s :: after → s.call.reachesUtility = true →
        Restorer.MayRestore key before) ∧
      (a.run.run (obliging true) ()).1 = .error (Archiver.cutBefore .dump) ∧
      ((r.run key).run (obliging true) ()).1 = .error (Archiver.cutBefore .fetch) := by
  intro a r key archiving restoring
  have harchive : Yields a.run archiving (.ok key) := yields_course (obliging false) a.run ()
  have hrestore : Yields (r.run key) restoring (.ok ()) :=
    yields_course (obliging false) (r.run key) ()
  obtain ⟨hstore, hutility, _⟩ := pipelines_fail_fast harchive hrestore
  obtain ⟨_, _, hdump, hfetch⟩ := pipelines_fail_fast
    (yields_course (obliging true) a.run ()) (yields_course (obliging true) (r.run key) ())
  have hcut : a.run.course (obliging true) () = [.line (Archiver.passage .start .dumping),
      ⟨.isCancelled, true⟩, .line (Archiver.passage .dumping .failed)] := rfl
  have hcut' : (r.run key).course (obliging true) () = [.line (Restorer.passage .start .fetching),
      ⟨.isCancelled, true⟩, .line (Restorer.passage .fetching .failed)] := rfl
  exact ⟨harchive, hrestore, List.any_eq_true.mp rfl, List.any_eq_true.mp rfl, hstore, hutility,
    (hdump (by simp [hcut, Step.line])).1, (hfetch (by simp [hcut', Step.line])).1⟩

end DumpVault
