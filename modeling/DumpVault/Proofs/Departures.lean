import DumpVault.Proofs.Verdicts

/-!
# A utility that goes away early

While an archive is being fed the utility may come to its end, and the run may be cancelled, in
either order. How the utility ended is asked only once the feed is over. So an early failure is
surfaced unless cancellation comes in between, and an archive that stalls keeps it hidden until
then.
-/
namespace DumpVault
open Prog

/-- What happens beside a run. -/
inductive Incident
  | exited (status : ExitStatus)
  | cancelled
  deriving DecidableEq

/-- More may have happened by the time of a reply. A reply reports only what has happened, and a
utility does not end before it was started. -/
structure Unfolds (past : List Incident) (c : Call) (r : Reply c) (now : List Incident) : Prop where
  grows : past <+: now
  unstarted : ∀ command, c = .spawn command → ∀ status, .exited status ∉ past
  exited : ∀ status, (⟨c, r⟩ : Step) = ⟨.wait, .exited status⟩ → .exited status ∈ now
  cancelled : (⟨c, r⟩ : Step).showsCancelled = true → .cancelled ∈ now

section Incidents
variable {past now : List Incident} {steps : List Step}

theorem along_grows (h : Along Unfolds past steps now) : past <+: now :=
  h.keeps (fun _ => List.prefix_rfl) List.IsPrefix.trans fun _ _ _ _ unfolds => unfolds.grows

theorem along_unfolded (h : Along Unfolds past steps now) {s : Step} (hs : s ∈ steps) :
    (∀ status, s = ⟨.wait, .exited status⟩ → .exited status ∈ now) ∧
      (s.showsCancelled = true → .cancelled ∈ now) := by
  induction h with
  | nil => cases hs
  | cons unfolds hrest ih =>
    rcases List.mem_cons.mp hs with rfl | hs
    · have hlater := (along_grows hrest).subset
      exact ⟨fun status heq => hlater (unfolds.exited status heq),
        fun hcut => hlater (unfolds.cancelled hcut)⟩
    · exact ih hs

theorem cancelled_of_overtaken (h : Along Unfolds past steps now) (hcut : Overtaken steps) :
    .cancelled ∈ now := by
  obtain ⟨s, hs, hcut⟩ := hcut
  exact (along_unfolded h hs).2 hcut

/-- A step that neither starts a utility nor tells of its end or of a cancellation. -/
def Prog.Step.isSilent : Step → Bool
  | ⟨.spawn _, _⟩ | ⟨.wait, .exited _⟩ => false
  | s => !s.showsCancelled

@[simp] theorem isSilent_line (line : Line) : (Step.line line).isSilent = true := rfl

@[simp] theorem isSilent_password {source : SecretSource} {reply : Except Fault (Option Secret)} :
    (⟨.password source, reply⟩ : Step).isSilent = true := rfl

theorem unfolds_of_silent {c : Call} {r : Reply c} (hsilent : (⟨c, r⟩ : Step).isSilent = true)
    (hgrows : past <+: now) : Unfolds past c r now where
  grows := hgrows
  unstarted := by
    rintro command rfl
    cases hsilent
  exited := by
    rintro status heq
    rw [heq] at hsilent
    cases hsilent
  cancelled := by
    intro hcut
    unfold Step.isSilent at hsilent
    split at hsilent <;> simp_all

theorem along_of_silent (hsilent : ∀ s ∈ steps, s.isSilent = true) :
    Along Unfolds past steps past := by
  induction steps with
  | nil => exact .nil past
  | cons s steps ih =>
    obtain ⟨hs, hrest⟩ := List.forall_mem_cons.mp hsilent
    exact .cons (unfolds_of_silent hs List.prefix_rfl) (ih hrest)

end Incidents

/-- How a restore ends whose utility failed before anything was cancelled. -/
structure Surfaced (u : Utility) (archive : Source) (status : ExitStatus) (later : List Incident)
    (steps : List Step) (result : Except Fault Unit) : Prop where
  /-- The failure is surfaced, unless cancellation or a fault of higher rank comes in between. -/
  surfaced_iff : result = .error (Restore.failure u (.exit status)) ↔
    ¬ Overtaken steps ∧ (∀ fault, InputFails archive steps fault → fault.isBrokenPipe = true) ∧
      ∀ fault, ⟨.wait, .failed fault⟩ ∉ steps
  overtaken : Overtaken steps → .cancelled ∈ later ∧ result = .error (Restore.overtaken u)
  /-- An archive that stalls, all that it yields being taken, has the run wait for cancellation. -/
  held : archive.ending = .stalled → (∀ fault, ¬ Rejects steps fault) → Overtaken steps
  rejected : ¬ Overtaken steps → ∀ {fault}, InputFails archive steps fault →
    fault.isBrokenPipe = false → result = .error (Restore.feedFailure u fault)
  lost : ¬ Overtaken steps →
    (∀ fault, InputFails archive steps fault → fault.isBrokenPipe = true) →
    ∀ {fault}, ⟨.wait, .failed fault⟩ ∈ steps → result = .error (Restore.failure u (.wait fault))

namespace Restore
variable {u : Utility} {archive : Source} {steps : List Step} {r : Except Fault Unit}
  {fed : FeedEnd} {closed : Except IoFault Unit} {waited : Waited} {status : ExitStatus}
  {later : List Incident}

namespace Settled

/-- Where nothing but a broken pipe has happened to the input, the utility's own fault counts. -/
theorem result_of_waitedFault (h : Settled u archive steps fed closed waited r) {own : Fault}
    (hread : ∀ fault, ¬ archive.Fails steps fault)
    (hinput : ∀ fault, InputFails archive steps fault → fault.isBrokenPipe = true)
    (hwaited : waitedFault? u waited = some own) : r = .error own := by
  obtain ⟨fault, hfails⟩ | ⟨fault, hfails⟩ | hwhole := h.cells
  · exact absurd hfails (hread fault)
  · rw [h.result_of_inputFails hfails, if_pos (hinput fault hfails), hwaited, Option.getD_some]
  · rw [h.result_of_fedWhole hwhole, hwaited]
    rfl

theorem result_of_rejected (h : Settled u archive steps fed closed waited r) {fault : IoFault}
    (hfails : InputFails archive steps fault) (hpipe : fault.isBrokenPipe = false) :
    r = .error (feedFailure u fault) := by
  simp [h.result_of_inputFails hfails, hpipe]

theorem result_of_lost (h : Settled u archive steps fed closed waited r) {fault : IoFault}
    (hread : ∀ fault, ¬ archive.Fails steps fault)
    (hinput : ∀ fault, InputFails archive steps fault → fault.isBrokenPipe = true)
    (hlost : ⟨.wait, .failed fault⟩ ∈ steps) : r = .error (failure u (.wait fault)) := by
  obtain rfl := (h.waits _).mp hlost
  exact h.result_of_waitedFault hread hinput rfl

theorem surfaced (h : Settled u archive steps fed closed waited r)
    (hread : ∀ fault, ¬ archive.Fails steps fault) (undisturbed : ¬ Overtaken steps)
    (hstatus : ∀ other, ⟨.wait, .exited other⟩ ∈ steps → other = status)
    (hfailure : status.isSuccess = false) : Surfaced u archive status later steps r where
  surfaced_iff := by
    constructor
    · rintro rfl
      have hinput : ∀ fault, InputFails archive steps fault → fault.isBrokenPipe = true := by
        intro fault hfails
        by_contra hpipe
        have hresult := h.result_of_rejected hfails (Bool.not_eq_true _ ▸ hpipe)
        simp [failure, feedFailure] at hresult
      refine ⟨undisturbed, hinput, fun fault hlost => ?_⟩
      have hresult := h.result_of_lost hread hinput hlost
      simp [failure] at hresult
    · rintro ⟨_, hinput, hfound⟩
      refine h.result_of_waitedFault hread hinput ?_
      cases hwaited : waited with
      | interrupted => exact absurd hwaited h.gone
      | failed fault => exact absurd ((h.waits _).mpr hwaited.symm) (hfound fault)
      | exited other =>
        obtain rfl := hstatus other ((h.waits _).mpr hwaited.symm)
        simp [waitedFault?, hfailure]
  overtaken := fun hcut => absurd hcut undisturbed
  held := by
    intro hstalled hnone
    obtain ⟨fault, hfails⟩ | ⟨fault, hfails | hfails⟩ | hwhole := h.cells
    · exact absurd hfails (hread fault)
    · exact absurd hfails (hnone fault)
    · exact absurd (hstalled.symm.trans hfails.1) (by simp)
    · exact absurd (hstalled.symm.trans hwhole.1) (by simp)
  rejected := fun _ _ hfails hpipe => h.result_of_rejected hfails hpipe
  lost := fun _ hinput _ hlost => h.result_of_lost hread hinput hlost

end Settled
end Restore

/-- An early failure of the restore utility, for every archive that has not failed and every order
of events in which the failure comes first. -/
theorem early_failure_surfaced {u : Utility} {archive : Source} {steps : List Step}
    {result : Except Fault Unit} {status : ExitStatus} {later : List Incident}
    (hyields : Yields (Restore.apply u archive) steps result) (hstarted : Started steps)
    (hread : ∀ fault, ¬ archive.Fails steps fault)
    (hevents : Along Unfolds [] steps (.exited status :: later))
    (honce : ∀ other, .exited other ∉ later) (hfailure : status.isSuccess = false) :
    Surfaced u archive status later steps result := by
  have hstatus : ∀ other, ⟨.wait, .exited other⟩ ∈ steps → other = status := by
    intro other hmem
    rcases List.mem_cons.mp ((along_unfolded hevents hmem).1 other rfl) with heq | hlater
    · exact Incident.exited.inj heq
    · exact absurd hlater (honce other)
  cases (Restore.course_of_yields hyields).ended with
  | refused fault idle | unstarted command fault idle | uncaptured command idle =>
    exact absurd hstarted idle
  | settled password known started undisturbed settled =>
    exact settled.surfaced hread undisturbed hstatus hfailure
  | overtaken started cut =>
    have hcancelled : .cancelled ∈ later := by
      simpa using cancelled_of_overtaken hevents cut
    exact {
      surfaced_iff := by simp [cut, Restore.failure, Restore.overtaken]
      overtaken := fun _ => ⟨hcancelled, rfl⟩
      held := fun _ _ => cut
      rejected := fun undisturbed => absurd cut undisturbed
      lost := fun undisturbed => absurd cut undisturbed }

theorem along_started {u : Utility} {password : Option Secret} {command : Command}
    {reply : Except IoFault Bool} {steps : List Step} {now : List Incident}
    (h : Along Unfolds [] steps now) :
    Along Unfolds [] (Restore.opening u password ++ ⟨.spawn command, reply⟩ :: steps) now := by
  have hopening : Along Unfolds [] (Restore.opening u password) [] :=
    along_of_silent (by simp [Restore.opening])
  exact along_append.mpr ⟨[], hopening, .cons ⟨List.prefix_rfl, by simp, by simp, by simp⟩ h⟩

/-- The utility's end shows in a broken pipe, and its status is surfaced. -/
theorem early_failure_surfaced_departing :
    let u : Utility := .ofConfig {} {} defaultRestoreProgram
    let archive : Source := .ofBytes ⟨#[1, 2, 3]⟩
    let status := ExitStatus.ofCode 1
    let pipe := Taken.failed (.os Fault.brokenPipe)
    let steps := (Restore.apply u archive).course (departing status pipe) ()
    let result : Except Fault Unit := .error (Restore.failure u (.exit status))
    Yields (Restore.apply u archive) steps result ∧ Started steps ∧
      (∀ fault, ¬ archive.Fails steps fault) ∧ Along Unfolds [] steps [.exited status] ∧
      status.isSuccess = false ∧ Surfaced u archive status [] steps result := by
  intro u archive status pipe steps result
  have hyields : Yields (Restore.apply u archive) steps result :=
    yields_course (departing status pipe) (Restore.apply u archive) ()
  have hsteps : steps = Restore.opening u none ++ ⟨.spawn (Restore.command u none), .ok true⟩ ::
      [⟨.pause, false⟩, ⟨.offer ⟨#[1, 2, 3]⟩, pipe⟩, ⟨.closeInput, .ok ()⟩, ⟨.wait, .exited status⟩,
      .line (FirstFault.discarded (Restore.feedFailure u (.os Fault.brokenPipe)))] := rfl
  have hstarted : Started steps := ⟨Restore.command u none, by simp [hsteps]⟩
  have hread : ∀ fault, ¬ archive.Fails steps fault := fun _ hfails => (nomatch hfails.1)
  have hsilent : ∀ {c : Call} {r : Reply c}, (⟨c, r⟩ : Step).isSilent = true →
      Unfolds [.exited status] c r [.exited status] := fun h => unfolds_of_silent h List.prefix_rfl
  have hevents : Along Unfolds [] steps [.exited status] := by
    have hpause : Unfolds [] .pause false [.exited status] :=
      unfolds_of_silent rfl List.nil_prefix
    have hwait : Unfolds [.exited status] .wait (.exited status) [.exited status] :=
      ⟨List.prefix_rfl, by simp, by simp, by simp⟩
    exact along_started (.cons hpause (.cons (hsilent rfl) (.cons (hsilent rfl)
      (.cons hwait (.cons (hsilent rfl) (.nil _))))))
  exact ⟨hyields, hstarted, hread, hevents, rfl,
    early_failure_surfaced hyields hstarted hread hevents (by simp) rfl⟩

/-- A course in which the utility fails first and is hidden by the cancellation behind it. -/
structure Hides (u : Utility) (archive : Source) (status : ExitStatus) (steps : List Step) :
    Prop where
  yields : Yields (Restore.apply u archive) steps (.error (Restore.overtaken u))
  started : Started steps
  unfailed : ∀ fault, ¬ archive.Fails steps fault
  events : Along Unfolds [] steps [.exited status, .cancelled]

/-- An archive that stalls hides the failure of the utility until the token fires, and so does a
chunk that nobody takes. -/
theorem early_failure_hidden :
    let u : Utility := .ofConfig {} {} defaultRestoreProgram
    let status := ExitStatus.ofCode 1
    let stalling : Source := ⟨[⟨#[1, 2, 3]⟩], .stalled⟩
    let complete : Source := .ofBytes ⟨#[1, 2, 3]⟩
    status.isSuccess = false ∧ Restore.overtaken u ≠ Restore.failure u (.exit status) ∧
      Hides u stalling status ((Restore.apply u stalling).course (departing status .accepted) ()) ∧
      Hides u complete status
        ((Restore.apply u complete).course (departing status .interrupted) ()) := by
  intro u status stalling complete
  have hpause : Unfolds [] .pause false [.exited status] := unfolds_of_silent rfl List.nil_prefix
  have hsilent : ∀ {now : List Incident} {c : Call} {r : Reply c},
      (⟨c, r⟩ : Step).isSilent = true → Unfolds now c r now :=
    fun h => unfolds_of_silent h List.prefix_rfl
  have hstall : Unfolds [.exited status] .stall () [.exited status, .cancelled] :=
    ⟨⟨[.cancelled], rfl⟩, by simp, by simp, by simp⟩
  have hheld : Unfolds [.exited status] (.offer ⟨#[1, 2, 3]⟩) .interrupted
      [.exited status, .cancelled] := ⟨⟨[.cancelled], rfl⟩, by simp, by simp, by simp⟩
  refine ⟨rfl, by simp [Restore.overtaken, Restore.failure], ?_, ?_⟩
  · exact {
      yields := yields_course (departing status .accepted) (Restore.apply u stalling) ()
      started := ⟨Restore.command u none,
        List.mem_append_right (Restore.opening u none) List.mem_cons_self⟩
      unfailed := fun _ hfails => by cases hfails.1
      events := along_started (.cons hpause (.cons (hsilent rfl) (.cons (hsilent rfl)
        (.cons hstall (.cons (hsilent rfl) (.cons (hsilent rfl) (.nil _))))))) }
  · exact {
      yields := yields_course (departing status .interrupted) (Restore.apply u complete) ()
      started := ⟨Restore.command u none,
        List.mem_append_right (Restore.opening u none) List.mem_cons_self⟩
      unfailed := fun _ hfails => by cases hfails.1
      events := along_started (.cons hpause (.cons hheld
        (.cons (hsilent rfl) (.cons (hsilent rfl) (.nil _))))) }

end DumpVault
