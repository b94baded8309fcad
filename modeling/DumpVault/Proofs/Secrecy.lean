import DumpVault.Proofs.Feeding
import DumpVault.Proofs.Lines
import DumpVault.Proofs.Lockstep

/-!
# The password stays secret

A run passes the password on without looking at it. Two runs in the same world, with two passwords
that can stand in an environment, differ in nothing but what the utility finds in its own.
-/
namespace DumpVault
open Prog World

/-- The step in which this password is provided or passed on. -/
def Prog.Step.withPassword (q : Secret) : Step → Step
  | ⟨.password source, _⟩ => ⟨.password source, .ok (some q)⟩
  | ⟨.spawn command, r⟩ => ⟨.spawn { command with password := some q }, r⟩
  | s => s

/-- A call that has to do neither with the provider of the password nor with its taker. -/
def Call.isPublic : Call → Bool
  | .password _ | .spawn _ => false
  | _ => true

/-- A run with one password as a run with another. -/
def exchanging (p q : Secret) : Disguise where
  put := Step.withPassword q
  mayAsk
    | .spawn command => command.password = some p
    | _ => True
  mayHear
    | ⟨.password _, r⟩ => r = .ok (some p)
    | _ => True

section Lockstep
variable {p q : Secret} {path : String}

theorem plain_of_public {c : Call} (hc : c.isPublic = true) : (exchanging p q).Plain c := by
  cases c with
  | password | spawn => cases hc
  | _ => exact ⟨trivial, fun _ => rfl⟩

theorem plain_of_tending (c : Call) (hc : isTending c) : (exchanging p q).Plain c := by
  refine plain_of_public ?_
  cases c with
  | password | spawn => exact hc.elim
  | _ => rfl

theorem plain_of_upload (c : Call) (hc : c.isUpload) : (exchanging p q).Plain c := by
  refine plain_of_public ?_
  cases c with
  | password | spawn => exact hc.elim
  | _ => rfl

theorem lockstep_of_tending {α : Type} {run : Prog α} (h : run.Only isTending) :
    Lockstep (exchanging p q) run run := .refl (h.mono plain_of_tending)

/-- Asking for the password: the runs go on with their own. -/
theorem lockstep_password {α : Type} {source : SecretSource}
    {f f' : Except Fault (Option Secret) → Prog α}
    (h : Lockstep (exchanging p q) (f (.ok (some p))) (f' (.ok (some q)))) :
    Lockstep (exchanging p q) (ask (.password source) >>= f) (ask (.password source) >>= f') := by
  refine .ask_bind trivial (fun _ => rfl) fun r r' hears hput => ?_
  obtain rfl : r = .ok (some p) := hears
  cases hput
  exact h

/-- Starting the utility: each run hands over its own password, and hears the same. -/
theorem lockstep_spawn {α : Type} (command : Command) {f f' : Except IoFault Bool → Prog α}
    (h : ∀ r, Lockstep (exchanging p q) (f r) (f' r)) :
    Lockstep (exchanging p q) (ask (.spawn { command with password := some p }) >>= f)
      (ask (.spawn { command with password := some q }) >>= f') := by
  refine .ask_bind rfl (fun _ => rfl) fun r r' _ hput => ?_
  cases hput
  exact h r

theorem lockstep_runInto (d : Dump) : Lockstep (exchanging p q)
    (d.runInto path (some p)) (d.runInto path (some q)) := by
  have hleave : ∀ fault,
      Lockstep (exchanging p q) (Dump.leave path fault) (Dump.leave path fault) := fun fault =>
    lockstep_of_tending (only_leave path fault)
  refine .plain_bind (plain_of_public rfl) fun _ _ => ?_
  refine lockstep_spawn (d.command path none) fun spawned => ?_
  cases spawned with
  | error fault => exact hleave _
  | ok captured =>
    refine .plain_bind (plain_of_public rfl) fun waited _ => ?_
    cases waited with
    | exited status =>
      dsimp only
      split
      · exact .plain_bind (plain_of_public rfl) fun _ _ => .pure _
      · exact hleave _
    | failed fault => exact hleave _
    | interrupted => exact .bind (lockstep_of_tending only_putDown) fun _ => hleave _

theorem lockstep_stage (d : Dump) : Lockstep (exchanging p q) d.stage d.stage := by
  refine .plain_bind (plain_of_public rfl) fun created _ => ?_
  cases created with
  | error fault => exact .pure _
  | ok path =>
    exact .plain_bind (plain_of_public rfl) fun _ _ => lockstep_password (lockstep_runInto d)

theorem lockstep_apply (u : Utility) (archive : Source) :
    Lockstep (exchanging p q) (Restore.apply u archive) (Restore.apply u archive) := by
  refine .plain_bind (plain_of_public rfl) fun _ _ => lockstep_password ?_
  refine .plain_bind (plain_of_public rfl) fun _ _ => ?_
  refine lockstep_spawn (Restore.command u none) fun spawned => ?_
  match spawned with
  | .error fault => exact .pure _
  | .ok true => exact lockstep_of_tending (Restore.only_feed u archive)
  | .ok false => exact .bind (lockstep_of_tending only_putDown) fun _ => .pure _

theorem lockstep_enterStage (stage : Stage) :
    Lockstep (exchanging p q) (enterStage stage) (enterStage stage) := by
  refine .plain_bind (plain_of_public rfl) fun cut _ => ?_
  cases cut <;> exact .pure _

theorem lockstep_cleanUp (a : Archiver) :
    Lockstep (exchanging p q) (a.cleanUp path) (a.cleanUp path) := by
  rw [Archiver.cleanUp]
  split
  · exact .plain_bind (plain_of_public rfl) fun _ _ => .pure _
  · refine .plain_bind (plain_of_public rfl) fun removed _ => ?_
    cases removed with
    | ok => exact .pure _
    | error fault => exact .plain_bind (plain_of_public rfl) fun _ _ => .pure _

theorem lockstep_archive (a : Archiver) : Lockstep (exchanging p q) a.run a.run := by
  refine .bind ?_ fun result => .plain_bind (plain_of_public rfl) fun _ _ => .pure _
  refine .plain_bind (plain_of_public rfl) fun _ _ => .bind (lockstep_enterStage _) fun entered => ?_
  cases entered with
  | error fault => exact .pure _
  | ok =>
    refine .bind (lockstep_stage a.dump) fun dumped => ?_
    cases dumped with
    | error fault => exact .pure _
    | ok path =>
      refine .plain_bind (plain_of_public rfl) fun _ _ =>
        .bind (lockstep_enterStage _) fun entered => ?_
      cases entered with
      | error fault => exact .pure _
      | ok =>
        refine .bind (.refl ((only_upload a.bucket path).mono plain_of_upload)) fun uploaded => ?_
        cases uploaded with
        | error fault => exact .pure _
        | ok key => exact .bind (lockstep_cleanUp a) fun _ => .pure _

theorem lockstep_restore (r : Restorer) (key : Key) :
    Lockstep (exchanging p q) (r.run key) (r.run key) := by
  refine .bind ?_ fun result => .plain_bind (plain_of_public rfl) fun _ _ => .pure _
  refine .plain_bind (plain_of_public rfl) fun _ _ => .bind (lockstep_enterStage _) fun entered => ?_
  cases entered with
  | error fault => exact .pure _
  | ok =>
    refine .bind ?_ fun fetched => ?_
    · refine .plain_bind (plain_of_public rfl) fun _ _ =>
        .plain_bind (plain_of_public rfl) fun cut _ => ?_
      cases cut with
      | true => exact .pure _
      | false => exact .plain_bind (plain_of_public rfl) fun _ _ => .pure _
    · cases fetched with
      | error fault => exact .pure _
      | ok archive =>
        refine .plain_bind (plain_of_public rfl) fun _ _ =>
          .bind (lockstep_enterStage _) fun entered => ?_
        cases entered with
        | error fault => exact .pure _
        | ok => exact .bind (lockstep_apply _ _) fun _ => .pure _

end Lockstep

/-- The answers of a world in which the provider of the password returns this one. Only the utility
may see it, whose environment can hold it unless there is a NUL in it, and which does what it would
do anyway; the rest of the world knows of no password. -/
def entrusted {σ : Type} (h : Handler σ) (p : Secret) : Handler σ := fun c s =>
  match c with
  | .password source => (.ok (some p), (h (.password source) s).2)
  | .spawn command =>
    if (command.password.map Secret.value).any Host.hasNul then (.error Host.nulFault, s)
    else h (.spawn { command with password := none }) s
  | c => h c s

def Prog.Step.command? : Step → Option Command
  | ⟨.spawn command, _⟩ => some command
  | _ => none

/-- The utilities that a course has tried to start. -/
def commands (steps : List Step) : List Command := steps.filterMap Step.command?

/-- With one password or another a run returns the same, leaves the same world behind and makes the
same calls. The log is the same, and so are the utilities that it starts, but for the password, which
each of them is given. -/
structure KeepsSecret {σ α : Type} (h : Handler σ) (s : σ) (run : Prog α) (p q : Secret) : Prop where
  result : (run.run (entrusted h q) s).1 = (run.run (entrusted h p) s).1
  world : (run.run (entrusted h q) s).2 = (run.run (entrusted h p) s).2
  course : run.course (entrusted h q) s = (run.course (entrusted h p) s).map (Step.withPassword q)
  logged : logged (run.course (entrusted h q) s) = logged (run.course (entrusted h p) s)
  calls : (run.course (entrusted h q) s).filter (·.call.isPublic) =
    (run.course (entrusted h p) s).filter (·.call.isPublic)
  started : commands (run.course (entrusted h q) s) =
    (commands (run.course (entrusted h p) s)).map fun command => { command with password := some q }
  carried : ∀ command ∈ commands (run.course (entrusted h p) s), command.password = some p

section Courses
variable {p q : Secret} {steps : List Step}

theorem logged_withPassword : logged (steps.map (Step.withPassword q)) = logged steps := by
  have hstep : Step.line? ∘ Step.withPassword q = Step.line? := by
    funext ⟨c, r⟩
    cases c <;> rfl
  rw [Prog.logged, List.filterMap_map, hstep, Prog.logged]

theorem commands_withPassword : commands (steps.map (Step.withPassword q)) =
    (commands steps).map fun command => { command with password := some q } := by
  rw [commands, List.filterMap_map, commands, List.map_filterMap]
  congr 1
  funext ⟨c, r⟩
  cases c <;> rfl

theorem public_withPassword : (steps.map (Step.withPassword q)).filter (·.call.isPublic) =
    steps.filter (·.call.isPublic) := by
  induction steps with
  | nil => rfl
  | cons s steps ih =>
    obtain ⟨c, r⟩ := s
    cases c with
    | password | spawn => exact ih
    | _ => exact congrArg (List.cons _) ih

/-- In a course that stays as it is with this password, every utility has been given it. -/
theorem carried_of_withPassword (h : steps = steps.map (Step.withPassword p)) :
    ∀ command ∈ commands steps, command.password = some p := by
  intro command hcommand
  rw [h, commands_withPassword] at hcommand
  obtain ⟨given, _, rfl⟩ := List.mem_map.mp hcommand
  rfl

end Courses

section World
variable {σ α : Type} {h : Handler σ} {p q : Secret}

theorem entrusted_spawn {command : Command} (hpassword : command.password = some p)
    (hp : Host.hasNul p.value = false) (s : σ) :
    entrusted h p (.spawn command) s = h (.spawn { command with password := none }) s := by
  simp [entrusted, hpassword, hp]

/-- With the one password and with the other, the world answers in disguise. -/
theorem entrusted_disguised (hp : Host.hasNul p.value = false) (hq : Host.hasNul q.value = false)
    (c : Call) (s : σ) (asks : (exchanging p q).mayAsk c) :
    (exchanging p q).mayHear ⟨c, (entrusted h p c s).1⟩ ∧
      entrusted h q ((exchanging p q).put ⟨c, (entrusted h p c s).1⟩).call s =
        (((exchanging p q).put ⟨c, (entrusted h p c s).1⟩).reply, (entrusted h p c s).2) := by
  cases c with
  | password source => exact ⟨rfl, rfl⟩
  | spawn command =>
    refine ⟨trivial, ?_⟩
    change entrusted h q (.spawn { command with password := some q }) s =
      entrusted h p (.spawn command) s
    rw [entrusted_spawn rfl hq, entrusted_spawn asks hp]
  | _ => exact ⟨trivial, rfl⟩

theorem keepsSecret_of_lockstep {run : Prog α}
    (hlock : ∀ q, Lockstep (exchanging p q) run run) (hp : Host.hasNul p.value = false)
    (hq : Host.hasNul q.value = false) (s : σ) : KeepsSecret h s run p q := by
  obtain ⟨hrun, hcourse⟩ := (hlock q).run_eq (entrusted_disguised hp hq) s
  obtain ⟨_, hsame⟩ := (hlock p).run_eq (entrusted_disguised hp hp) s
  refine ⟨by rw [hrun], by rw [hrun], hcourse, ?_, ?_, ?_, carried_of_withPassword hsame⟩
  · rw [hcourse]
    exact logged_withPassword
  · rw [hcourse]
    exact public_withPassword
  · rw [hcourse]
    exact commands_withPassword

end World

/-- In every world, neither an archive run nor a restore run lets anything but the utility's
environment depend on which password it was given; nor does what is shown of one. -/
theorem password_stays_secret {σ : Type} (h : Handler σ) (s : σ) (a : Archiver) (r : Restorer)
    (key : Key) {p q : Secret} (hp : Host.hasNul p.value = false)
    (hq : Host.hasNul q.value = false) :
    KeepsSecret h s a.run p q ∧ KeepsSecret h s (r.run key) p q ∧
      Secret.shownOption (some p) = Secret.shownOption (some q) :=
  ⟨keepsSecret_of_lockstep (fun _ => lockstep_archive a) hp hq s,
    keepsSecret_of_lockstep (fun _ => lockstep_restore r key) hp hq s, rfl⟩

/-- With all going well, each run starts its utility with the password that it was given. -/
theorem password_stays_secret_obliging :
    let a : Archiver := ⟨⟨.ofConfig {} {} defaultDumpProgram, "/tmp"⟩, "archives", false⟩
    let r : Restorer := ⟨"archives", .ofConfig {} {} defaultRestoreProgram⟩
    let key := Key.mint .epoch
    let p : Secret := ⟨"correct horse"⟩
    let q : Secret := ⟨"battery staple"⟩
    let h := obliging false
    Host.hasNul p.value = false ∧ Host.hasNul q.value = false ∧
      commands (a.run.course (entrusted h p) ()) = [a.dump.command "/staged" (some p)] ∧
      commands (a.run.course (entrusted h q) ()) = [a.dump.command "/staged" (some q)] ∧
      (a.run.run (entrusted h p) ()).1 = .ok key ∧
      KeepsSecret h () a.run p q ∧ KeepsSecret h () (r.run key) p q ∧
      Secret.shownOption (some p) = Secret.shownOption (some q) := by
  intro a r key p q h
  exact ⟨by decide, by decide, by decide +kernel, by decide +kernel, by decide +kernel,
    password_stays_secret h () a r key (by decide) (by decide)⟩

end DumpVault
