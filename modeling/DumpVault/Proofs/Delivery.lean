import DumpVault.Proofs.Along
import DumpVault.Proofs.Secrecy
import DumpVault.Proofs.Secrets

/-!
# How the password reaches a utility

A utility that is started has the environment of the program with the secret in the password's
variable. A secret that cannot stand there keeps the utility from being started, but a variable whose
value is not text is taken for one that is not set.
-/
namespace DumpVault
open Prog

/-- On a machine with this environment, whose files are these when the password is asked for: how it
answers what has to do with the password. -/
def Prog.Step.AnsweredOn (environment : Environment) (files : FileTree) (cwd : Location) : Step → Prop
  | ⟨.password source, reply⟩ => reply = source.password environment files cwd
  | ⟨.spawn command, reply⟩ =>
    (∃ secret, command.password = some secret ∧ Host.hasNul secret.value = true) →
      reply = .error Host.nulFault
  | _ => True

/-- The steps that have to do with the password. -/
def secretSteps (steps : List Step) : List Step := steps.filter fun s => !s.call.isPublic

/-- The steps of a stage that have to do with the password: it starts its utility with the password
that it was given, or fails. -/
inductive PassesOn {α : Type} (source : SecretSource) : List Step → Except Fault α → Prop
  | idle (fault : Fault) : PassesOn source [] (.error fault)
  | refused (own fault : Fault) : PassesOn source [⟨.password source, .error own⟩] (.error fault)
  | unstarted (command : Command) (own : IoFault) (fault : Fault) :
      PassesOn source
        [⟨.password source, .ok command.password⟩, ⟨.spawn command, .error own⟩] (.error fault)
  | started (command : Command) (captured : Bool) (result : Except Fault α) :
      PassesOn source
        [⟨.password source, .ok command.password⟩, ⟨.spawn command, .ok captured⟩] result

section Stages
variable {u : Utility} {archive : Source} {d : Dump} {steps more : List Step} {s : Step}

@[simp] theorem secretSteps_nil : secretSteps [] = [] := rfl

@[simp] theorem secretSteps_append :
    secretSteps (steps ++ more) = secretSteps steps ++ secretSteps more := List.filter_append ..

@[simp] theorem secretSteps_line {line : Line} :
    secretSteps (.line line :: steps) = secretSteps steps := rfl

theorem secretSteps_cons_of_public (h : s.call.isPublic = true) :
    secretSteps (s :: steps) = secretSteps steps := by
  simp [secretSteps, h]

theorem secretSteps_cons_of_secret (h : s.call.isPublic = false) :
    secretSteps (s :: steps) = s :: secretSteps steps := by
  simp [secretSteps, h]

theorem secretSteps_eq_nil (h : ∀ s ∈ steps, s.call.isPublic = true) : secretSteps steps = [] := by
  simpa [secretSteps] using h

theorem mem_secretSteps (h : s.call.isPublic = false) : s ∈ secretSteps steps ↔ s ∈ steps := by
  simp [secretSteps, h]

@[simp] theorem secretSteps_logSteps {lines : List Line} : secretSteps (logSteps lines) = [] := by
  refine secretSteps_eq_nil fun s hs => ?_
  obtain ⟨line, _, rfl⟩ := mem_logSteps.mp hs
  rfl

theorem Utility.PutDown.secretSteps_eq (h : Utility.PutDown steps) : secretSteps steps = [] := by
  cases h <;> rfl

theorem Fed.secretSteps_eq {ending : Ending} {total : Nat} {chunks : List ByteArray} {fed : FeedEnd}
    (h : Fed ending total chunks steps fed) : secretSteps steps = [] := by
  refine secretSteps_eq_nil fun s hs => ?_
  have hfeeding := h.feeding s hs
  cases hc : s.call with
  | password | spawn =>
    rw [hc] at hfeeding
    cases hfeeding
  | _ => rfl

theorem Restore.Feeding.secretSteps_eq {r : Except Fault Unit}
    (h : Restore.Feeding u archive steps r) : secretSteps steps = [] := by
  cases h with
  | cutInFeed feed killed =>
    rw [secretSteps_append, feed.secretSteps_eq, killed.secretSteps_eq, List.append_nil]
  | cutInWait closed feed ended killed =>
    rw [secretSteps_append, feed.secretSteps_eq, secretSteps_cons_of_public rfl,
      secretSteps_cons_of_public rfl, killed.secretSteps_eq, List.append_nil]
  | settled closed waited feed ended gone =>
    rw [secretSteps_append, feed.secretSteps_eq, secretSteps_cons_of_public rfl,
      secretSteps_cons_of_public rfl, secretSteps_logSteps, List.append_nil]

theorem Restore.Course.passesOn {r : Except Fault Unit} (h : Restore.Course u archive steps r) :
    PassesOn u.password (secretSteps steps) r := by
  have hopening : ∀ password, secretSteps (opening u password) =
      [⟨.password u.password, .ok password⟩] := fun _ => rfl
  cases h with
  | refused fault => exact .refused fault fault
  | unstarted password fault => exact .unstarted (command u password) fault _
  | uncaptured password killed =>
    rw [secretSteps_append, hopening, secretSteps_cons_of_secret rfl, killed.secretSteps_eq]
    exact .started (command u password) false _
  | fed password feed =>
    rw [secretSteps_append, hopening, secretSteps_cons_of_secret rfl, feed.secretSteps_eq]
    exact .started (command u password) true _

theorem Dump.Course.passesOn {r : Except Fault String} (h : d.Course steps r) :
    PassesOn d.utility.password (secretSteps steps) r := by
  have hopening : ∀ {path : String} {password : Option Secret} {utility : List Step} {line : Line},
      secretSteps (d.opening path password ++ (utility ++ [.line line])) =
        ⟨.password d.utility.password, .ok password⟩ :: secretSteps utility := by
    intro path password utility line
    have hfirst : secretSteps (d.opening path password) =
        [⟨.password d.utility.password, .ok password⟩] := rfl
    rw [secretSteps_append, hfirst, secretSteps_append, secretSteps_line, secretSteps_nil,
      List.append_nil, List.singleton_append]
  cases h with
  | uncreated fault => exact .idle _
  | refused path fault => exact .refused fault fault
  | failed path password ends =>
    rw [hopening]
    cases ends with
    | unstarted fault => exact .unstarted (d.command path password) fault _
    | lost captured fault => exact .started (d.command path password) captured _
    | failed captured status => exact .started (d.command path password) captured _
    | overtaken captured killed =>
      rw [secretSteps_cons_of_secret rfl, secretSteps_cons_of_public rfl, killed.secretSteps_eq]
      exact .started (d.command path password) captured _
  | dumped path password ends =>
    rw [hopening]
    cases ends with
    | succeeded captured status => exact .started (d.command path password) captured _

end Stages

namespace PassesOn
variable {α : Type} {source : SecretSource} {told : List Step} {result : Except Fault α}

theorem given (h : PassesOn source told result) {command : Command} {reply : Except IoFault Bool}
    (hmem : ⟨.spawn command, reply⟩ ∈ told) : ⟨.password source, .ok command.password⟩ ∈ told := by
  cases h <;> simp_all

theorem fails (h : PassesOn source told result)
    (hnone : ∀ command captured, ⟨.spawn command, .ok captured⟩ ∉ told) :
    ∃ fault, result = .error fault := by
  cases h with
  | idle fault | refused _ fault | unstarted _ _ fault => exact ⟨fault, rfl⟩
  | started command captured => exact absurd (by simp) (hnone command captured)

/-- No source is asked but this one, and this one once at most. -/
theorem asks (h : PassesOn source told result) : ∃ reply, ∀ other r,
    (⟨.password other, r⟩ : Step) ∈ told → (⟨.password other, r⟩ : Step) = ⟨.password source, reply⟩ := by
  cases h with
  | idle => exact ⟨.ok none, by simp⟩
  | refused own => exact ⟨.error own, by simp⟩
  | unstarted command | started command => exact ⟨.ok command.password, by simp⟩

end PassesOn

/-- How a stage delivers the secret of a source to its utility. -/
structure Delivered {α : Type} (source : SecretSource) (environment : Environment)
    (files : FileTree) (cwd : Location) (steps : List Step) (result : Except Fault α) : Prop where
  /-- The environment of a utility that is started is that of the program, the password's variable
  apart. -/
  others : ∀ {command captured}, ⟨.spawn command, .ok captured⟩ ∈ steps →
    (environment.forUtility command.password).unset passwordVariable =
      environment.unset passwordVariable
  /-- The variable holds the secret as it is, or is not set where there is none, if the secret is
  text. -/
  verbatim_iff : ∀ {command captured}, ⟨.spawn command, .ok captured⟩ ∈ steps →
    ((environment.forUtility command.password).values passwordVariable =
        (source.held? environment files cwd).toList ↔
      ∀ value, source.held? environment files cwd = some value → value.IsValidUTF8)
  /-- A variable whose value is not text is dropped. -/
  dropped : ∀ {command captured value}, ⟨.spawn command, .ok captured⟩ ∈ steps →
    source.held? environment files cwd = some value → ¬ value.IsValidUTF8 →
    (∃ var, source = .env var) ∧
      (environment.forUtility command.password).values passwordVariable = []
  /-- What counts as the secret of a variable is what the variable holds. -/
  named : ∀ {var}, source = .env var → environment.IsPlain → Environment.IsPlainName var →
    source.held? environment files cwd = (environment.values var).head?
  /-- A secret that does not fit makes the stage fail, and no utility is started. -/
  withheld : source.Unfit environment files cwd →
    (∀ command captured, ⟨.spawn command, .ok captured⟩ ∉ steps) ∧ ∃ fault, result = .error fault

section Delivered
variable {α : Type} {source : SecretSource} {environment : Environment} {files : FileTree}
  {cwd : Location} {steps : List Step} {result : Except Fault α}

theorem PassesOn.delivered (h : PassesOn source (secretSteps steps) result)
    (hmachine : ∀ s ∈ steps, s.AnsweredOn environment files cwd) :
    Delivered source environment files cwd steps result := by
  have hgiven : ∀ {command reply}, ⟨.spawn command, reply⟩ ∈ steps →
      source.password environment files cwd = .ok command.password := by
    intro command reply hmem
    have hasked := h.given ((mem_secretSteps rfl).mpr hmem)
    exact (hmachine _ ((mem_secretSteps rfl).mp hasked)).symm
  have hdropped : ∀ {command captured value}, ⟨.spawn command, .ok captured⟩ ∈ steps →
      source.held? environment files cwd = some value → ¬ value.IsValidUTF8 →
      (∃ var, source = .env var) ∧
        (environment.forUtility command.password).values passwordVariable = [] := by
    intro command captured value hmem hheld htext
    obtain ⟨hvar, hnone⟩ := SecretSource.password_of_not_text (hgiven hmem) hheld htext
    exact ⟨hvar, by rw [Environment.values_forUtility, hnone]; rfl⟩
  have hwithheld : source.Unfit environment files cwd →
      ∀ command captured, ⟨.spawn command, .ok captured⟩ ∉ steps := by
    intro hunfit command captured hmem
    have hnul := SecretSource.password_of_unfit (hgiven hmem) hunfit
    have hreply : (.ok captured : Except IoFault Bool) = .error Host.nulFault :=
      hmachine _ hmem hnul
    cases hreply
  refine ⟨fun _ => Environment.unset_forUtility _, fun hmem => ⟨fun hvalues => ?_, fun htext => ?_⟩,
    hdropped, ?_, fun hunfit => ⟨hwithheld hunfit, h.fails fun command captured hmem => ?_⟩⟩
  · intro value hheld
    refine Decidable.byContradiction fun htext => ?_
    rw [(hdropped hmem hheld htext).2, hheld] at hvalues
    cases hvalues
  · rw [Environment.values_forUtility, SecretSource.password_of_text (hgiven hmem) htext]
  · rintro var rfl hplain hname
    exact Environment.get?_eq_head?_values hplain hname
  · exact hwithheld hunfit command captured ((mem_secretSteps rfl).mp hmem)

end Delivered

theorem Host.answer_around (c : Call) (h : Host) :
    (Host.answer c h).2.environment = h.environment ∧ (Host.answer c h).2.cwd = h.cwd := by
  have hoverflow : ∀ (h : Host) (c : Child),
      (h.overflow c).2.environment = h.environment ∧ (h.overflow c).2.cwd = h.cwd := by
    intro h c
    rw [Host.overflow]
    dsimp only
    split <;> exact ⟨rfl, rfl⟩
  cases c with
  | createStaging | removeFile | connect | spawn | wait =>
    simp only [Host.answer, Host.createStaging, Host.removeFile, Host.connect, Host.spawn, Host.wait]
    repeat' split
    all_goals exact ⟨rfl, rfl⟩
  | offer chunk =>
    simp only [Host.answer, Host.offer]
    split
    · exact ⟨rfl, rfl⟩
    · split
      · exact hoverflow _ _
      · exact ⟨rfl, rfl⟩
  | _ => exact ⟨rfl, rfl⟩

theorem Host.answeredOn (c : Call) (h : Host) :
    (⟨c, (Host.answer c h).1⟩ : Step).AnsweredOn h.environment h.files h.cwd := by
  cases c with
  | password source => exact rfl
  | spawn command =>
    rintro ⟨secret, hpassword, hnul⟩
    simp [Host.answer, Host.spawn, hpassword, hnul]
  | _ => exact trivial

/-- On a machine a stage is answered from the machine's environment and from the files that there are
when the password is asked for. -/
theorem PassesOn.exists_answeredOn {α β : Type} {p : Prog β} {source : SecretSource}
    {result : Except Fault α} {h : Host}
    (hpass : PassesOn source (secretSteps (p.course Host.answer h)) result) :
    ∃ files, ∀ s ∈ p.course Host.answer h, s.AnsweredOn h.environment files h.cwd := by
  have hseen : ∀ s ∈ p.course Host.answer h, ∃ g : Host,
      s.AnsweredOn h.environment g.files h.cwd := by
    intro s hs
    obtain ⟨g, ⟨henvironment, hcwd⟩, hstep⟩ := exists_of_mem_course_of
      (P := fun g => g.environment = h.environment ∧ g.cwd = h.cwd)
      (fun c g hg => ⟨(Host.answer_around c g).1.trans hg.1, (Host.answer_around c g).2.trans hg.2⟩)
      ⟨rfl, rfl⟩ hs
    refine ⟨g, ?_⟩
    rw [hstep, ← henvironment, ← hcwd]
    exact Host.answeredOn s.call g
  obtain ⟨reply, hasks⟩ := hpass.asks
  -- the files that count are those of the one step in which the password is asked for
  obtain ⟨files, hfiles⟩ : ∃ files, ∀ other r, (⟨.password other, r⟩ : Step) ∈ p.course Host.answer h →
      (⟨.password other, r⟩ : Step).AnsweredOn h.environment files h.cwd := by
    by_cases hasked : ⟨.password source, reply⟩ ∈ p.course Host.answer h
    · obtain ⟨g, hg⟩ := hseen _ hasked
      refine ⟨g.files, fun other r hmem => ?_⟩
      rwa [hasks other r ((mem_secretSteps rfl).mpr hmem)]
    · refine ⟨h.files, fun other r hmem => absurd ?_ hasked⟩
      rwa [← hasks other r ((mem_secretSteps rfl).mpr hmem)]
  refine ⟨files, fun s hs => ?_⟩
  obtain ⟨c, r⟩ := s
  obtain ⟨g, hg⟩ := hseen _ hs
  cases c with
  | password other => exact hfiles other r hs
  | spawn command => exact hg
  | _ => exact trivial

/-- The password reaches both utilities as it is or not at all, but for a variable that is not
text. -/
theorem password_delivered {d : Dump} {u : Utility} {archive : Source}
    {dumping restoring : List Step} {dumped : Except Fault String} {restored : Except Fault Unit}
    (hdump : Yields d.stage dumping dumped)
    (hrestore : Yields (Restore.apply u archive) restoring restored) :
    (∀ environment files cwd, (∀ s ∈ dumping, s.AnsweredOn environment files cwd) →
      Delivered d.utility.password environment files cwd dumping dumped) ∧
    (∀ environment files cwd, (∀ s ∈ restoring, s.AnsweredOn environment files cwd) →
      Delivered u.password environment files cwd restoring restored) :=
  ⟨fun _ _ _ => (Dump.course_of_yields hdump).passesOn.delivered,
    fun _ _ _ => (Restore.course_of_yields hrestore).passesOn.delivered⟩

/-- What the password's variable holds for each utility that is started. -/
def handed (environment : Environment) (steps : List Step) : List (List ByteArray) :=
  steps.filterMap fun
    | ⟨.spawn command, .ok _⟩ =>
      some ((environment.forUtility command.password).values passwordVariable)
    | _ => none

/-- A machine with a password in a variable, another one in a file, and one that is not text in the
password's own variable. -/
def keyed : Host where
  files := ⟨[(["pw"], .file "pa\r\nss\r\n\n".toUTF8)]⟩
  cwd := []
  environment := ⟨[("PGPASSWORD".toUTF8, ⟨#[0x70, 0xff, 0x77]⟩), ("APP_PW".toUTF8, "s3cr3t".toUTF8)]⟩

def utilityWith (source : SecretSource) : Utility :=
  ⟨"db1", "app", "backup", "sh", ["-c", "true"], source⟩

/-- The variable's value and the file's line are handed over, whatever the password's variable held
before. -/
theorem password_delivered_keyed :
    let d : Dump := ⟨utilityWith (.env "APP_PW"), "/"⟩
    let u := utilityWith (.file "/pw")
    let archive : Source := .ofBytes ⟨#[1]⟩
    let dumping := d.stage.course Host.answer keyed
    let restoring := (Restore.apply u archive).course Host.answer keyed
    let dumped := (d.stage.run Host.answer keyed).1
    let restored := ((Restore.apply u archive).run Host.answer keyed).1
    Yields d.stage dumping dumped ∧ Yields (Restore.apply u archive) restoring restored ∧
      handed keyed.environment dumping = [["s3cr3t".toUTF8]] ∧
      handed keyed.environment restoring = [["pa\r\nss".toUTF8]] ∧
      (∃ files, Delivered d.utility.password keyed.environment files [] dumping dumped) ∧
      ∃ files, Delivered u.password keyed.environment files [] restoring restored := by
  intro d u archive dumping restoring dumped restored
  have hdump : Yields d.stage dumping dumped := yields_course Host.answer d.stage keyed
  have hrestore : Yields (Restore.apply u archive) restoring restored :=
    yields_course Host.answer (Restore.apply u archive) keyed
  obtain ⟨hdelivered, hdelivered'⟩ := password_delivered hdump hrestore
  obtain ⟨files, hfiles⟩ := (Dump.course_of_yields hdump).passesOn.exists_answeredOn
  obtain ⟨files', hfiles'⟩ := (Restore.course_of_yields hrestore).passesOn.exists_answeredOn
  exact ⟨hdump, hrestore, by decide +kernel, by decide +kernel, ⟨files, hdelivered _ _ _ hfiles⟩,
    files', hdelivered' _ _ _ hfiles'⟩

/-- A password that is set but is not text is not handed over, and yet the utility is started and
the dump is taken. -/
theorem password_not_text_dropped :
    let d : Dump := ⟨utilityWith (.env "PGPASSWORD"), "/"⟩
    d.utility.password.held? keyed.environment keyed.files keyed.cwd = some ⟨#[0x70, 0xff, 0x77]⟩ ∧
      handed keyed.environment (d.stage.course Host.answer keyed) = [[]] ∧
      (d.stage.run Host.answer keyed).1.isOk = true := by
  refine ⟨by decide +kernel, by decide +kernel, by decide +kernel⟩

end DumpVault
