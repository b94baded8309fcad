import DumpVault.Proofs.World
import DumpVault.Run.Dump

/-!
# What a dump leaves behind

The dump utility is alone with its staging file. A dump that succeeds hands on the path of a file
that holds, if it is still there, all that the utility has written; the store has not been touched.
-/
namespace DumpVault
open Prog World

variable {S : Setting} {w w' : World} {path : String} {d : Dump}

theorem only_putDown : Utility.putDown.Only isTending := by
  refine only_ask_bind trivial fun r => ?_
  cases r with
  | error fault => exact only_ask trivial
  | ok =>
    refine only_ask_bind trivial fun r => ?_
    cases r with
    | error fault => exact only_ask trivial
    | ok status => exact only_pure ()

theorem only_prepare (u : Utility) (args : List String) (password : Option Secret)
    (streams : Streams) : (u.prepare args password streams).Only isTending :=
  only_ask_bind trivial fun _ => only_pure _

theorem only_leave (path : String) (fault : Fault) : (Dump.leave path fault).Only isTending :=
  only_ask_bind trivial fun _ => only_pure _

theorem only_runInto (d : Dump) (path : String) (password : Option Secret) :
    (d.runInto path password).Only isCalm := by
  have hleave : ∀ fault, (Dump.leave path fault).Only isCalm := fun fault =>
    (only_leave path fault).mono isCalm_of_tending
  refine only_bind ((only_prepare _ _ _ _).mono isCalm_of_tending) fun command => ?_
  refine only_ask_bind trivial fun spawned => ?_
  cases spawned with
  | error fault => exact hleave _
  | ok captured =>
    refine only_ask_bind trivial fun waited => ?_
    cases waited with
    | exited status =>
      dsimp only
      split
      · exact only_ask_bind trivial fun _ => only_pure _
      · exact hleave _
    | failed fault => exact hleave _
    | interrupted =>
      exact only_bind (only_putDown.mono isCalm_of_tending) fun _ => hleave _

theorem only_stage (d : Dump) : d.stage.Only isCalm := by
  refine only_ask_bind trivial fun created => ?_
  cases created with
  | error fault => exact only_pure _
  | ok path =>
    refine only_ask_bind trivial fun _ => only_ask_bind trivial fun password => ?_
    cases password with
    | error fault => exact (only_leave _ _).mono isCalm_of_tending
    | ok password => exact only_runInto _ _ _

theorem leave_error {fault : Fault} {r : Except Fault String}
    (h : Runs S w (Dump.leave path fault) r w') : r = .error fault := by
  have h := runs_log_bind.mp h
  exact (runs_pure.mp h).1

/-- A utility that was run into a file and succeeded has written what the file holds. -/
theorem runInto_dumps {password : Option Secret} {r : Except Fault String}
    (h : Runs S w (d.runInto path password) r w') : ∀ p, r = .ok p → p = path ∧
      ∀ content, w'.host.content? path = some content → content = w'.pipes.output := by
  obtain ⟨command, w₁, hprepare, h₁⟩ := runs_bind.mp h
  have hprepare := runs_log_bind.mp hprepare
  obtain ⟨rfl, rfl⟩ := runs_pure.mp hprepare
  obtain ⟨spawned, w₂, hspawn, h₂⟩ := runs_ask_bind.mp h₁
  intro p hp
  cases spawned with
  | error fault =>
    rw [leave_error h₂] at hp
    cases hp
  | ok captured =>
    obtain ⟨waited, w₃, hwait, h₃⟩ := runs_ask_bind.mp h₂
    cases waited with
    | failed fault =>
      rw [leave_error h₃] at hp
      cases hp
    | interrupted =>
      obtain ⟨_, w₄, _, h₄⟩ := runs_bind.mp h₃
      rw [leave_error h₄] at hp
      cases hp
    | exited status =>
      dsimp only at h₃
      split at h₃
      · have h₃ := runs_log_bind.mp h₃
        obtain ⟨rfl, rfl⟩ := runs_pure.mp h₃
        refine ⟨(Except.ok.inj hp).symm, fun content hcontent => ?_⟩
        have houtlet : w₂.pipes.outlet = some path := Acts.outlet hspawn
        exact Acts.output hwait path content houtlet hcontent
      · rw [leave_error h₃] at hp
        cases hp

/-- A dump that succeeds hands on the path of its own staging file, which holds what the utility has
written or is gone. -/
theorem stage_path {r : Except Fault String} (h : Runs S w d.stage r w') :
    ∀ path, r = .ok path → S.staging (.named w.host.cwd path) ∧
      ∀ content, w'.host.content? path = some content → content = w'.pipes.output := by
  intro path hpath
  obtain ⟨created, w₁, hcreated, h₁⟩ := runs_ask_bind.mp h
  cases created with
  | error fault =>
    obtain ⟨rfl, _⟩ := runs_pure.mp h₁
    cases hpath
  | ok staged =>
    have h₁ := runs_log_bind.mp h₁
    obtain ⟨password, w₂, hpassword, h₂⟩ := runs_ask_bind.mp h₁
    cases password with
    | error fault =>
      rw [leave_error h₂] at hpath
      cases hpath
    | ok password =>
      obtain ⟨rfl, houtput⟩ := runInto_dumps h₂ path hpath
      exact ⟨hcreated.1, houtput⟩

theorem stage_dumps {r : Except Fault String} (hg : Guarded S w.host.vault)
    (h : Runs S w d.stage r w') : Steady w w' ∧ ∀ path, r = .ok path →
      S.staging (.named w'.host.cwd path) ∧
        ∀ content, w'.host.content? path = some content → content = w'.pipes.output := by
  have hsteady := steady_of_only hg (only_stage d) h
  refine ⟨hsteady, fun path hpath => ?_⟩
  rw [hsteady.cwd]
  exact stage_path h path hpath

theorem removeFile_answers {r : Except IoFault Unit} (h : w.Answers S (.removeFile path) r w') :
    w'.pipes = w.pipes ∧ w'.host.vault = w.host.vault ∧ w'.host.cwd = w.host.cwd ∧
      ∀ l, l ≠ .named w.host.cwd path → w'.host.files.at? l = w.host.files.at? l := by
  rcases h with ⟨_, rfl⟩ | ⟨_, rfl⟩
  · have hafter : (w.after (.removeFile path)).host = (w.host.removeFile path).2 := rfl
    rw [hafter, Host.removeFile]
    cases hremove : w.host.files.removeFile w.host.cwd path with
    | error fault => exact ⟨rfl, rfl, rfl, fun _ _ => rfl⟩
    | ok files =>
      refine ⟨rfl, rfl, rfl, fun l hl => ?_⟩
      rw [FileTree.removeFile_ok hremove]
      exact FileTree.at?_erase_of_ne _ hl
  · exact ⟨rfl, rfl, rfl, fun _ _ => rfl⟩

theorem removeFile_steady {r : Except IoFault Unit} (hg : Guarded S w.host.vault)
    (hstaging : S.staging (.named w.host.cwd path))
    (h : w.Answers S (.removeFile path) r w') : Steady w w' ∧ w'.pipes = w.pipes := by
  obtain ⟨hpipes, hvault, hcwd, hfiles⟩ := removeFile_answers h
  refine ⟨⟨hvault, hcwd, fun l hl => hfiles l ?_⟩, hpipes⟩
  rintro rfl
  exact hg.apart _ hstaging hl

end DumpVault
