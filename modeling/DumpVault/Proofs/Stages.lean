import DumpVault.Proofs.World
import DumpVault.Run.Pipeline

/-!
# The ends of a pipeline

A run is cut off before a stage, fails in it or goes on to the next one. `Archives` and `Restores`
say how far a run has come and what its stages have done in turn.
-/
namespace DumpVault
open Prog World

variable {S : Setting} {w w' : World}

theorem enterStage_same {stage : Stage} {r : Except Fault Unit}
    (h : Runs S w (enterStage stage) r w') : w' = w := by
  obtain ⟨cut, w₁, hcut, h₁⟩ := runs_ask_bind.mp h
  obtain rfl : w₁ = w := hcut
  cases cut <;> exact (runs_pure.mp h₁).2

/-- The ends of an archive run. -/
inductive Archives (S : Setting) (a : Archiver) (w : World) : Except Fault Key → World → Prop
  | cutBeforeDump (fault : Fault) : Archives S a w (.error fault) w
  | undumped {fault : Fault} {w' : World} (dump : Runs S w a.dump.stage (.error fault) w') :
      Archives S a w (.error (fault.inStage .dump)) w'
  | cutBeforeUpload {path : String} {w' : World} (fault : Fault)
      (dump : Runs S w a.dump.stage (.ok path) w') : Archives S a w (.error fault) w'
  | unstored {path : String} {w₁ w' : World} {fault : Fault}
      (dump : Runs S w a.dump.stage (.ok path) w₁)
      (upload : Runs S w₁ (upload a.bucket path) (.error fault) w') :
      Archives S a w (.error (fault.inStage .upload)) w'
  | stored {path : String} {w₁ w₂ w' : World} {key : Key}
      (dump : Runs S w a.dump.stage (.ok path) w₁)
      (upload : Runs S w₁ (upload a.bucket path) (.ok key) w₂)
      (cleaning : Runs S w₂ (a.cleanUp path) () w') : Archives S a w (.ok key) w'

theorem Archives.ofUploadStage {a : Archiver} {path : String} {w₁ : World} {state : ArchiveState}
    {r : Except Fault Key} (hdump : Runs S w a.dump.stage (.ok path) w₁)
    (h : Runs S w₁ (a.uploadStage path) (state, r) w') : Archives S a w r w' := by
  obtain ⟨entered, w₂, henter, h₂⟩ := runs_bind.mp (runs_line_bind.mp h)
  obtain rfl := enterStage_same henter
  cases entered with
  | error fault =>
    obtain ⟨_, rfl, rfl⟩ := runs_pure_pair.mp h₂
    exact .cutBeforeUpload fault hdump
  | ok =>
    obtain ⟨uploaded, w₃, hupload, h₃⟩ := runs_bind.mp h₂
    cases uploaded with
    | error fault =>
      obtain ⟨_, rfl, rfl⟩ := runs_pure_pair.mp h₃
      exact .unstored hdump hupload
    | ok key =>
      obtain ⟨_, w₄, hclean, h₄⟩ := runs_bind.mp h₃
      obtain ⟨_, rfl, rfl⟩ := runs_pure_pair.mp h₄
      exact .stored hdump hupload hclean

theorem archives_of_run {a : Archiver} {r : Except Fault Key} (h : Runs S w a.run r w') :
    Archives S a w r w' := by
  obtain ⟨⟨state, result⟩, w₁, hstages, h₁⟩ := runs_bind.mp h
  have hend := runs_line_bind.mp h₁
  obtain ⟨rfl, rfl⟩ := runs_pure.mp hend
  obtain ⟨entered, w₂, henter, h₂⟩ := runs_bind.mp (runs_line_bind.mp hstages)
  obtain rfl := enterStage_same henter
  cases entered with
  | error fault =>
    obtain ⟨_, rfl, rfl⟩ := runs_pure_pair.mp h₂
    exact .cutBeforeDump fault
  | ok =>
    obtain ⟨dumped, w₃, hdump, h₃⟩ := runs_bind.mp h₂
    cases dumped with
    | error fault =>
      obtain ⟨_, rfl, rfl⟩ := runs_pure_pair.mp h₃
      exact .undumped hdump
    | ok path => exact .ofUploadStage hdump h₃

/-- The ends of a restore run. -/
inductive Restores (S : Setting) (r : Restorer) (key : Key) (w : World) :
    Except Fault Unit → World → Prop
  | cutBeforeFetch (fault : Fault) : Restores S r key w (.error fault) w
  | unfetched {fault : Fault} {w' : World} (fetch : Runs S w (fetch r.bucket key) (.error fault) w') :
      Restores S r key w (.error (fault.inStage .fetch)) w'
  | cutBeforeRestore {archive : Source} {w' : World} (fault : Fault)
      (fetch : Runs S w (fetch r.bucket key) (.ok archive) w') :
      Restores S r key w (.error fault) w'
  | applied {archive : Source} {w₁ w' : World} {result : Except Fault Unit}
      (fetch : Runs S w (fetch r.bucket key) (.ok archive) w₁)
      (apply : Runs S w₁ (Restore.apply r.utility archive) result w') :
      Restores S r key w (tagged .restore result) w'

theorem Restores.ofRestoreStage {r : Restorer} {key : Key} {archive : Source} {w₁ : World}
    {state : RestoreState} {result : Except Fault Unit}
    (hfetch : Runs S w (fetch r.bucket key) (.ok archive) w₁)
    (h : Runs S w₁ (r.restoreStage archive) (state, result) w') : Restores S r key w result w' := by
  obtain ⟨entered, w₂, henter, h₂⟩ := runs_bind.mp (runs_line_bind.mp h)
  obtain rfl := enterStage_same henter
  cases entered with
  | error fault =>
    obtain ⟨_, rfl, rfl⟩ := runs_pure_pair.mp h₂
    exact .cutBeforeRestore fault hfetch
  | ok =>
    obtain ⟨applied, w₃, happly, h₃⟩ := runs_bind.mp h₂
    obtain ⟨_, rfl, rfl⟩ := runs_pure_pair.mp h₃
    exact .applied hfetch happly

theorem restores_of_run {r : Restorer} {key : Key} {result : Except Fault Unit}
    (h : Runs S w (r.run key) result w') : Restores S r key w result w' := by
  obtain ⟨⟨state, result⟩, w₁, hstages, h₁⟩ := runs_bind.mp h
  have hend := runs_line_bind.mp h₁
  obtain ⟨rfl, rfl⟩ := runs_pure.mp hend
  obtain ⟨entered, w₂, henter, h₂⟩ := runs_bind.mp (runs_line_bind.mp hstages)
  obtain rfl := enterStage_same henter
  cases entered with
  | error fault =>
    obtain ⟨_, rfl, rfl⟩ := runs_pure_pair.mp h₂
    exact .cutBeforeFetch fault
  | ok =>
    obtain ⟨fetched, w₃, hfetch, h₃⟩ := runs_bind.mp h₂
    cases fetched with
    | error fault =>
      obtain ⟨_, rfl, rfl⟩ := runs_pure_pair.mp h₃
      exact .unfetched hfetch
    | ok archive => exact .ofRestoreStage hfetch h₃

end DumpVault
