import DumpVault.Proofs.Feeding
import DumpVault.Proofs.Parts
import DumpVault.Proofs.Publishing
import DumpVault.Proofs.Uploads

/-!
# Runs that spare what lies around their store

A run through a store in a directory changes files in that directory. Around it directories may come
where nothing was; what utilities do is their own affair, and so are the staging files that a dump
makes and removes.
-/
namespace DumpVault
open Prog World

variable {S : Setting} {w w' u : World} {base : Location}

/-- The store has stayed in its directory, and around it no file that utilities leave alone and no
staging is made at has changed. -/
structure Spares (S : Setting) (base : Location) (w w' : World) : Prop where
  bound : w'.host.vault.IsBound base
  cwd : w'.host.cwd = w.host.cwd
  files : ∀ l, S.kept l → ¬ S.staging l → ¬ base <+: l →
    w'.host.files.at? l = w.host.files.at? l ∨
      (w.host.files.at? l = none ∧ w'.host.files.at? l = some .directory)

theorem Spares.refl (hv : w.host.vault.IsBound base) : Spares S base w w :=
  ⟨hv, rfl, fun _ _ _ _ => .inl rfl⟩

theorem Spares.trans (h : Spares S base w w') (h' : Spares S base w' u) : Spares S base w u := by
  refine ⟨h'.bound, h'.cwd.trans h.cwd, fun l hkept hstaging hl => ?_⟩
  rcases h.files l hkept hstaging hl with heq | ⟨hnone, hdir⟩
  · rw [← heq]
    exact h'.files l hkept hstaging hl
  · rcases h'.files l hkept hstaging hl with heq | ⟨hnone', _⟩
    · exact .inr ⟨hnone, heq.trans hdir⟩
    · rw [hdir] at hnone'
      cases hnone'

theorem spares_after (hv : w.host.vault.IsBound base) {c : Call} (hc : c.isOfStore) :
    Spares S base w (w.after c) := by
  obtain ⟨hbound, hcwd, hwithin⟩ := Host.answer_within hv hc
  refine ⟨hbound, hcwd, fun l _ _ hl => ?_⟩
  rcases hwithin l hl with heq | ⟨hnone, hdir, _⟩
  · exact .inl heq
  · exact .inr ⟨hnone, hdir⟩

theorem World.Acts.spares (hv : w.host.vault.IsBound base) (h : Acts S u w')
    (hhost : u.host = w.host) : Spares S base w w' := by
  refine ⟨?_, ?_, fun l hkept _ _ => .inl ?_⟩
  · rw [h.vault, hhost]
    exact hv
  · rw [h.cwd, hhost]
  · rw [h.kept l hkept, hhost]

/-- The calls that neither remove a file nor open another store. -/
def isSparing : Call → Prop
  | .removeFile _ | .connect _ => False
  | _ => True

theorem isSparing_of_calm {c : Call} (hc : isCalm c) : isSparing c := by
  cases c with
  | removeFile | connect => exact hc.elim
  | _ => trivial

theorem isSparing_of_store {c : Call} (hc : c.isOfStore) : isSparing c := by
  cases c with
  | removeFile | connect => exact hc.elim
  | _ => trivial

/-- A call of the store is refused or served by the machine. -/
theorem answers_of_store {c : Call} {r : Reply c} (hc : c.isOfStore) (h : w.Answers S c r w') :
    w' = w ∨ w' = w.after c := by
  cases c with
  | log | isCancelled | pause | stall | now | temporaryDir | print => exact .inl h
  | password | createStaging | openFile | readFile | removeFile | connect | spawn | offer
  | closeInput | wait | kill | reap => exact hc.elim
  | «exists» | list | openWriter =>
    rcases h with ⟨_, h⟩ | ⟨_, h⟩
    · exact .inr h
    · exact .inl h
  | openReader =>
    rcases h with ⟨h, _⟩ | ⟨_, h⟩
    · exact .inr h
    · exact .inl h
  | write =>
    cases r with
    | accepted => exact .inr h.2
    | failed | interrupted => exact h
  | finalize | abort =>
    cases r with
    | ok => exact .inr h.2
    | error fault => exact h

theorem spares_of_sparing (hv : w.host.vault.IsBound base) {c : Call} {r : Reply c}
    (hc : isSparing c) (h : w.Answers S c r w') : Spares S base w w' := by
  have hstore : c.isOfStore → Spares S base w w' := by
    intro hc
    rcases answers_of_store hc h with rfl | rfl
    · exact .refl hv
    · exact spares_after hv hc
  have haside : isAside c → Spares S base w w' := by
    intro hc
    rcases answers_aside hc h with rfl | ⟨path, hstaging, _, rfl⟩ | ⟨u, hhost, hacts⟩
    · exact .refl hv
    · refine ⟨hv, rfl, fun l _ hl _ => .inl (FileTree.at?_put_of_ne _ _ ?_)⟩
      rintro rfl
      exact hl hstaging
    · exact hacts.spares hv hhost
  cases c with
  | removeFile | connect => exact hc.elim
  | «exists» | list | openWriter | openReader | write | finalize | abort => exact hstore trivial
  | _ => exact haside trivial

theorem spares_of_only {α : Type} {p : Prog α} {a : α} (hv : w.host.vault.IsBound base)
    (hp : p.Only isSparing) (h : Runs S w p a w') : Spares S base w w' := by
  induction h with
  | pure => exact .refl hv
  | call hr _ ih =>
    have hfirst := spares_of_sparing hv hp.1 hr
    exact hfirst.trans (ih hfirst.bound (hp.2 _))

/-- A run of store calls changes files in the directory of its store only. -/
theorem changedWithin_of_only {α : Type} {p : Prog α} {a : α} (hv : w.host.vault.IsBound base)
    (hp : p.Only Call.isOfStore) (h : Runs S w p a w') :
    FileTree.ChangedWithin base w.host.files w'.host.files := by
  induction h with
  | pure => exact .refl _ _
  | call hr _ ih =>
    rcases answers_of_store hp.1 hr with rfl | rfl
    · exact ih hv (hp.2 _)
    · obtain ⟨hbound, _, hwithin⟩ := Host.answer_within hv hp.1
      exact hwithin.trans (ih hbound (hp.2 _))

theorem removeFile_spares {path : String} {r : Except IoFault Unit}
    (hv : w.host.vault.IsBound base) (hstaging : S.staging (.named w.host.cwd path))
    (h : w.Answers S (.removeFile path) r w') : Spares S base w w' := by
  obtain ⟨_, hvault, hcwd, hfiles⟩ := removeFile_answers h
  refine ⟨hvault ▸ hv, hcwd, fun l _ hl _ => .inl (hfiles l ?_)⟩
  rintro rfl
  exact hl hstaging

theorem isSparing_of_upload {c : Call} (hc : c.isUpload) : isSparing c := by
  cases c with
  | removeFile | connect => exact hc.elim
  | _ => trivial

theorem cleanUp_spares {a : Archiver} {path : String} (hv : w.host.vault.IsBound base)
    (hstaging : S.staging (.named w.host.cwd path)) (h : Runs S w (a.cleanUp path) () w') :
    Spares S base w w' := by
  rw [Archiver.cleanUp] at h
  split at h
  · refine spares_of_only hv ?_ h
    exact only_ask trivial
  · obtain ⟨r, w₁, hremove, h₁⟩ := runs_ask_bind.mp h
    have hfirst := removeFile_spares hv hstaging hremove
    refine hfirst.trans (spares_of_only hfirst.bound ?_ h₁)
    cases r with
    | ok => exact only_pure _
    | error fault => exact only_ask trivial

/-- An archive run spares what lies around its store; the file that it removes is its own. -/
theorem archive_spares {a : Archiver} {r : Except Fault Key} (hv : w.host.vault.IsBound base)
    (h : Runs S w a.run r w') : Spares S base w w' := by
  have hdumped : ∀ {dumped : Except Fault String} {u : World}, Runs S w a.dump.stage dumped u →
      Spares S base w u :=
    spares_of_only hv ((only_stage _).mono fun _ => isSparing_of_calm)
  have huploaded : ∀ {dumped : Except Fault String} {path : String} {uploaded : Except Fault Key}
      {u v : World}, Runs S w a.dump.stage dumped u → Runs S u (upload a.bucket path) uploaded v →
      Spares S base w v :=
    fun hdump hupload =>
      (hdumped hdump).trans (spares_of_only (hdumped hdump).bound
        ((only_upload _ _).mono fun _ => isSparing_of_upload) hupload)
  cases archives_of_run h with
  | cutBeforeDump fault => exact .refl hv
  | undumped hdump => exact hdumped hdump
  | cutBeforeUpload fault hdump => exact hdumped hdump
  | unstored hdump hupload => exact huploaded hdump hupload
  | @stored path w₁ w₂ _ key hdump hupload hclean =>
    have hspares := huploaded hdump hupload
    have hpath := (stage_path hdump path rfl).1
    exact hspares.trans (cleanUp_spares hspares.bound (hspares.cwd ▸ hpath) hclean)

end DumpVault
