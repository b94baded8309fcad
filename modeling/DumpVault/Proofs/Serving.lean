import DumpVault.Proofs.Custody
import DumpVault.Proofs.Inventory
import DumpVault.Proofs.Publishing
import DumpVault.Proofs.Staging

/-!
# Archive runs on a local store

In a world in which nothing but the run writes into the store, the replies that a run may get are
those of the store's stock, as long as no write is reported to have failed: such a chunk may have
been taken in all the same.
-/
namespace DumpVault
open Prog World

variable {S : Setting} {w w' : World} {cwd : Location} {steps : List Step} {a : Archiver}
  {r : Except Fault Key}

namespace World

def stock (w : World) : Stock StorePath := w.host.vault.stock w.host.files

/-- A reply that a call may get, the files still being a map from places. -/
def Replies (S : Setting) : Effects World :=
  fun w c r w' => w.Answers S c r w' ∧ w'.host.files.IsSingle

/-- Nothing but the store's own writers can touch the store. -/
structure Ready (S : Setting) (cwd : Location) (w : World) : Prop where
  guarded : Guarded S w.host.vault
  tended : w.host.vault.Tended w.host.files
  cwd : w.host.cwd = cwd

/-- Only a staging file is removed, the store is not opened anew and no write is said to fail. -/
def Sure (S : Setting) (cwd : Location) : (c : Call) → Reply c → Prop
  | .connect _, _ => False
  | .removeFile path, _ => S.staging (.named cwd path)
  | .write _ _, .failed _ => False
  | _, _ => True

theorem Ready.steady (h : Ready S cwd w) (hsteady : Steady w w')
    (hsingle : w'.host.files.IsSingle) :
    Ready S cwd w' ∧ w'.stock = w.stock := by
  have htended : w.host.vault.Tended w'.host.files := h.tended.retree hsingle hsteady.ground
  refine ⟨⟨hsteady.vault ▸ h.guarded, ?_, hsteady.cwd.trans h.cwd⟩, ?_⟩
  · rw [hsteady.vault]
    exact htended
  · rw [stock, hsteady.vault]
    exact h.tended.stock_congr hsteady.ground

theorem Ready.remains {a : Aftermath} (h : Ready S cwd w)
    (hremains : w.host.vault.Remains w.host.files a) (hhost : w'.host = w.host.settle a) :
    Ready S cwd w' := by
  have hterritory : ∀ l, a.vault.Territory l ↔ w.host.vault.Territory l := by
    intro l
    rw [Vault.Territory, Vault.Territory, hremains.base]
  have hguarded : Guarded S a.vault := ⟨hremains.tended.orderly.isLocal,
    fun l hl => h.guarded.kept l ((hterritory l).mp hl),
    fun l hl hl' => h.guarded.apart l hl ((hterritory l).mp hl')⟩
  refine ⟨?_, ?_, ?_⟩
  · rw [hhost]
    exact hguarded
  · rw [hhost]
    exact hremains.tended
  · rw [hhost]
    exact h.cwd

theorem Ready.serves_of_calm (h : Ready S cwd w) {c : Call} {r : Reply c} (hc : isCalm c)
    (hr : Replies S w c r w') : Stock.Serves StorePath.ofKey w.stock c r w'.stock ∧
      Ready S cwd w' := by
  have hsteady := steady_of_calm h.guarded hc hr.1
  obtain ⟨hready, hstock⟩ := h.steady hsteady hr.2
  refine ⟨?_, hready⟩
  cases c with
  | removeFile | connect | openWriter | write | finalize | abort => exact hc.elim
  | «exists» k =>
    cases r with
    | error fault => exact hstock
    | ok found =>
      refine ⟨?_, hstock⟩
      rcases hr.1 with ⟨hreply, _⟩ | ⟨⟨_, hfault⟩, _⟩
      · exact h.tended.contains hreply.symm
      · cases hfault
  | _ => exact hstock

/-- A reply that may be got from the machine may be got from the stock. -/
theorem Ready.serves (h : Ready S cwd w) {c : Call} {r : Reply c} (hsure : Sure S cwd c r)
    (hr : Replies S w c r w') : Stock.Serves StorePath.ofKey w.stock c r w'.stock ∧
      Ready S cwd w' := by
  have hsame : w' = w → Ready S cwd w' ∧ w'.stock = w.stock := by
    rintro rfl
    exact ⟨h, rfl⟩
  cases c with
  | connect => exact hsure.elim
  | removeFile path =>
    have hplace : S.staging (.named w.host.cwd path) := h.cwd ▸ hsure
    obtain ⟨hready, hstock⟩ := h.steady (removeFile_steady h.guarded hplace hr.1).1 hr.2
    exact ⟨hstock, hready⟩
  | openWriter k =>
    cases r with
    | error fault =>
      obtain ⟨hready, hstock⟩ := hsame (openWriter_error h.guarded.isLocal hr.1)
      exact ⟨hstock, hready⟩
    | ok wr =>
      rcases hr.1 with ⟨hreply, rfl⟩ | ⟨⟨_, hfault⟩, _⟩
      · have hopen : w.host.vault.openWriter w.host.files k =
            (.ok wr, (w.host.vault.openWriter w.host.files k).2) := Prod.ext hreply.symm rfl
        obtain ⟨hremains, hstock⟩ := h.tended.openWriter hopen
        exact ⟨hstock, h.remains hremains rfl⟩
      · cases hfault
  | write wr chunk =>
    obtain ⟨hremains, hblobs, hdraft⟩ := h.tended.write wr chunk
    have hready : Ready S cwd (w.after (.write wr chunk)) := h.remains hremains rfl
    cases r with
    | failed => exact hsure.elim
    | accepted =>
      obtain ⟨_, rfl⟩ := hr.1
      exact ⟨⟨hblobs, hdraft⟩, hready⟩
    | interrupted =>
      rcases hr.1 with rfl | rfl
      · exact ⟨rfl, h⟩
      · exact ⟨hblobs, hready⟩
  | finalize wr =>
    obtain ⟨hremains, hblobs⟩ := h.tended.finalize w.host.staging wr
    have hready : Ready S cwd (w.after (.finalize wr)) := h.remains hremains rfl
    cases r with
    | ok =>
      obtain ⟨hreply, rfl⟩ := hr.1
      rcases hblobs with hpublished | ⟨hfailed, _⟩
      · exact ⟨hpublished, hready⟩
      · exact absurd hreply.symm hfailed
    | error fault =>
      rcases hr.1 with rfl | rfl
      · exact ⟨.inl rfl, h⟩
      · exact ⟨hblobs.symm.imp_left And.right, hready⟩
  | abort wr =>
    obtain ⟨hremains, hblobs⟩ := h.tended.abort wr
    have hready : Ready S cwd (w.after (.abort wr)) := h.remains hremains rfl
    cases r with
    | ok =>
      obtain ⟨_, rfl⟩ := hr.1
      exact ⟨hblobs, hready⟩
    | error fault =>
      rcases hr.1 with rfl | rfl
      · exact ⟨rfl, h⟩
      · exact ⟨hblobs, hready⟩
  | _ => exact h.serves_of_calm trivial hr

/-- Along sure steps the world's store changes as its stock does. -/
theorem Ready.along (h : Ready S cwd w) (hsure : ∀ s ∈ steps, Sure S cwd s.call s.reply)
    (hsteps : Along (Replies S) w steps w') :
    Along (Stock.Serves StorePath.ofKey) w.stock steps w'.stock ∧ Ready S cwd w' := by
  obtain ⟨s', halong, hready, rfl⟩ := hsteps.simulates (F := Stock.Serves StorePath.ofKey)
    (R := fun u s => Ready S cwd u ∧ s = u.stock) (t := w.stock) ⟨h, rfl⟩
    fun s hs {u v x} hu hr => by
      obtain ⟨hu, rfl⟩ := hu
      obtain ⟨hserves, hv⟩ := hu.serves (hsure s hs) hr
      exact ⟨_, hserves, hv, rfl⟩
  exact ⟨halong, hready⟩

end World

/-- Copying or finalizing has failed. -/
def Fault.breaksUpload (f : Fault) : Bool :=
  match f.root with
  | .copy _ _ _ | .finalize _ _ => true
  | _ => false

theorem CopyWord.sure {wr : Writer} {ending : Ending} {total : Nat} {chunks : List ByteArray}
    {copy : CopyEnd} (h : CopyWord wr ending total chunks steps copy) {s : Step} (hs : s ∈ steps) :
    Sure S cwd s.call s.reply ∨ ∃ fault, copy = .failed fault := by
  have haccepted : ∀ {done : List ByteArray}, s ∈ acceptedWrites wr done →
      Sure S cwd s.call s.reply := by
    intro done hs
    obtain ⟨chunk, _, rfl⟩ := List.mem_map.mp hs
    trivial
  cases h with
  | copied | readFailed | cancelled => exact .inl (haccepted hs)
  | writeFailed done rest chunk fault => exact .inr ⟨fault, rfl⟩
  | unfinished done rest chunk =>
    rcases List.mem_append.mp hs with hs | hs
    · exact .inl (haccepted hs)
    · obtain rfl := List.mem_singleton.mp hs
      exact .inl trivial

theorem UploadWord.sure {bucket path : String} {key : Key} {faults : List Fault}
    (h : UploadWord bucket path key steps faults)
    (hsafe : ∀ fault ∈ faults.head?, fault.breaksUpload = false) :
    ∀ s ∈ steps, Sure S cwd s.call s.reply := by
  cases h with
  | lookupFailed | taken | unreadable | unopened => simp [Sure]
  | @ended file wr writes copy reply copying =>
    have hcopy : ∀ fault, copy ≠ .failed fault := by
      rintro fault rfl
      exact absurd (hsafe _ rfl) (by simp [Fault.breaksUpload, Fault.root])
    have hclosing : Sure S cwd (copy.closing wr reply).call (copy.closing wr reply).reply := by
      cases copy <;> trivial
    have hwrites : ∀ s ∈ writes, Sure S cwd s.call s.reply := fun s hs =>
      (copying.sure hs).resolve_right fun ⟨fault, hfault⟩ => hcopy fault hfault
    simpa [Sure, or_imp, forall_and] using ⟨hwrites, hclosing⟩

/-- What an archive run removes is its own staging file. -/
theorem Archiver.staging_of_removal {path : String} {reply : Except IoFault Unit}
    (h : Yields a.run steps r) (hsteps : Along (Replies S) w steps w')
    (hmem : ⟨.removeFile path, reply⟩ ∈ steps) : S.staging (.named w.host.cwd path) := by
  have hbegun : ∀ {rest : List Step} {staged dir : String},
      ⟨.removeFile path, reply⟩ ∈ toDump ++ ⟨.createStaging dir, .ok staged⟩ :: rest →
      ⟨.removeFile path, reply⟩ ∈ rest := by
    intro rest staged dir hmem
    simpa [toDump, Step.line] using hmem
  have hminds : ∀ {rest : List Step} {staged : String}, (∀ s ∈ rest, s.call.minds staged) →
      (⟨.removeFile path, reply⟩ : Step) ∉ rest := fun hminds hmem => hminds _ hmem
  cases a.custody_of_yields h with
  | uncreated fault quiet idle =>
    rcases idle _ hmem with hidle | ⟨dir, fault, hcreate⟩
    · cases hidle
    · cases congrArg Step.call hcreate
  | undumped fault minds => exact absurd (hbegun hmem) (hminds minds)
  | kept r minds => exact absurd (hbegun hmem) (hminds minds)
  | @removed staged dump copying last key reply' minds dumped uploading retain idle =>
    obtain ⟨w₀, hentered, hrest⟩ := along_append.mp hsteps
    obtain ⟨_, ⟨rfl, _⟩, hentered₁⟩ := along_cons.mp hentered
    obtain ⟨_, ⟨rfl, _⟩, hentered₂⟩ := along_cons.mp hentered₁
    obtain rfl := along_nil.mp hentered₂
    obtain ⟨w₁, ⟨hstages, _⟩, _⟩ := along_cons.mp hrest
    have hpath : path = staged := by
      have hcopying := (only_upload a.bucket staged).mem uploading
      have hmem := hbegun hmem
      simp only [List.mem_append, List.mem_cons] at hmem
      rcases hmem with hmem | hmem | hmem | hmem
      · exact absurd hmem (hminds minds)
      · exact (hcopying _ hmem).elim
      · simpa using congrArg Step.call hmem
      · cases idle _ hmem
    exact hpath ▸ hstages.1

/-- Every step of an archive run is sure, unless copying or finalizing fails. -/
theorem Archiver.sure_of_yields (h : Yields a.run steps r)
    (hsteps : Along (Replies S) w steps w')
    (hsafe : ∀ fault, r = .error fault → fault.breaksUpload = false) :
    ∀ s ∈ steps, Sure S w.host.cwd s.call s.reply := by
  intro s hs
  by_cases hvisible : s.isVisible = true
  · have hsaid := a.said_of_yields h
    have hmem : s ∈ visible steps := (mem_visible hvisible).mpr hs
    generalize visible steps = said, readings steps = ts at hsaid hmem
    cases hsaid with
    | nothing fault => cases hmem
    | @word path t _ faults uploading =>
      refine uploading.sure ?_ s hmem
      intro fault hfault
      cases faults with
      | nil => cases hfault
      | cons first later =>
        obtain rfl := Option.some.inj hfault
        exact hsafe (first.inStage .upload) rfl
  · obtain ⟨c, reply⟩ := s
    cases c with
    | connect | write => exact absurd rfl hvisible
    | removeFile path => exact Archiver.staging_of_removal h hsteps hs
    | _ => trivial

/-- An archive run in which neither copying nor finalizing fails adds one blob under the key that it
mints, where none was, or it fails and changes no blob. -/
theorem archive_serves (hready : Ready S cwd w) (h : Yields a.run steps r)
    (hsteps : Along (Replies S) w steps w')
    (hsafe : ∀ fault, r = .error fault → fault.breaksUpload = false) : Ready S cwd w' ∧
      ((∃ fault, r = .error fault ∧ w'.stock.blobs = w.stock.blobs) ∨
        ∃ t content, r = .ok (.mint t) ∧ readings steps = [t] ∧
          w.stock.blobs (.ofKey (.mint t)) = none ∧ w'.stock.blobs =
            Function.update w.stock.blobs (.ofKey (.mint t)) (some content)) := by
  have hsure := Archiver.sure_of_yields h hsteps hsafe
  rw [hready.cwd] at hsure
  obtain ⟨hstock, hready'⟩ := hready.along hsure hsteps
  refine ⟨hready', ?_⟩
  rcases archive_leaves h hstock with ⟨hblobs, ⟨fault, rfl⟩, _⟩ |
    ⟨path, file, t, faults, _, ht, hvacant, _, hleaves, rfl⟩
  · exact .inl ⟨fault, rfl, hblobs⟩
  · generalize w'.stock.blobs = blobs' at hleaves
    cases hleaves with
    | stored all => exact .inr ⟨t, _, rfl, ht, hvacant, rfl⟩
    | unfinalized | cut => exact absurd (hsafe _ rfl) (by simp [Fault.breaksUpload, Fault.root])
    | cancelled during later => exact .inl ⟨_, rfl, rfl⟩

end DumpVault
