import DumpVault.Proofs.Itineraries
import DumpVault.Proofs.OwnFaults

/-!
# Whose fault it was

The log, the result and the tag of a run agree. The passages that it logs form one of three routes;
the run succeeds when its route ends as done, and else its fault is the own fault of one step,
tagged once, with the stage that was left for the failure.
-/
namespace DumpVault
open Prog

namespace Itinerary

variable {σ α : Type} {it : Itinerary σ} {raises : σ → Step → Fault → Prop} {steps : List Step}
  {result : Except Fault α} {visited : List σ}

/-- A run has succeeded if its route says so. Else its fault is the own fault of one step, as it
was, behind one tag, which names the stage that was left. -/
structure Attributed (it : Itinerary σ) (raises : σ → Step → Fault → Prop) (steps : List Step)
    (result : Except Fault α) (visited : List σ) : Prop where
  succeeded : (∃ value, result = .ok value) ↔ visited.getLast? = some it.done
  blamed : ∀ fault, result = .error fault → ∃ earlier left stage s own,
    visited = earlier ++ [left, it.failed] ∧ it.stage? left = some stage ∧ s ∈ steps ∧
      raises left s own ∧ fault = own.inStage stage ∧ fault.stage? = some stage ∧
      fault.root = own.root
  cancelled : ∀ fault, result = .error fault → fault.isCancelled = true →
    (∀ s ∈ steps, ∀ handed, s.handed? = some handed → handed.isCancelled = false) →
    ∃ s ∈ steps, s.showsCancelled = true

theorem attributed_ok {value : α} :
    it.Attributed raises steps (.ok value) [it.start, it.first, it.second, it.done] :=
  ⟨⟨fun _ => rfl, fun _ => ⟨value, rfl⟩⟩, nofun, nofun⟩

theorem attributed_error (earlier : List σ) {left : σ} {stage : Stage} {s : Step} {own : Fault}
    (hleft : it.stage? left = some stage) (hs : s ∈ steps) (hraises : raises left s own)
    (haccounts : s.Accounts own) :
    it.Attributed raises steps (.error (own.inStage stage) : Except Fault α)
      (earlier ++ [left, it.failed]) := by
  refine ⟨⟨nofun, fun hlast => ?_⟩, ?_, ?_⟩
  · exact absurd (by simpa using hlast) it.failed_ne_done
  · rintro fault hfault
    cases hfault
    exact ⟨earlier, left, stage, s, own, rfl, hleft, hs, hraises, rfl, rfl, rfl⟩
  · rintro fault hfault hcancelled hothers
    cases hfault
    have hown : own.isCancelled = true := hcancelled
    rcases haccounts hown with hshows | hhanded
    · exact ⟨s, hs, hshows⟩
    · exact absurd (hothers s hs own hhanded) (by simp [hown])

end Itinerary

/-- A line that some course of a run writes. -/
def Prog.MayWrite {α : Type} (p : Prog α) (line : Line) : Prop :=
  ∃ steps a, Yields p steps a ∧ .line line ∈ steps

namespace Archiver

theorem passage_injective {old new old' new' : ArchiveState}
    (h : passage old new = passage old' new') : old = old' ∧ new = new' := by
  have htext := congrArg (fun line : Line => line.text.toList) h
  simp only [passage, toString, String.toList_append, List.append_assoc,
    List.append_cancel_left_eq] at htext
  obtain rfl : old = old' := by
    cases old <;> cases old' <;> first | rfl | simp [ArchiveState.name] at htext
  refine ⟨rfl, ?_⟩
  simp only [List.append_cancel_left_eq] at htext
  cases new <;> cases new' <;> first | rfl | simp [ArchiveState.name] at htext

def itinerary : Itinerary ArchiveState where
  start := .start
  first := .dumping
  second := .uploading
  done := .done
  failed := .failed
  distinct := by decide
  complete state := by cases state <;> decide
  stage?
    | .dumping => some .dump
    | .uploading => some .upload
    | _ => none
  passage := passage
  passage_injective := passage_injective
  openings := [(.debug, "archive: ")]
  passage_opens old new := ⟨_, List.mem_singleton_self _, rfl, by simp [passage, toString]⟩

/-- What may go wrong in an archive run that takes certain steps, by the state that it is in. -/
inductive Raises (a : Archiver) (steps : List Step) : ArchiveState → Step → Fault → Prop
  | entering {state : ArchiveState} {stage : Stage} {s : Step} {own : Fault}
      (inStage : itinerary.stage? state = some stage) (raises : stage.Raises s own) :
      Raises a steps state s own
  | dumping {s : Step} {own : Fault} (raises : a.dump.Raises s own) :
      Raises a steps .dumping s own
  | uploading {path : String} {t : Calendar.Instant} {s : Step} {own : Fault}
      (staged : ⟨.createStaging a.dump.stagingDir, .ok path⟩ ∈ steps) (minted : ⟨.now, t⟩ ∈ steps)
      (raises : UploadRaises a.bucket path (.mint t) s own) : Raises a steps .uploading s own

/-- The lines of the upload stage. -/
def IsUploadLine (a : Archiver) (line : Line) : Prop :=
  ∃ path, (upload a.bucket path).MayWrite line ∨ (a.cleanUp path).MayWrite line

variable {a : Archiver} {steps : List Step} {result : Except Fault Key}

theorem opens_of_isUploadLine (line : Line) (h : a.IsUploadLine line) :
    line.Opens uploadOpenings := by
  obtain ⟨path, ⟨steps, r, hyields, hline⟩ | ⟨steps, r, hyields, hline⟩⟩ := h
  · exact says_of_only (writes_upload a.bucket path) hyields _ (mem_logged.mpr hline)
  · exact (cleanUp_course hyields).spoken _ (mem_logged.mpr hline)

theorem staged_of_dump {path : String} {dump : List Step} (h : a.dump.Course dump (.ok path)) :
    ⟨.createStaging a.dump.stagingDir, .ok path⟩ ∈ dump := by
  cases h with
  | dumped => simp [Dump.opening]

theorem Raises.accounts {state : ArchiveState} {s : Step} {own : Fault}
    (h : a.Raises steps state s own) : s.Accounts own := by
  cases h with
  | entering _ raises | dumping raises | uploading _ _ raises => exact raises.accounts

/-- An archive run walks its route and is attributed by it. -/
theorem attributed (h : Yields a.run steps result) : ∃ visited,
    itinerary.Walk Dump.openings uploadOpenings steps visited ∧
      itinerary.Attributed (a.Raises steps) steps result visited := by
  have hfailed : ∀ (earlier : List ArchiveState) {left stage s own},
      itinerary.stage? left = some stage → s ∈ steps → a.Raises steps left s own →
      itinerary.Attributed (a.Raises steps) steps (.error (own.inStage stage) : Except Fault Key)
        (earlier ++ [left, .failed]) := fun earlier _ _ _ _ hleft hs hraises =>
    Itinerary.attributed_error earlier hleft hs hraises hraises.accounts
  -- what each stage has said begins with the look at the token
  have hentered : ∀ {openings cut body}, Says openings body →
      Says openings (⟨.isCancelled, cut⟩ :: body) := (says_step rfl).mpr
  cases course_of_yields h with
  | cutBeforeDump =>
    exact ⟨_, Itinerary.Walk.one (hentered says_nil),
      hfailed [.start] rfl (by simp) (.entering rfl .cut)⟩
  | undumped dumping =>
    obtain ⟨s, hs, hraises⟩ := dumping.raises
    exact ⟨_, Itinerary.Walk.one (hentered dumping.spoken),
      hfailed [.start] rfl (by simp [hs]) (.dumping hraises)⟩
  | cutBeforeUpload dumping =>
    exact ⟨_, Itinerary.Walk.both (hentered dumping.spoken) (hentered says_nil) (.inl rfl),
      hfailed [.start, .dumping] rfl (by simp) (.entering rfl .cut)⟩
  | unstored dumping uploading =>
    obtain ⟨t, ht, s, hs, hraises⟩ := upload_raises uploading
    have hstaged := staged_of_dump dumping
    refine ⟨_, Itinerary.Walk.both (hentered dumping.spoken)
      (hentered (says_of_only (writes_upload _ _) uploading)) (.inl rfl), ?_⟩
    exact hfailed [.start, .dumping] rfl (by simp [hs])
      (.uploading (by simp [hstaged]) (by simp [ht]) hraises)
  | @stored path dump copying cleaning key dumping uploading cleaned =>
    refine ⟨_, ?_, Itinerary.attributed_ok⟩
    rw [← List.append_assoc copying]
    exact Itinerary.Walk.both (hentered dumping.spoken) (hentered (says_append.mpr
      ⟨says_of_only (writes_upload _ _) uploading, cleaned.spoken⟩)) (.inr rfl)

end Archiver

namespace Restorer

theorem passage_injective {old new old' new' : RestoreState}
    (h : passage old new = passage old' new') : old = old' ∧ new = new' := by
  have htext := congrArg (fun line : Line => line.text.toList) h
  simp only [passage, toString, String.toList_append, List.append_assoc,
    List.append_cancel_left_eq] at htext
  obtain rfl : old = old' := by
    cases old <;> cases old' <;> first | rfl | simp [RestoreState.name] at htext
  refine ⟨rfl, ?_⟩
  simp only [List.append_cancel_left_eq] at htext
  cases new <;> cases new' <;> first | rfl | simp [RestoreState.name] at htext

def itinerary : Itinerary RestoreState where
  start := .start
  first := .fetching
  second := .restoring
  done := .done
  failed := .failed
  distinct := by decide
  complete state := by cases state <;> decide
  stage?
    | .fetching => some .fetch
    | .restoring => some .restore
    | _ => none
  passage := passage
  passage_injective := passage_injective
  openings := [(.debug, "restore: ")]
  passage_opens old new := ⟨_, List.mem_singleton_self _, rfl, by simp [passage, toString]⟩

/-- What may go wrong in a restore run, by the state that it is in. -/
inductive Raises (r : Restorer) (key : Key) : RestoreState → Step → Fault → Prop
  | entering {state : RestoreState} {stage : Stage} {s : Step} {own : Fault}
      (inStage : itinerary.stage? state = some stage) (raises : stage.Raises s own) :
      Raises r key state s own
  | fetching {s : Step} {own : Fault} (raises : FetchRaises r.bucket key s own) :
      Raises r key .fetching s own
  | restoring {s : Step} {own : Fault} (raises : Restore.Raises r.utility s own) :
      Raises r key .restoring s own

/-- The lines of the restore stage. -/
def IsRestoreLine (r : Restorer) (line : Line) : Prop :=
  ∃ archive, (Restore.apply r.utility archive).MayWrite line

def fetchOpenings : Openings := [(.info, "fetching ")]

variable {r : Restorer} {key : Key} {steps : List Step} {result : Except Fault Unit}

theorem opens_of_isRestoreLine (line : Line) (h : r.IsRestoreLine line) :
    line.Opens Restore.openings := by
  obtain ⟨archive, steps, result, hyields, hline⟩ := h
  exact (Restore.course_of_yields hyields).spoken _ (mem_logged.mpr hline)

theorem Raises.accounts {state : RestoreState} {s : Step} {own : Fault}
    (h : r.Raises key state s own) : s.Accounts own := by
  cases h with
  | entering _ raises | fetching raises | restoring raises => exact raises.accounts

/-- A restore run walks its route and is attributed by it. -/
theorem attributed (h : Yields (r.run key) steps result) : ∃ visited,
    itinerary.Walk fetchOpenings Restore.openings steps visited ∧
      itinerary.Attributed (r.Raises key) steps result visited := by
  have hfailed : ∀ (earlier : List RestoreState) {left stage s own},
      itinerary.stage? left = some stage → s ∈ steps → r.Raises key left s own →
      itinerary.Attributed (r.Raises key) steps (.error (own.inStage stage) : Except Fault Unit)
        (earlier ++ [left, .failed]) := fun earlier _ _ _ _ hleft hs hraises =>
    Itinerary.attributed_error earlier hleft hs hraises hraises.accounts
  have hentered : ∀ {openings cut body}, Says openings body →
      Says openings (⟨.isCancelled, cut⟩ :: body) := (says_step rfl).mpr
  have hfetching : (⟨.info, s!"fetching {key.text} from {r.bucket}"⟩ : Line).Opens fetchOpenings :=
    ⟨_, List.mem_singleton_self _, rfl, by simp [toString]⟩
  have hopened : ∀ archive, Says fetchOpenings
      [⟨.isCancelled, false⟩, .line ⟨.info, s!"fetching {key.text} from {r.bucket}"⟩,
        ⟨.pause, false⟩, ⟨.openReader key, .ok archive⟩] := fun archive =>
    hentered (says_line.mpr ⟨hfetching, (says_step rfl).mpr ((says_step rfl).mpr says_nil)⟩)
  cases course_of_yields h with
  | cutBeforeFetch =>
    exact ⟨_, Itinerary.Walk.one (hentered says_nil),
      hfailed [.start] rfl (by simp) (.entering rfl .cut)⟩
  | cutInFetch =>
    exact ⟨_, Itinerary.Walk.one
      (hentered (says_line.mpr ⟨hfetching, (says_step rfl).mpr says_nil⟩)),
      hfailed [.start] rfl (by simp) (.fetching .overtaken)⟩
  | unfetched fault =>
    exact ⟨_, Itinerary.Walk.one (hentered (says_line.mpr
      ⟨hfetching, (says_step rfl).mpr ((says_step rfl).mpr says_nil)⟩)),
      hfailed [.start] rfl (by simp) (.fetching (.unopened fault))⟩
  | cutBeforeRestore archive =>
    exact ⟨_, Itinerary.Walk.both (hopened archive) (hentered says_nil) (.inl rfl),
      hfailed [.start, .fetching] rfl (by simp) (.entering rfl .cut)⟩
  | @applied archive applying result yields =>
    have happlying := Restore.course_of_yields yields
    cases result with
    | ok =>
      exact ⟨_, Itinerary.Walk.both (hopened archive) (hentered happlying.spoken) (.inr rfl),
        Itinerary.attributed_ok⟩
    | error own =>
      obtain ⟨s, hs, hraises⟩ := happlying.raises key
      refine ⟨_, Itinerary.Walk.both (hopened archive) (hentered happlying.spoken) (.inl rfl),
        hfailed [.start, .fetching] rfl ?_ (.restoring hraises)⟩
      rcases List.mem_cons.mp hs with rfl | hs <;> simp [*]

end Restorer

/-- Whatever store, utility, secret, clock and cancellation do: the passages that a run logs form
one route, with the run's last step as its end, and the lines of the second stage come only behind
the passage into it. The run succeeds exactly when the route ends as done; its fault is the own
fault of one step behind a single tag for the stage that was left, and a cancellation only if the
token was seen to be cancelled or a collaborator's own fault is one. -/
theorem pipelines_attribute {a : Archiver} {r : Restorer} {key : Key}
    {archiving restoring : List Step} {archived : Except Fault Key} {restored : Except Fault Unit}
    (harchive : Yields a.run archiving archived)
    (hrestore : Yields (r.run key) restoring restored) :
    (∃! visited, Archiver.itinerary.Walked a.IsUploadLine archiving visited ∧
      Archiver.itinerary.Attributed (a.Raises archiving) archiving archived visited) ∧
    (∃! visited, Restorer.itinerary.Walked r.IsRestoreLine restoring visited ∧
      Restorer.itinerary.Attributed (r.Raises key) restoring restored visited) := by
  obtain ⟨visited, hwalk, hattributed⟩ := Archiver.attributed harchive
  obtain ⟨visited', hwalk', hattributed'⟩ := Restorer.attributed hrestore
  have hwalked : Archiver.itinerary.Walked a.IsUploadLine archiving visited :=
    hwalk.walked (by decide) (by decide) Archiver.opens_of_isUploadLine
  have hwalked' : Restorer.itinerary.Walked r.IsRestoreLine restoring visited' :=
    hwalk'.walked (by decide) (by decide) Restorer.opens_of_isRestoreLine
  exact ⟨⟨visited, ⟨hwalked, hattributed⟩, fun _ hother => hwalked.visited_eq hother.1⟩,
    visited', ⟨hwalked', hattributed'⟩, fun _ hother => hwalked'.visited_eq hother.1⟩

/-- Answers of a store that hands over one fault whenever it is asked for a blob. -/
def objecting (fault : Fault) : Handler Unit := fun c s =>
  match c with
  | .exists _ | .openReader _ => (.error fault, s)
  | c => obliging false c s

/-- A store's fault that has a tag already, and is even a cancellation, gets one more. -/
theorem pipelines_attribute_tagged :
    let a : Archiver := ⟨⟨.ofConfig {} {} defaultDumpProgram, "/tmp"⟩, "archives", false⟩
    let r : Restorer := ⟨"archives", .ofConfig {} {} defaultRestoreProgram⟩
    let key := Key.mint .epoch
    let own := (Fault.cancelled "looking elsewhere").inStage .restore
    let archiving := a.run.course (objecting own) ()
    let restoring := (r.run key).course (objecting own) ()
    Yields a.run archiving (.error (own.inStage .upload)) ∧
      Yields (r.run key) restoring (.error (own.inStage .fetch)) ∧
      Archiver.itinerary.transitions archiving = [Archiver.passage .start .dumping,
        Archiver.passage .dumping .uploading, Archiver.passage .uploading .failed] ∧
      Restorer.itinerary.transitions restoring = [Restorer.passage .start .fetching,
        Restorer.passage .fetching .failed] ∧
      (∃! visited, Archiver.itinerary.Walked a.IsUploadLine archiving visited ∧
        Archiver.itinerary.Attributed (a.Raises archiving) archiving
          (.error (own.inStage .upload) : Except Fault Key) visited) ∧
      (∃! visited, Restorer.itinerary.Walked r.IsRestoreLine restoring visited ∧
        Restorer.itinerary.Attributed (r.Raises key) restoring
          (.error (own.inStage .fetch) : Except Fault Unit) visited) := by
  intro a r key own archiving restoring
  have harchive : Yields a.run archiving (.error (own.inStage .upload)) :=
    yields_course (objecting own) a.run ()
  have hrestore : Yields (r.run key) restoring (.error (own.inStage .fetch)) :=
    yields_course (objecting own) (r.run key) ()
  exact ⟨harchive, hrestore, rfl, rfl, pipelines_attribute harchive hrestore⟩

end DumpVault
