import DumpVault.Proofs.Along
import DumpVault.Proofs.Pieces
import DumpVault.Proofs.Uploads

/-!
# What an archive run does to a store

A store is seen as the blobs that are published and the drafts of the open writers. A draft becomes
a blob, all of it or nothing, when its writer is finalized. Of these an archive run adds at most one
blob, under the key that it mints, where none was.
-/
namespace DumpVault
open Prog

/-- The published blobs by their places, and the place and the bytes of each writer's draft. -/
structure Stock (ι : Type) where
  blobs : ι → Option ByteArray
  drafts : Writer → Option (ι × ByteArray)

namespace Stock

variable {ι : Type} {place : Key → ι} {s s' : Stock ι} {w : Writer} {p : ι} {bytes : ByteArray}

/-- The blobs once the writer's draft has been published. -/
def publish [DecidableEq ι] (s : Stock ι) (w : Writer) : ι → Option ByteArray :=
  match s.drafts w with
  | some (p, bytes) => Function.update s.blobs p (some bytes)
  | none => s.blobs

/-- What a call may do to a store whose keys name places. What fails publishes nothing, except that
a writer may have been finalized before that is seen to fail. Other writers may do what they like
with their drafts. -/
def Serves [DecidableEq ι] (place : Key → ι) : Effects (Stock ι)
  | s, .exists k, .ok found, s' => found = (s.blobs (place k)).isSome ∧ s' = s
  | s, .openWriter k, .ok w, s' =>
      s'.blobs = s.blobs ∧ s'.drafts w = some (place k, .empty)
  | s, .write w chunk, .accepted, s' => s'.blobs = s.blobs ∧
      s'.drafts w = (s.drafts w).map fun draft => (draft.1, draft.2 ++ chunk)
  | s, .write w _, .failed _, s' => s'.blobs = s.blobs ∧ s'.drafts w = s.drafts w
  | s, .write _ _, .interrupted, s' => s'.blobs = s.blobs
  | s, .finalize w, .ok _, s' => s'.blobs = s.publish w
  | s, .finalize w, .error _, s' => s'.blobs = s.blobs ∨ s'.blobs = s.publish w
  | s, .abort _, _, s' => s'.blobs = s.blobs
  | s, _, _, s' => s' = s

theorem publish_eq [DecidableEq ι] (h : s.drafts w = some (p, bytes)) :
    s.publish w = Function.update s.blobs p (some bytes) := by
  simp [publish, h]

theorem eq_of_not_visible [DecidableEq ι] {step : Step} (hstep : step.isVisible = false)
    (h : Serves place s step.call step.reply s') : s' = s := by
  obtain ⟨c, r⟩ := step
  cases c with
  | connect | «exists» | openWriter | write | finalize | abort | openReader | list | openFile =>
    cases hstep
  | _ => exact h

end Stock

def Prog.Step.accepted? : Step → Option ByteArray
  | ⟨.write _ chunk, .accepted⟩ => some chunk
  | _ => none

/-- The chunks that the store has accepted, in their order. -/
def accepted (steps : List Step) : List ByteArray := steps.filterMap Step.accepted?

section Words
variable {ι : Type} [DecidableEq ι] {place : Key → ι} {s s' : Stock ι} {w : Writer} {p : ι}
  {bytes : ByteArray} {steps more : List Step} {chunks : List ByteArray}

@[simp] theorem accepted_append : accepted (steps ++ more) = accepted steps ++ accepted more :=
  List.filterMap_append

theorem accepted_cons {step : Step} :
    accepted (step :: steps) = step.accepted?.toList ++ accepted steps := by
  cases h : step.accepted? <;> simp [accepted, h]

@[simp] theorem accepted_acceptedWrites : accepted (acceptedWrites w chunks) = chunks := by
  induction chunks with
  | nil => rfl
  | cons chunk chunks ih =>
    rw [acceptedWrites, List.map_cons, ← acceptedWrites, accepted_cons, ih]
    rfl

@[simp] theorem accepted_failed {chunk : ByteArray} {fault : IoFault} :
    accepted [⟨.write w chunk, .failed fault⟩] = [] := rfl

@[simp] theorem accepted_interrupted {chunk : ByteArray} :
    accepted [⟨.write w chunk, .interrupted⟩] = [] := rfl

/-- What only visible steps tell is told by the visible ones alone. -/
theorem filterMap_visible {α : Type} {f : Step → Option α}
    (hf : ∀ s, s.isVisible = false → f s = none) :
    (visible steps).filterMap f = steps.filterMap f := by
  rw [visible, List.filterMap_filter]
  congr 1
  funext s
  cases hs : s.isVisible with
  | true => rfl
  | false => exact (hf s hs).symm

theorem accepted_visible : accepted (visible steps) = accepted steps := by
  refine filterMap_visible fun s hs => ?_
  obtain ⟨c, r⟩ := s
  cases c <;> first | rfl | cases hs

theorem along_acceptedWrites (hdraft : s.drafts w = some (p, bytes))
    (h : Along (Stock.Serves place) s (acceptedWrites w chunks) s') :
    s'.blobs = s.blobs ∧ s'.drafts w = some (p, bytes ++ joined chunks) := by
  induction chunks generalizing s bytes with
  | nil =>
    obtain rfl := along_nil.mp h
    simp [hdraft]
  | cons chunk chunks ih =>
    obtain ⟨s₁, ⟨hblobs, hgrown⟩, hrest⟩ := along_cons.mp h
    rw [hdraft] at hgrown
    obtain ⟨hblobs', hdraft'⟩ := ih hgrown hrest
    exact ⟨hblobs'.trans hblobs, by rw [hdraft', joined_cons, ByteArray.append_assoc]⟩

/-- A copy publishes nothing. If it is not interrupted, the draft holds what has been accepted. -/
theorem CopyWord.drafted {ending : Ending} {total : Nat} {copy : CopyEnd}
    (hword : CopyWord w ending total chunks steps copy) (hdraft : s.drafts w = some (p, bytes))
    (h : Along (Stock.Serves place) s steps s') : s'.blobs = s.blobs ∧
      (copy ≠ .interrupted → s'.drafts w = some (p, bytes ++ joined (accepted steps))) := by
  cases hword with
  | copied | readFailed | cancelled =>
    obtain ⟨hblobs, hdraft'⟩ := along_acceptedWrites hdraft h
    exact ⟨hblobs, fun _ => by rw [hdraft', accepted_acceptedWrites]⟩
  | writeFailed done rest chunk fault cut =>
    obtain ⟨s₁, hdone, hlast⟩ := along_append.mp h
    obtain ⟨_, ⟨hsame, hkept⟩, hend⟩ := along_cons.mp hlast
    obtain rfl := along_nil.mp hend
    obtain ⟨hblobs, hdraft'⟩ := along_acceptedWrites hdraft hdone
    exact ⟨hsame.trans hblobs, fun _ => by simp [hkept, hdraft']⟩
  | unfinished done rest chunk cut =>
    obtain ⟨s₁, hdone, hlast⟩ := along_append.mp h
    obtain ⟨_, hblobs, hend⟩ := along_cons.mp hlast
    obtain rfl := along_nil.mp hend
    exact ⟨Eq.trans hblobs (along_acceptedWrites hdraft hdone).1, fun h => absurd rfl h⟩

theorem CopyWord.accepted_prefix {ending : Ending} {total : Nat} {copy : CopyEnd}
    (hword : CopyWord w ending total chunks steps copy) : ∃ rest, chunks = accepted steps ++ rest := by
  cases hword with
  | copied | readFailed => exact ⟨[], by simp⟩
  | cancelled done rest cut => exact ⟨rest, by simpa using cut⟩
  | writeFailed done rest chunk _ cut | unfinished done rest chunk cut =>
    exact ⟨chunk :: rest, by simpa using cut⟩

theorem CopyWord.whole {ending : Ending} {total n : Nat}
    (hword : CopyWord w ending total chunks steps (.copied n)) :
    ending = .complete ∧ accepted steps = chunks := by
  cases hword with
  | copied whole => exact ⟨whole, accepted_acceptedWrites⟩

/-- What an upload makes of the blobs, by the faults that arise in it: it takes in `taken`, which is
`whole` or not, for the place `p`. -/
inductive Leaves (blobs : ι → Option ByteArray) (p : ι) (taken : ByteArray) (whole : Prop) :
    (ι → Option ByteArray) → List Fault → Prop
  | stored (all : whole) : Leaves blobs p taken whole (Function.update blobs p (some taken)) []
  | unfinalized (what : String) (source : IoFault) (all : whole)
      {blobs' : ι → Option ByteArray}
      (either : blobs' = blobs ∨ blobs' = Function.update blobs p (some taken)) :
      Leaves blobs p taken whole blobs' [.finalize what source]
  | cut (origin target : String) (source : IoFault) (later : List Fault)
      {blobs' : ι → Option ByteArray}
      (either : blobs' = blobs ∨ blobs' = Function.update blobs p (some taken)) :
      Leaves blobs p taken whole blobs' (.copy origin target source :: later)
  | cancelled (during : String) (later : List Fault) :
      Leaves blobs p taken whole blobs (.cancelled during :: later)

theorem Leaves.either {blobs blobs' : ι → Option ByteArray} {taken : ByteArray} {whole : Prop}
    {faults : List Fault} (h : Leaves blobs p taken whole blobs' faults) :
    blobs' = blobs ∨ blobs' = Function.update blobs p (some taken) := by
  cases h with
  | stored => exact .inr rfl
  | unfinalized _ _ _ either | cut _ _ _ _ either => exact either
  | cancelled => exact .inl rfl

/-- A word that never gets a writer has a fault and changes nothing; any other leaves the blobs as
its faults say. -/
theorem UploadWord.leaves {bucket path : String} {key : Key} {faults : List Fault}
    (hword : UploadWord bucket path key steps faults)
    (h : Along (Stock.Serves place) s steps s') :
    (s'.blobs = s.blobs ∧ faults ≠ [] ∧ ∀ k w, ⟨.openWriter k, .ok w⟩ ∉ steps) ∨
    ∃ file, ⟨.openFile path, .ok file⟩ ∈ steps ∧ s.blobs (place key) = none ∧
      (∃ rest, file.bytes = joined (accepted steps) ++ rest) ∧
      Leaves s.blobs (place key) (joined (accepted steps))
        (file.ending = .complete ∧ joined (accepted steps) = file.bytes) s'.blobs faults := by
  cases hword with
  | lookupFailed fault =>
    obtain ⟨_, rfl, hend⟩ := along_cons.mp h
    obtain rfl := along_nil.mp hend
    exact .inl ⟨rfl, by simp, by simp⟩
  | taken =>
    obtain ⟨_, ⟨_, rfl⟩, hend⟩ := along_cons.mp h
    obtain rfl := along_nil.mp hend
    exact .inl ⟨rfl, by simp, by simp⟩
  | unreadable source =>
    obtain ⟨_, ⟨_, rfl⟩, h₁⟩ := along_cons.mp h
    obtain ⟨_, rfl, hend⟩ := along_cons.mp h₁
    obtain rfl := along_nil.mp hend
    exact .inl ⟨rfl, by simp, by simp⟩
  | unopened file fault =>
    obtain ⟨_, ⟨_, rfl⟩, h₁⟩ := along_cons.mp h
    obtain ⟨_, rfl, h₂⟩ := along_cons.mp h₁
    obtain ⟨_, rfl, hend⟩ := along_cons.mp h₂
    obtain rfl := along_nil.mp hend
    exact .inl ⟨rfl, by simp, by simp⟩
  | @ended file w writes copy reply copying =>
    obtain ⟨s, ⟨hvacant, rfl⟩, h₁⟩ := along_cons.mp h
    obtain ⟨s, rfl, h₂⟩ := along_cons.mp h₁
    obtain ⟨s₀, ⟨hopened, hdraft⟩, h₃⟩ := along_cons.mp h₂
    obtain ⟨s₁, hwrites, h₄⟩ := along_append.mp h₃
    obtain ⟨_, hclose, hend⟩ := along_cons.mp h₄
    obtain rfl := along_nil.mp hend
    obtain ⟨hblobs, hdraft⟩ := copying.drafted hdraft hwrites
    rw [hopened] at hblobs
    have htaken : accepted (⟨.exists key, .ok false⟩ :: ⟨.openFile path, .ok file⟩ ::
        ⟨.openWriter key, .ok w⟩ :: (writes ++ [copy.closing w reply])) = accepted writes := by
      have hclosing : accepted [copy.closing w reply] = [] := by cases copy <;> rfl
      calc accepted _ = accepted (writes ++ [copy.closing w reply]) := rfl
        _ = accepted writes := by rw [accepted_append, hclosing, List.append_nil]
    have hpublish : copy ≠ .interrupted → s₁.publish w =
        Function.update s.blobs (place key) (some (joined (accepted writes))) := by
      intro hcopy
      rw [Stock.publish_eq (hdraft hcopy), hblobs, ByteArray.empty_append]
    obtain ⟨rest, hrest⟩ := copying.accepted_prefix
    have hbytes : file.bytes = joined (accepted writes) ++ joined rest := by
      rw [← joined_append, ← hrest, joined_reads (by decide)]
    rw [htaken]
    refine .inr ⟨file, by simp, by simpa using hvacant.symm, ⟨_, hbytes⟩, ?_⟩
    cases copy with
    | copied n =>
      obtain ⟨hcomplete, hall⟩ := copying.whole
      have hwhole : file.ending = .complete ∧ joined (accepted writes) = file.bytes :=
        ⟨hcomplete, by rw [hall, joined_reads (by decide)]⟩
      cases reply with
      | ok =>
        rw [show s'.blobs = _ from hclose, hpublish (by simp)]
        exact .stored hwhole
      | error source =>
        change s'.blobs = s₁.blobs ∨ s'.blobs = s₁.publish w at hclose
        rw [hpublish (by simp), hblobs] at hclose
        exact .unfinalized _ source hwhole hclose
    | failed source =>
      refine .cut _ _ source _ ?_
      cases reply with
      | ok => exact .inr (Eq.trans hclose (hpublish (by simp)))
      | error later =>
        change s'.blobs = s₁.blobs ∨ s'.blobs = s₁.publish w at hclose
        rw [hpublish (by simp), hblobs] at hclose
        exact hclose
    | interrupted =>
      rw [show s'.blobs = _ from hclose, hblobs]
      exact .cancelled _ _

/-- Either a run opens no writer and changes nothing, or it leaves the blobs as the faults of its
upload say. -/
theorem archive_leaves {a : Archiver} {r : Except Fault Key} (h : Yields a.run steps r)
    (hstore : Along (Stock.Serves place) s steps s') :
    (s'.blobs = s.blobs ∧ (∃ fault, r = .error fault) ∧ ∀ k w, ⟨.openWriter k, .ok w⟩ ∉ steps) ∨
    ∃ path file t faults, ⟨.openFile path, .ok file⟩ ∈ steps ∧ readings steps = [t] ∧
      s.blobs (place (.mint t)) = none ∧
      (∃ rest, file.bytes = joined (accepted steps) ++ rest) ∧
      Leaves s.blobs (place (.mint t)) (joined (accepted steps))
        (file.ending = .complete ∧ joined (accepted steps) = file.bytes) s'.blobs faults ∧
      r = tagged .upload (uploadResult (.mint t) faults) := by
  have hsaid := a.said_of_yields h
  have hvisible : Along (Stock.Serves place) s (visible steps) s' :=
    hstore.filter fun _ _ hstep _ _ => Stock.eq_of_not_visible hstep
  have hunopened : (∀ k w, ⟨.openWriter k, .ok w⟩ ∉ visible steps) →
      ∀ k w, ⟨.openWriter k, .ok w⟩ ∉ steps :=
    fun hno k w hmem => hno k w ((mem_visible rfl).mpr hmem)
  generalize hreadings : readings steps = ts at hsaid
  generalize hsteps : visible steps = said at hsaid hvisible hunopened
  cases hsaid with
  | nothing fault =>
    obtain rfl := along_nil.mp hvisible
    exact .inl ⟨rfl, ⟨fault, rfl⟩, hunopened (by simp)⟩
  | @word path t _ faults uploading =>
    rcases uploading.leaves hvisible with ⟨hblobs, hfaults, hno⟩ | ⟨file, hfile, hleaves⟩
    · refine .inl ⟨hblobs, ?_, hunopened hno⟩
      cases faults with
      | nil => exact absurd rfl hfaults
      | cons fault later => exact ⟨_, rfl⟩
    · rw [← hsteps, accepted_visible, mem_visible rfl] at *
      exact .inr ⟨path, file, t, faults, hfile, rfl, hleaves.1, hleaves.2.1, hleaves.2.2, rfl⟩

/-- An archive run changes the store at most at the key that it mints, and only where nothing was.
If it succeeds, the blob is the staging content. A failed copy leaves nothing or what had been
accepted, a failed finalizing nothing or everything, and after any other fault the store is as it
was. -/
theorem archive_changes_stock {a : Archiver} {r : Except Fault Key} {content : ByteArray}
    (h : Yields a.run steps r) (hstore : Along (Stock.Serves place) s steps s')
    (hcontent : ∀ path file, ⟨.openFile path, .ok file⟩ ∈ steps →
      (∃ rest, content = file.bytes ++ rest) ∧ (file.ending = .complete → file.bytes = content)) :
    (∀ p, s'.blobs p ≠ s.blobs p →
      s.blobs p = none ∧ ∃ t, readings steps = [t] ∧ p = place (.mint t)) ∧
    (∀ key, r = .ok key →
      s'.blobs (place key) = some content ∧ ∃ t, readings steps = [t] ∧ key = .mint t) ∧
    ∀ fault, r = .error fault → match fault.root with
      | .copy _ _ _ => (s'.blobs = s.blobs ∧ ∀ k w, ⟨.openWriter k, .ok w⟩ ∉ steps) ∨
          ∃ t, readings steps = [t] ∧ (∃ rest, content = joined (accepted steps) ++ rest) ∧
            ∀ blob, s'.blobs (place (.mint t)) = some blob → blob = joined (accepted steps)
      | .finalize _ _ => (s'.blobs = s.blobs ∧ ∀ k w, ⟨.openWriter k, .ok w⟩ ∉ steps) ∨
          ∃ t, readings steps = [t] ∧
            ∀ blob, s'.blobs (place (.mint t)) = some blob → blob = content
      | _ => s'.blobs = s.blobs := by
  rcases archive_leaves h hstore with ⟨hblobs, ⟨fault, rfl⟩, hno⟩ |
    ⟨path, file, t, faults, hfile, ht, hvacant, ⟨rest, hrest⟩, hleaves, rfl⟩
  · refine ⟨fun p hp => absurd (congrFun hblobs p) hp, fun _ hkey => (by cases hkey),
      fun _ hfault => ?_⟩
    obtain rfl := Except.error.inj hfault
    split
    · exact .inl ⟨hblobs, hno⟩
    · exact .inl ⟨hblobs, hno⟩
    · exact hblobs
  · obtain ⟨⟨more, hmore⟩, hwhole⟩ := hcontent path file hfile
    refine ⟨fun p hp => ?_, ?_⟩
    · have hplace : p = place (.mint t) := by
        by_contra hne
        rcases hleaves.either with heq | heq <;> simp [heq, hne] at hp
      exact ⟨hplace ▸ hvacant, t, ht, hplace⟩
    · have htaken : ∀ blob, s'.blobs (place (.mint t)) = some blob →
          blob = joined (accepted steps) := by
        intro blob hblob
        rcases hleaves.either with heq | heq <;> simp_all
      generalize s'.blobs = blobs' at hleaves htaken
      cases hleaves with
      | stored all =>
        refine ⟨fun key hkey => ?_, fun _ hfault => by cases hfault⟩
        obtain rfl : .mint t = key := Except.ok.inj hkey
        exact ⟨by simp [all.2, hwhole all.1], t, ht, rfl⟩
      | unfinalized what source all either =>
        refine ⟨fun _ hkey => (by cases hkey), fun _ hfault => ?_⟩
        obtain rfl := Except.error.inj hfault
        exact .inr ⟨t, ht, fun blob hblob => by rw [htaken blob hblob, all.2, hwhole all.1]⟩
      | cut origin target source later either =>
        refine ⟨fun _ hkey => (by cases hkey), fun _ hfault => ?_⟩
        obtain rfl := Except.error.inj hfault
        exact .inr ⟨t, ht, ⟨rest ++ more, by rw [hmore, hrest, ByteArray.append_assoc]⟩, htaken⟩
      | cancelled during later =>
        refine ⟨fun _ hkey => (by cases hkey), fun _ hfault => ?_⟩
        obtain rfl := Except.error.inj hfault
        rfl

end Words

/-- Answers from a store in which the second of two writes fails. -/
def faltering : Handler (Stock Key) := fun c s =>
  match c with
  | .exists key => (.ok (s.blobs key).isSome, s)
  | .openFile _ => (.ok ⟨[⟨#[68, 85]⟩, ⟨#[77, 80]⟩], .complete⟩, s)
  | .openWriter key => (.ok ⟨0⟩, ⟨s.blobs, Function.update s.drafts ⟨0⟩ (some (key, .empty))⟩)
  | .write w chunk =>
    if chunk = ⟨#[77, 80]⟩ then (.failed (.bare .connectionReset), s)
    else (.accepted, ⟨s.blobs, Function.update s.drafts w
      ((s.drafts w).map fun draft => (draft.1, draft.2 ++ chunk))⟩)
  | .finalize w => (.ok (), ⟨s.publish w, s.drafts⟩)
  | c => ((obliging false c ()).1, s)

theorem faltering_serves (c : Call) (s : Stock Key) :
    Stock.Serves id s c (faltering c s).1 (faltering c s).2 := by
  cases c with
  | «exists» => exact ⟨rfl, rfl⟩
  | openWriter => exact ⟨rfl, by simp [faltering]⟩
  | write w chunk =>
    rw [faltering]
    split
    · exact ⟨rfl, rfl⟩
    · exact ⟨rfl, by simp⟩
  | _ => rfl

/-- A copy fails at its second chunk, and the first one is published. -/
theorem archive_changes_stock_faltering :
    let a : Archiver := ⟨⟨.ofConfig {} {} defaultDumpProgram, "/tmp"⟩, "archives", false⟩
    let s : Stock Key := ⟨fun _ => none, fun _ => none⟩
    let s' := (a.run.run faltering s).2
    let steps := a.run.course faltering s
    let content : ByteArray := ⟨#[68, 85, 77, 80]⟩
    let fault := Fault.copy "/staged" (uploadTarget "archives" (.mint .epoch))
      (.bare .connectionReset)
    Yields a.run steps (.error (fault.inStage .upload)) ∧
      Along (Stock.Serves id) s steps s' ∧
      s'.blobs (.mint .epoch) = some ⟨#[68, 85]⟩ ∧
      (∀ p, s'.blobs p ≠ s.blobs p → ∃ t, readings steps = [t] ∧ p = .mint t) ∧
      ∃ t, readings steps = [t] ∧ (∃ rest, content = joined (accepted steps) ++ rest) ∧
        ∀ blob, s'.blobs (.mint t) = some blob → blob = joined (accepted steps) := by
  intro a s s' steps content fault
  have hyields : Yields a.run steps (.error (fault.inStage .upload)) :=
    yields_course faltering a.run s
  have hstore : Along (Stock.Serves id) s steps s' :=
    along_course faltering faltering_serves a.run s
  have hcontent : ∀ path file, ⟨.openFile path, .ok file⟩ ∈ steps →
      (∃ rest, content = file.bytes ++ rest) ∧ (file.ending = .complete → file.bytes = content) := by
    intro path file hmem
    obtain ⟨u, hstep⟩ := exists_of_mem_course hmem
    obtain rfl : file = ⟨[⟨#[68, 85]⟩, ⟨#[77, 80]⟩], .complete⟩ := by
      simpa [faltering] using hstep
    exact ⟨⟨.empty, by decide⟩, fun _ => by decide⟩
  have hblob : s'.blobs (.mint .epoch) = some ⟨#[68, 85]⟩ := by decide +kernel
  obtain ⟨hchanged, _, hfaults⟩ := archive_changes_stock hyields hstore hcontent
  rcases hfaults _ rfl with ⟨hsame, _⟩ | hcut
  · rw [hsame] at hblob
    cases hblob
  · exact ⟨hyields, hstore, hblob, fun p hp => (hchanged p hp).2, hcut⟩

end DumpVault
