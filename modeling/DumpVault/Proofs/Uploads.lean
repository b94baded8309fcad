import DumpVault.Proofs.Passages
import DumpVault.Proofs.UploadWord
import DumpVault.Proofs.World

/-!
# What an archive run says to its store

A run that comes to its upload reads the clock once and says one word of `UploadWord`; any other run
says nothing.
-/
namespace DumpVault
open Prog

/-- The calls by which an open staging file is put into the store. -/
def Call.isPut : Call → Prop
  | .log _ | .pause | .stall | .openWriter _ | .write _ _ | .finalize _ | .abort _ => True
  | _ => False

/-- The calls by which an open staging file is put into the store under a key. -/
def Call.puts (key : Key) : Call → Prop
  | .openWriter k => k = key
  | c => c.isPut

theorem Call.isPut_of_puts {key : Key} {c : Call} (hc : c.puts key) : c.isPut := by
  cases c with
  | openWriter => trivial
  | _ => exact hc

theorem only_copyChunks (key : Key) (wr : Writer) (ending : Ending) (chunks : List ByteArray) (total : Nat) :
    (copyChunks wr ending chunks total).Only (Call.puts key) := by
  induction chunks generalizing total with
  | nil =>
    refine only_ask_bind trivial fun cut => ?_
    cases cut with
    | true => exact only_pure _
    | false =>
      cases ending with
      | complete | failed => exact only_pure _
      | stalled => exact only_ask_bind trivial fun _ => only_pure _
  | cons chunk chunks ih =>
    refine only_ask_bind trivial fun cut => ?_
    cases cut with
    | true => exact only_pure _
    | false =>
      refine only_ask_bind trivial fun taken => ?_
      cases taken with
      | accepted => exact ih _
      | failed | interrupted => exact only_pure _

theorem only_endUpload (wr : Writer) (path target : String) (key : Key) (copy : CopyEnd) :
    (endUpload wr path target key copy).Only (Call.puts key) := by
  have hrecord : ∀ a r, (record a r).Only (Call.puts key) := fun a r => only_record fun _ => trivial
  have hfinalize : (finalizeWriter wr target).Only (Call.puts key) :=
    only_ask_bind trivial fun r => by cases r <;> exact only_pure _
  have habort : (abortWriter wr target).Only (Call.puts key) :=
    only_ask_bind trivial fun r => by cases r <;> exact only_pure _
  cases copy with
  | copied n =>
    exact only_ask_bind trivial fun _ => only_bind hfinalize fun _ => hrecord _ _
  | failed fault =>
    exact only_bind (hrecord _ _) fun _ => only_bind hfinalize fun _ => hrecord _ _
  | interrupted => exact only_bind (hrecord _ _) fun _ => only_bind habort fun _ => hrecord _ _

theorem only_uploadFrom (bucket path : String) (key : Key) (file : Source) :
    (uploadFrom bucket path key file).Only (Call.puts key) := by
  refine only_ask_bind trivial fun _ => only_ask_bind rfl fun wr => ?_
  cases wr with
  | error fault => exact only_pure _
  | ok wr =>
    have hcopy : (copyInto wr file).Only (Call.puts key) :=
      copyInto_eq wr file ▸ only_copyChunks _ _ _ _ _
    refine only_bind hcopy fun copy => only_bind (only_endUpload _ _ _ _ _)
      fun faults => ?_
    cases faults.finish _ with
    | error fault => exact only_pure _
    | ok key => exact only_ask_bind trivial fun _ => only_pure _

/-- All calls of an upload. -/
def Call.isUpload : Call → Prop
  | .now | .exists _ | .openFile _ => True
  | c => c.isPut

theorem Call.isUpload_of_put {c : Call} (hc : c.isPut) : c.isUpload := by
  cases c with
  | now | «exists» | openFile => trivial
  | _ => exact hc

theorem only_upload (bucket path : String) : (upload bucket path).Only Call.isUpload := by
  refine only_ask_bind trivial fun now => only_ask_bind trivial fun found => ?_
  match found with
  | .error fault => exact only_pure _
  | .ok true => exact only_pure _
  | .ok false =>
    refine only_ask_bind trivial fun opened => ?_
    cases opened with
    | error source => exact only_pure _
    | ok file => exact (only_uploadFrom _ _ _ _).mono fun _ hc => Call.isUpload_of_put (Call.isPut_of_puts hc)

def Prog.Step.reading? : Step → Option Calendar.Instant
  | ⟨.now, t⟩ => some t
  | _ => none

def readings (steps : List Step) : List Calendar.Instant := steps.filterMap Step.reading?

@[simp] theorem readings_nil : readings [] = [] := rfl

@[simp] theorem readings_append {steps more : List Step} :
    readings (steps ++ more) = readings steps ++ readings more := List.filterMap_append

theorem readings_cons {s : Step} {steps : List Step} :
    readings (s :: steps) = s.reading?.toList ++ readings steps := by
  cases h : s.reading? <;> simp [readings, h]

theorem readings_of_put {steps : List Step} (h : ∀ s ∈ steps, s.call.isPut) :
    readings steps = [] := by
  refine List.filterMap_eq_nil_iff.mpr fun s hs => ?_
  obtain ⟨c, r⟩ := s
  cases c with
  | now => exact (h _ hs).elim
  | _ => rfl

theorem mem_visible {s : Step} {steps : List Step} (hs : s.isVisible = true) :
    s ∈ visible steps ↔ s ∈ steps := by
  simp [visible, hs]

/-- An upload reads the clock once and says a word under the key of that moment. It aborts its writer
when a wait was cut off, and only then. -/
theorem upload_course {bucket path : String} {steps : List Step} {result : Except Fault Key}
    (h : Yields (upload bucket path) steps result) : ∃ t faults, readings steps = [t] ∧
      UploadWord bucket path (.mint t) (visible steps) faults ∧
      result = uploadResult (.mint t) faults ∧
      warnings steps = faults.tail.map FirstFault.discarded ∧
      ((∃ s ∈ steps, s.isAbort = true) ↔ Interrupted steps) := by
  obtain ⟨t, rest, rfl, hkey⟩ := yields_ask_bind.mp h
  obtain ⟨found, rest, rfl, hfound⟩ := yields_ask_bind.mp hkey
  refine ⟨t, ?_⟩
  match found with
  | .error fault =>
    obtain ⟨rfl, rfl⟩ := yields_pure.mp hfound
    exact ⟨[fault], rfl, .lookupFailed fault, rfl, rfl, by simp [Step.isAbort, Step.isInterruption]⟩
  | .ok true =>
    obtain ⟨rfl, rfl⟩ := yields_pure.mp hfound
    exact ⟨_, rfl, .taken, rfl, rfl, by simp [Step.isAbort, Step.isInterruption]⟩
  | .ok false =>
    obtain ⟨opened, rest, rfl, hopened⟩ := yields_ask_bind.mp hfound
    cases opened with
    | error source =>
      obtain ⟨rfl, rfl⟩ := yields_pure.mp hopened
      exact ⟨_, rfl, .unreadable source, rfl, rfl, by simp [Step.isAbort, Step.isInterruption]⟩
    | ok file =>
      obtain ⟨faults, hword, hresult, hwarn, habort⟩ := uploadFrom_course hopened
      have hreadings := readings_of_put fun s hs =>
        Call.isPut_of_puts ((only_uploadFrom _ _ _ _).mem hopened s hs)
      exact ⟨faults, by simpa [readings_cons, Step.reading?] using hreadings, hword, hresult, hwarn,
        by simpa [Step.isAbort, Step.isInterruption] using habort⟩

theorem Dump.Course.silent {d : Dump} {steps : List Step} {r : Except Fault String}
    (h : d.Course steps r) : readings steps = [] ∧ visible steps = [] := by
  have hends : ∀ {command utility fault}, d.Ends command utility fault →
      readings utility = [] ∧ visible utility = [] := by
    rintro command utility fault (_ | _ | _ | ⟨_, _ | _ | _⟩ | _) <;> exact ⟨rfl, rfl⟩
  cases h with
  | uncreated | refused => exact ⟨rfl, rfl⟩
  | failed path password ends | dumped path password ends =>
    obtain ⟨hreadings, hvisible⟩ := hends ends
    constructor
    · rw [readings_append, readings_append, hreadings]
      rfl
    · rw [visible_append, visible_append, hvisible]
      rfl

namespace Archiver

variable {a : Archiver} {steps : List Step} {r : Except Fault Key}

/-- What a run with these readings of the clock has said to its store, and with what result. -/
inductive Said (a : Archiver) : List Calendar.Instant → List Step → Except Fault Key → Prop
  | nothing (fault : Fault) : Said a [] [] (.error fault)
  | word (path : String) (t : Calendar.Instant) {said : List Step} {faults : List Fault}
      (uploading : UploadWord a.bucket path (.mint t) said faults) :
      Said a [t] said (tagged .upload (uploadResult (.mint t) faults))

theorem CleanedUp.silent {path : String} (h : a.CleanedUp path steps) :
    readings steps = [] ∧ visible steps = [] := by
  cases h <;> exact ⟨rfl, rfl⟩

/-- Every archive run says nothing or the word of one upload. -/
theorem said_of_yields (h : Yields a.run steps r) : a.Said (readings steps) (visible steps) r := by
  have htoDump : readings toDump = [] ∧ visible toDump = [] := ⟨rfl, rfl⟩
  have htoUpload : readings toUpload = [] ∧ visible toUpload = [] := ⟨rfl, rfl⟩
  have hline : ∀ line, readings [.line line] = [] ∧ visible [.line line] = [] :=
    fun _ => ⟨rfl, rfl⟩
  cases course_of_yields h with
  | cutBeforeDump => exact .nothing _
  | undumped dumping | cutBeforeUpload dumping =>
    obtain ⟨hreadings, hvisible⟩ := dumping.silent
    rw [readings_append, readings_append, visible_append, visible_append, hreadings, hvisible]
    exact .nothing _
  | unstored dumping uploading =>
    obtain ⟨t, faults, ht, hword, hresult, _⟩ := upload_course uploading
    have hsaid := Said.word _ t hword
    rw [← hresult, tagged] at hsaid
    simpa [htoDump, htoUpload, hline, dumping.silent, ht] using hsaid
  | stored dumping uploading cleaned =>
    obtain ⟨t, faults, ht, hword, hresult, _⟩ := upload_course uploading
    have hsaid := Said.word _ t hword
    rw [← hresult, tagged] at hsaid
    simpa [htoDump, htoUpload, hline, dumping.silent, cleaned.silent, ht] using hsaid

end Archiver
end DumpVault
