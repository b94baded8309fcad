import Mathlib.Algebra.GroupWithZero.Nat
import DumpVault.Proofs.Copying
import DumpVault.Run.Upload

/-!
# What an upload says to its store

The calls of an upload to its store form a word: a lookup, then the opening of a writer, then writes
of which only the last can fail, then one call that ends the writer. `UploadWord` gives the words
together with the faults that arise in them, in their order. Every course of `upload` says such a
word, returns the first of its faults and logs the others; it aborts the writer exactly when
cancellation has cut the copy off.
-/
namespace DumpVault
open Prog

namespace Prog.Step

/-- A call to the store, or the opening of the staging file. -/
def isVisible : Step → Bool
  | ⟨.connect _, _⟩ | ⟨.exists _, _⟩ | ⟨.openWriter _, _⟩ | ⟨.write _ _, _⟩ | ⟨.finalize _, _⟩
  | ⟨.abort _, _⟩ | ⟨.openReader _, _⟩ | ⟨.list, _⟩ | ⟨.openFile _, _⟩ => true
  | _ => false

/-- A wait that cancellation has cut off. -/
def isInterruption : Step → Bool
  | ⟨.pause, true⟩ | ⟨.stall, _⟩ | ⟨.write _ _, .interrupted⟩ => true
  | _ => false

def isAbort : Step → Bool
  | ⟨.abort _, _⟩ => true
  | _ => false

def warning? : Step → Option Line
  | ⟨.log line, _⟩ => if line.level = .warn then some line else none
  | _ => none

end Prog.Step

def acceptedWrites (w : Writer) (chunks : List ByteArray) : List Step :=
  chunks.map fun chunk => ⟨.write w chunk, .accepted⟩

/-- The writes of a copy of chunks, behind `total` bytes, and how the copy ends. -/
inductive CopyWord (w : Writer) (ending : Ending) (total : Nat) (chunks : List ByteArray) :
    List Step → CopyEnd → Prop
  | copied (whole : ending = .complete) :
      CopyWord w ending total chunks (acceptedWrites w chunks)
        (.copied (total + (chunks.map ByteArray.size).sum))
  | readFailed (fault : IoFault) (broken : ending = .failed fault) :
      CopyWord w ending total chunks (acceptedWrites w chunks) (.failed fault)
  | writeFailed (done rest : List ByteArray) (chunk : ByteArray) (fault : IoFault)
      (cut : chunks = done ++ chunk :: rest) :
      CopyWord w ending total chunks (acceptedWrites w done ++ [⟨.write w chunk, .failed fault⟩])
        (.failed fault)
  | unfinished (done rest : List ByteArray) (chunk : ByteArray)
      (cut : chunks = done ++ chunk :: rest) :
      CopyWord w ending total chunks (acceptedWrites w done ++ [⟨.write w chunk, .interrupted⟩])
        .interrupted
  | cancelled (done rest : List ByteArray) (cut : chunks = done ++ rest) :
      CopyWord w ending total chunks (acceptedWrites w done) .interrupted

def outcome : Option Fault → Except Fault Unit
  | none => .ok ()
  | some fault => .error fault

namespace CopyEnd

/-- The call that ends the writer: abort after an interruption, and else finalize. -/
def closing (w : Writer) : CopyEnd → Except IoFault Unit → Step
  | interrupted, reply => ⟨.abort w, reply⟩
  | copied _, reply | failed _, reply => ⟨.finalize w, reply⟩

def fault? (path target : String) : CopyEnd → Option Fault
  | copied _ => none
  | failed source => some (.copy path target source)
  | interrupted => some (.cancelled s!"uploading {target}")

def closingFault? (target : String) : CopyEnd → Except IoFault Unit → Option Fault
  | _, .ok _ => none
  | interrupted, .error source => some (.finalize s!"aborted writer for {target}" source)
  | _, .error source => some (.finalize s!"writer for {target}" source)

end CopyEnd

/-- What an upload asks of the store and the staging file, with the faults that arise. -/
inductive UploadWord (bucket path : String) (key : Key) : List Step → List Fault → Prop
  | lookupFailed (fault : Fault) :
      UploadWord bucket path key [⟨.exists key, .error fault⟩] [fault]
  | taken :
      UploadWord bucket path key [⟨.exists key, .ok true⟩] [.objectExists bucket key.text]
  | unreadable (source : IoFault) :
      UploadWord bucket path key [⟨.exists key, .ok false⟩, ⟨.openFile path, .error source⟩]
        [.stagingRead path source]
  | unopened (file : Source) (fault : Fault) :
      UploadWord bucket path key
        [⟨.exists key, .ok false⟩, ⟨.openFile path, .ok file⟩, ⟨.openWriter key, .error fault⟩]
        [fault]
  | ended (file : Source) (w : Writer) {writes : List Step} {copy : CopyEnd}
      (reply : Except IoFault Unit)
      (copying : CopyWord w file.ending 0 (file.reads copyLimit) writes copy) :
      UploadWord bucket path key
        (⟨.exists key, .ok false⟩ :: ⟨.openFile path, .ok file⟩ :: ⟨.openWriter key, .ok w⟩ ::
          (writes ++ [copy.closing w reply]))
        ((copy.fault? path (uploadTarget bucket key)).toList ++
          (copy.closingFault? (uploadTarget bucket key) reply).toList)

/-- The result of an upload in which faults arose one after the other. -/
def uploadResult (key : Key) : List Fault → Except Fault Key
  | [] => .ok key
  | fault :: _ => .error fault

/-- Whether cancellation has cut the run off somewhere. -/
def Interrupted (steps : List Step) : Prop := ∃ s ∈ steps, s.isInterruption = true

def warnings (steps : List Step) : List Line := steps.filterMap Step.warning?

def visible (steps : List Step) : List Step := steps.filter Step.isVisible

section Projections
variable {s : Step} {steps more : List Step}

@[simp] theorem interrupted_nil : ¬ Interrupted [] := by
  rintro ⟨_, h, _⟩
  cases h

@[simp] theorem interrupted_cons :
    Interrupted (s :: steps) ↔ s.isInterruption = true ∨ Interrupted steps := by
  simp [Interrupted]

@[simp] theorem interrupted_append :
    Interrupted (steps ++ more) ↔ Interrupted steps ∨ Interrupted more := by
  simp only [Interrupted, List.mem_append, or_and_right, exists_or]

@[simp] theorem visible_nil : visible [] = [] := rfl

@[simp] theorem warnings_nil : warnings [] = [] := rfl

theorem visible_cons : visible (s :: steps) =
    if s.isVisible then s :: visible steps else visible steps := List.filter_cons

theorem warnings_cons : warnings (s :: steps) = s.warning?.toList ++ warnings steps := by
  cases h : s.warning? <;> simp [warnings, h]

@[simp] theorem visible_append : visible (steps ++ more) = visible steps ++ visible more :=
  List.filter_append _ _

@[simp] theorem warnings_append : warnings (steps ++ more) = warnings steps ++ warnings more :=
  List.filterMap_append

@[simp] theorem visible_logSteps (lines : List Line) : visible (logSteps lines) = [] := by
  simp [visible, logSteps, List.filter_eq_nil_iff, Step.isVisible]

@[simp] theorem not_interrupted_logSteps (lines : List Line) : ¬ Interrupted (logSteps lines) := by
  simp [Interrupted, logSteps, Step.isInterruption]

theorem warnings_discarded (faults : List Fault) :
    warnings (logSteps (faults.map FirstFault.discarded)) = faults.map FirstFault.discarded := by
  induction faults with
  | nil => rfl
  | cons f faults ih =>
    rw [List.map_cons, logSteps, List.map_cons, warnings_cons, ← logSteps, ih]
    rfl

end Projections

theorem CopyWord.cons {w : Writer} {ending : Ending} {total : Nat} {chunk : ByteArray}
    {chunks : List ByteArray} {writes : List Step} {copy : CopyEnd}
    (h : CopyWord w ending (total + chunk.size) chunks writes copy) :
    CopyWord w ending total (chunk :: chunks) (⟨.write w chunk, .accepted⟩ :: writes) copy := by
  cases h with
  | copied whole =>
    have hsum : total + chunk.size + (chunks.map ByteArray.size).sum =
        total + ((chunk :: chunks).map ByteArray.size).sum := by
      simp only [List.map_cons, List.sum_cons]
      omega
    rw [hsum]
    exact .copied whole
  | readFailed fault broken => exact .readFailed fault broken
  | writeFailed done rest last fault cut =>
    exact .writeFailed (chunk :: done) rest last fault (by rw [cut, List.cons_append])
  | unfinished done rest last cut =>
    exact .unfinished (chunk :: done) rest last (by rw [cut, List.cons_append])
  | cancelled done rest cut => exact .cancelled (chunk :: done) rest (by rw [cut, List.cons_append])

/-- A copy's calls are a word of `CopyWord`; it ends as interrupted when a wait was cut off, and
only then. -/
theorem copyChunks_course {w : Writer} {ending : Ending} {chunks : List ByteArray} {total : Nat}
    {steps : List Step} {copy : CopyEnd} (h : Yields (copyChunks w ending chunks total) steps copy) :
    CopyWord w ending total chunks (visible steps) copy ∧
      (Interrupted steps ↔ copy = .interrupted) ∧ warnings steps = [] := by
  induction chunks generalizing total steps with
  | nil =>
    obtain ⟨cut, rest, rfl, hcut⟩ := yields_ask_bind.mp h
    cases cut with
    | true =>
      obtain ⟨rfl, rfl⟩ := yields_pure.mp hcut
      exact ⟨.cancelled [] _ rfl, by simp [Step.isInterruption], rfl⟩
    | false =>
      cases ending with
      | complete =>
        obtain ⟨rfl, rfl⟩ := yields_pure.mp hcut
        exact ⟨.copied rfl, by simp [Step.isInterruption], rfl⟩
      | failed fault =>
        obtain ⟨rfl, rfl⟩ := yields_pure.mp hcut
        exact ⟨.readFailed fault rfl, by simp [Step.isInterruption], rfl⟩
      | stalled =>
        obtain ⟨_, _, rfl, hend⟩ := yields_ask_bind.mp hcut
        obtain ⟨rfl, rfl⟩ := yields_pure.mp hend
        exact ⟨.cancelled [] _ rfl, by simp [Step.isInterruption], rfl⟩
  | cons chunk chunks ih =>
    obtain ⟨cut, rest, rfl, hcut⟩ := yields_ask_bind.mp h
    cases cut with
    | true =>
      obtain ⟨rfl, rfl⟩ := yields_pure.mp hcut
      exact ⟨.cancelled [] _ rfl, by simp [Step.isInterruption], rfl⟩
    | false =>
      obtain ⟨taken, rest, rfl, htaken⟩ := yields_ask_bind.mp hcut
      cases taken with
      | accepted =>
        obtain ⟨hword, hint, hwarn⟩ := ih htaken
        exact ⟨hword.cons, by simpa [Step.isInterruption] using hint, hwarn⟩
      | failed fault =>
        obtain ⟨rfl, rfl⟩ := yields_pure.mp htaken
        exact ⟨.writeFailed [] chunks chunk fault rfl, by simp [Step.isInterruption], rfl⟩
      | interrupted =>
        obtain ⟨rfl, rfl⟩ := yields_pure.mp htaken
        exact ⟨.unfinished [] chunks chunk rfl, by simp [Step.isInterruption], rfl⟩

/-- Taking in one more result: the first of all faults is kept, and a later one is logged. -/
theorem record_outcome (a : FirstFault) (fault? : Option Fault) :
    (a.record (outcome fault?)).1.first = (a.first.toList ++ fault?.toList).head? ∧
      (a.record (outcome fault?)).2 =
        (a.first.toList ++ fault?.toList).tail.map FirstFault.discarded := by
  obtain ⟨_ | f⟩ := a <;> cases fault? <;> exact ⟨rfl, rfl⟩

theorem finalizeWriter_course {w : Writer} {target : String} {steps : List Step}
    {r : Except Fault Unit} (h : Yields (finalizeWriter w target) steps r) {copy : CopyEnd}
    (hcopy : copy ≠ .interrupted) :
    ∃ reply, steps = [copy.closing w reply] ∧ r = outcome (copy.closingFault? target reply) := by
  obtain ⟨reply, rest, rfl, hr⟩ := yields_ask_bind.mp h
  refine ⟨reply, ?_⟩
  cases reply <;> obtain ⟨rfl, rfl⟩ := yields_pure.mp hr <;> cases copy <;>
    first | exact absurd rfl hcopy | exact ⟨rfl, rfl⟩

theorem abortWriter_course {w : Writer} {target : String} {steps : List Step}
    {r : Except Fault Unit} (h : Yields (abortWriter w target) steps r) :
    ∃ reply, steps = [CopyEnd.interrupted.closing w reply] ∧
      r = outcome (CopyEnd.interrupted.closingFault? target reply) := by
  obtain ⟨reply, rest, rfl, hr⟩ := yields_ask_bind.mp h
  cases reply <;> obtain ⟨rfl, rfl⟩ := yields_pure.mp hr <;> exact ⟨_, rfl, rfl⟩

theorem closing_course {w : Writer} {target : String} {copy : CopyEnd} {a faults : FirstFault}
    {close : Prog (Except Fault Unit)} {steps : List Step}
    (hclose : ∀ {s r}, Yields close s r →
      ∃ reply, s = [copy.closing w reply] ∧ r = outcome (copy.closingFault? target reply))
    (h : Yields (close >>= record a) steps faults) :
    ∃ reply, visible steps = [copy.closing w reply] ∧ ¬ Interrupted steps ∧
      faults.first = (a.first.toList ++ (copy.closingFault? target reply).toList).head? ∧
      warnings steps =
        (a.first.toList ++ (copy.closingFault? target reply).toList).tail.map FirstFault.discarded := by
  obtain ⟨s, t, r, rfl, hs, hrec⟩ := yields_bind_iff.mp h
  obtain ⟨reply, rfl, rfl⟩ := hclose hs
  obtain ⟨rfl, rfl⟩ := yields_record.mp hrec
  obtain ⟨hfirst, hlines⟩ := record_outcome a (copy.closingFault? target reply)
  have hword : (copy.closing w reply).isVisible = true ∧
      (copy.closing w reply).isInterruption = false ∧ (copy.closing w reply).warning? = none := by
    cases copy <;> exact ⟨rfl, rfl, rfl⟩
  refine ⟨reply, ?_, ?_, hfirst, ?_⟩
  · simp [visible_cons, hword]
  · simp [hword]
  · rw [hlines, warnings_append, warnings_discarded, warnings_cons, hword.2.2]
    rfl

/-- The end of an upload makes one visible call. Of the faults of the copy and of that call the first
is kept, and the other is logged. -/
theorem endUpload_course {w : Writer} {path target : String} {key : Key} {copy : CopyEnd}
    {steps : List Step} {faults : FirstFault}
    (h : Yields (endUpload w path target key copy) steps faults) :
    ∃ reply, visible steps = [copy.closing w reply] ∧ ¬ Interrupted steps ∧
      faults.first = ((copy.fault? path target).toList ++
        (copy.closingFault? target reply).toList).head? ∧
      warnings steps = ((copy.fault? path target).toList ++
        (copy.closingFault? target reply).toList).tail.map FirstFault.discarded := by
  cases copy with
  | copied bytes =>
    obtain ⟨rest, rfl, hrest⟩ := yields_log_bind.mp h
    have hcopy : CopyEnd.copied bytes ≠ .interrupted := by simp
    obtain ⟨reply, hvis, hint, hfirst, hwarn⟩ :=
      closing_course (fun hs => finalizeWriter_course hs hcopy) hrest
    exact ⟨reply, hvis, by simpa [Step.isInterruption] using hint, hfirst, hwarn⟩
  | failed source =>
    obtain ⟨s, t, a, rfl, hrec, hrest⟩ := yields_bind_iff.mp h
    obtain ⟨rfl, rfl⟩ := yields_record.mp hrec
    exact closing_course (fun hs => finalizeWriter_course hs (by simp)) hrest
  | interrupted =>
    obtain ⟨s, t, a, rfl, hrec, hrest⟩ := yields_bind_iff.mp h
    obtain ⟨rfl, rfl⟩ := yields_record.mp hrec
    exact closing_course abortWriter_course hrest

theorem CopyWord.exists_write {w : Writer} {ending : Ending} {total : Nat}
    {chunks : List ByteArray} {writes : List Step} {copy : CopyEnd}
    (h : CopyWord w ending total chunks writes copy) :
    ∀ s ∈ writes, ∃ chunk taken, s = ⟨.write w chunk, taken⟩ := by
  have haccepted : ∀ done, ∀ s ∈ acceptedWrites w done, ∃ chunk taken,
      s = ⟨.write w chunk, taken⟩ := by
    intro done s hs
    obtain ⟨chunk, _, rfl⟩ := List.mem_map.mp hs
    exact ⟨chunk, _, rfl⟩
  cases h with
  | copied | readFailed | cancelled => exact haccepted _
  | writeFailed | unfinished =>
    intro s hs
    rcases List.mem_append.mp hs with hs | hs
    · exact haccepted _ s hs
    · exact ⟨_, _, List.mem_singleton.mp hs⟩

/-- A writer is aborted exactly after an interrupted copy. -/
theorem exists_abort_iff {w : Writer} {ending : Ending} {total : Nat} {chunks : List ByteArray}
    {writes : List Step} {copy : CopyEnd} {reply : Except IoFault Unit}
    (h : CopyWord w ending total chunks writes copy) :
    (∃ s ∈ writes ++ [copy.closing w reply], s.isAbort = true) ↔ copy = .interrupted := by
  constructor
  · rintro ⟨s, hs, habort⟩
    rcases List.mem_append.mp hs with hs | hs
    · obtain ⟨chunk, taken, rfl⟩ := h.exists_write s hs
      cases habort
    · obtain rfl := List.mem_singleton.mp hs
      cases copy with
      | copied | failed => cases habort
      | interrupted => rfl
  · rintro rfl
    exact ⟨⟨.abort w, reply⟩, by simp [CopyEnd.closing], rfl⟩

theorem exists_abort_visible {steps : List Step} :
    (∃ s ∈ steps, s.isAbort = true) ↔ ∃ s ∈ visible steps, s.isAbort = true := by
  have hvisible : ∀ s : Step, s.isAbort = true → s.isVisible = true := by
    rintro ⟨c, r⟩ h
    cases c <;> first | rfl | cases h
  constructor
  · rintro ⟨s, hs, habort⟩
    exact ⟨s, List.mem_filter.mpr ⟨hs, hvisible s habort⟩, habort⟩
  · rintro ⟨s, hs, habort⟩
    exact ⟨s, (List.mem_filter.mp hs).1, habort⟩

theorem uploadFrom_course {bucket path : String} {key : Key} {file : Source} {steps : List Step}
    {result : Except Fault Key} (h : Yields (uploadFrom bucket path key file) steps result) :
    ∃ faults, UploadWord bucket path key
        (⟨.exists key, .ok false⟩ :: ⟨.openFile path, .ok file⟩ :: visible steps) faults ∧
      result = uploadResult key faults ∧ warnings steps = faults.tail.map FirstFault.discarded ∧
      ((∃ s ∈ steps, s.isAbort = true) ↔ Interrupted steps) := by
  obtain ⟨rest, rfl, hopen⟩ := yields_log_bind.mp h
  obtain ⟨opened, rest, rfl, hw⟩ := yields_ask_bind.mp hopen
  cases opened with
  | error fault =>
    obtain ⟨rfl, rfl⟩ := yields_pure.mp hw
    exact ⟨[fault], .unopened file fault, rfl, rfl, by simp [Step.isAbort, Step.isInterruption]⟩
  | ok w =>
    obtain ⟨copying, rest, copy, rfl, hcopy, hrest⟩ := yields_bind_iff.mp hw
    obtain ⟨closing, rest, faults, rfl, hclose, hresult⟩ := yields_bind_iff.mp hrest
    rw [copyInto_eq] at hcopy
    obtain ⟨hword, hint, hwarn⟩ := copyChunks_course hcopy
    obtain ⟨reply, hvis, hnot, hfirst, hlater⟩ := endUpload_course hclose
    have hdone : visible rest = [] ∧ warnings rest = [] ∧ ¬ Interrupted rest ∧
        result = uploadResult key ((copy.fault? path (uploadTarget bucket key)).toList ++
          (copy.closingFault? (uploadTarget bucket key) reply).toList) := by
      obtain ⟨first⟩ := faults
      simp only at hfirst
      cases first with
      | some fault =>
        obtain ⟨rfl, rfl⟩ := yields_pure.mp hresult
        obtain ⟨later, hfaults⟩ := List.head?_eq_some_iff.mp hfirst.symm
        rw [hfaults]
        exact ⟨rfl, rfl, interrupted_nil, rfl⟩
      | none =>
        obtain ⟨last, rfl, hlast⟩ := yields_log_bind.mp hresult
        obtain ⟨rfl, rfl⟩ := yields_pure.mp hlast
        rw [List.head?_eq_none_iff.mp hfirst.symm]
        exact ⟨rfl, rfl, by simp [Step.isInterruption], rfl⟩
    obtain ⟨hvisible, hquiet, hcalm, hresult⟩ := hdone
    have hsaid : visible (⟨.log ⟨.info, s!"uploading {path} to {bucket} as {key.text}"⟩, ()⟩ ::
        ⟨.openWriter key, .ok w⟩ :: (copying ++ (closing ++ rest))) =
        ⟨.openWriter key, .ok w⟩ :: (visible copying ++ [copy.closing w reply]) := by
      simp [visible_cons, Step.isVisible, hvis, hvisible]
    refine ⟨_, by rw [hsaid]; exact .ended file w reply hword, hresult, ?_, ?_⟩
    · simp [warnings_cons, Step.warning?, hwarn, hlater, hquiet]
    · rw [exists_abort_visible, hsaid]
      simpa [Step.isAbort, Step.isInterruption, hnot, hcalm, hint] using exists_abort_iff hword

/-- Every upload mints one key, says a word under that key, and aborts the writer exactly when
cancellation has won. Its result is the first fault of the word, or the key if there is none; each
later fault is a warning in the log. -/
theorem upload_says_word {bucket path : String} {steps : List Step} {result : Except Fault Key}
    (h : Yields (upload bucket path) steps result) :
    ∃ (t : Calendar.Instant) (faults : List Fault), steps.head? = some ⟨.now, t⟩ ∧
      UploadWord bucket path (Key.mint t) (visible steps) faults ∧
      result = uploadResult (Key.mint t) faults ∧
      warnings steps = faults.tail.map FirstFault.discarded ∧
      ((∃ s ∈ steps, s.isAbort = true) ↔ Interrupted steps) := by
  obtain ⟨t, rest, rfl, hkey⟩ := yields_ask_bind.mp h
  obtain ⟨found, rest, rfl, hfound⟩ := yields_ask_bind.mp hkey
  match found with
  | .error fault =>
    obtain ⟨rfl, rfl⟩ := yields_pure.mp hfound
    exact ⟨t, [fault], rfl, .lookupFailed fault, rfl, rfl, by simp [Step.isAbort, Step.isInterruption]⟩
  | .ok true =>
    obtain ⟨rfl, rfl⟩ := yields_pure.mp hfound
    exact ⟨t, _, rfl, .taken, rfl, rfl, by simp [Step.isAbort, Step.isInterruption]⟩
  | .ok false =>
    obtain ⟨opened, rest, rfl, hopened⟩ := yields_ask_bind.mp hfound
    cases opened with
    | error source =>
      obtain ⟨rfl, rfl⟩ := yields_pure.mp hopened
      exact ⟨t, _, rfl, .unreadable source, rfl, rfl, by simp [Step.isAbort, Step.isInterruption]⟩
    | ok file =>
      obtain ⟨faults, hword, hresult, hwarn, habort⟩ := uploadFrom_course hopened
      exact ⟨t, faults, rfl, hword, hresult, hwarn,
        by simpa [Step.isAbort, Step.isInterruption] using habort⟩

/-- A write fails and then the writer fails to close: the write is what is reported. -/
theorem upload_says_word_failing_twice :
    let bucket := "archives"
    let path := "/staged"
    let key := Key.mint .epoch
    let chunk : ByteArray := ⟨#[68, 85, 77, 80]⟩
    let target := uploadTarget bucket key
    let fault := Fault.copy path target (.bare .connectionReset)
    let later := Fault.finalize s!"writer for {target}" (.bare .other)
    let steps : List Step := [⟨.now, .epoch⟩, ⟨.exists key, .ok false⟩,
      ⟨.openFile path, .ok (.ofBytes chunk)⟩,
      ⟨.log ⟨.info, s!"uploading {path} to {bucket} as {key.text}"⟩, ()⟩,
      ⟨.openWriter key, .ok ⟨0⟩⟩, ⟨.pause, false⟩,
      ⟨.write ⟨0⟩ chunk, .failed (.bare .connectionReset)⟩,
      ⟨.finalize ⟨0⟩, .error (.bare .other)⟩, ⟨.log (FirstFault.discarded later), ()⟩]
    Yields (upload bucket path) steps (.error fault) ∧
      ∃ t faults, steps.head? = some ⟨.now, t⟩ ∧
        UploadWord bucket path (Key.mint t) (visible steps) faults ∧
        Except.error fault = uploadResult (Key.mint t) faults ∧
        warnings steps = faults.tail.map FirstFault.discarded ∧
        ((∃ s ∈ steps, s.isAbort = true) ↔ Interrupted steps) := by
  intro bucket path key chunk target fault later steps
  have h : Yields (upload bucket path) steps (.error fault) := by
    have hreads : (Source.ofBytes ⟨#[68, 85, 77, 80]⟩).reads copyLimit = [chunk] := by decide
    refine .call (.call (.call (.call (yields_ask_bind.mpr ⟨.ok ⟨0⟩, _, rfl, ?_⟩))))
    refine yields_bind_iff.mpr ⟨[⟨.pause, false⟩, ⟨.write ⟨0⟩ chunk, .failed (.bare .connectionReset)⟩],
      _, .failed (.bare .connectionReset), rfl, ?_, .call (.call (.pure _))⟩
    rw [copyInto_eq, hreads]
    exact .call (.call (.pure _))
  exact ⟨h, upload_says_word h⟩

end DumpVault
