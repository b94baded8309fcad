import DumpVault.Proofs.Applying
import DumpVault.Proofs.Uploads

/-!
# What may go wrong

Each part of a pipeline has its own faults: the steps at which it may fail, with the fault that this
makes. The fault that a part returns is always the own fault of one of its steps, and it is a
cancellation only where the part has learnt of one or has been handed one.
-/
namespace DumpVault
open Prog

namespace Prog

/-- A step at which the run learns that it has been cancelled. -/
def Step.showsCancelled : Step → Bool
  | ⟨.isCancelled, true⟩ | ⟨.offer _, .interrupted⟩ | ⟨.wait, .interrupted⟩ => true
  | s => s.isInterruption

/-- A fault that the store, or the provider of the secret, has made and handed over. -/
def Step.handed? : Step → Option Fault
  | ⟨.password _, .error fault⟩ | ⟨.exists _, .error fault⟩ | ⟨.openWriter _, .error fault⟩
  | ⟨.openReader _, .error fault⟩ | ⟨.list, .error fault⟩ => some fault
  | _ => none

/-- A cancellation that is no one else's. -/
def Step.Accounts (s : Step) (own : Fault) : Prop :=
  own.isCancelled = true → s.showsCancelled = true ∨ s.handed? = some own

end Prog

/-- The faults that an attempt to enter a stage may raise. -/
inductive Stage.Raises (stage : Stage) : Step → Fault → Prop
  | cut : stage.Raises ⟨.isCancelled, true⟩ (.cancelled s!"starting the {stage.name} stage")

theorem Stage.Raises.accounts {stage : Stage} {s : Step} {own : Fault} (h : stage.Raises s own) :
    s.Accounts own := by
  cases h
  exact fun _ => .inl rfl

namespace Dump

/-- What may go wrong in a dump, with the fault that this makes. -/
inductive Raises (d : Dump) : Step → Fault → Prop
  | uncreated (fault : IoFault) :
      Raises d ⟨.createStaging d.stagingDir, .error fault⟩ (.stagingCreate d.stagingDir fault)
  | refused (fault : Fault) : Raises d ⟨.password d.utility.password, .error fault⟩ fault
  | unstarted (command : Command) (fault : IoFault) :
      Raises d ⟨.spawn command, .error fault⟩ (d.failure (.spawn fault))
  | lost (fault : IoFault) : Raises d ⟨.wait, .failed fault⟩ (d.failure (.wait fault))
  | failed (status : ExitStatus) (unsuccessful : status.isSuccess = false) :
      Raises d ⟨.wait, .exited status⟩ (d.failure (.exit status))
  | overtaken :
      Raises d ⟨.wait, .interrupted⟩ (.cancelled s!"dumping database '{d.utility.database}'")

variable {d : Dump} {steps : List Step} {s : Step} {own : Fault}

theorem Raises.accounts (h : d.Raises s own) : s.Accounts own := by
  intro hcancelled
  cases h with
  | refused => exact .inr rfl
  | overtaken => exact .inl rfl
  | uncreated | unstarted | lost | failed => cases hcancelled

theorem Course.raises (h : d.Course steps (.error own)) : ∃ s ∈ steps, d.Raises s own := by
  cases h with
  | uncreated fault => exact ⟨_, List.mem_cons_self, .uncreated fault⟩
  | refused path => exact ⟨_, by simp, .refused own⟩
  | failed path password ends =>
    cases ends with
    | unstarted fault => exact ⟨_, by simp, .unstarted (d.command path password) fault⟩
    | lost captured fault => exact ⟨⟨.wait, .failed fault⟩, by simp, .lost fault⟩
    | failed captured status unsuccessful =>
      exact ⟨⟨.wait, .exited status⟩, by simp, .failed status unsuccessful⟩
    | overtaken captured killed => exact ⟨⟨.wait, .interrupted⟩, by simp, .overtaken⟩

end Dump

/-- What may go wrong in an upload. A read that fails shows at the source that was opened. -/
inductive UploadRaises (bucket path : String) (key : Key) : Step → Fault → Prop
  | lookup (fault : Fault) : UploadRaises bucket path key ⟨.exists key, .error fault⟩ fault
  | taken :
      UploadRaises bucket path key ⟨.exists key, .ok true⟩ (.objectExists bucket key.text)
  | unreadable (source : IoFault) :
      UploadRaises bucket path key ⟨.openFile path, .error source⟩ (.stagingRead path source)
  | unopened (fault : Fault) : UploadRaises bucket path key ⟨.openWriter key, .error fault⟩ fault
  | readFailed (file : Source) (source : IoFault) (broken : file.ending = .failed source) :
      UploadRaises bucket path key ⟨.openFile path, .ok file⟩
        (.copy path (uploadTarget bucket key) source)
  | writeFailed (w : Writer) (chunk : ByteArray) (source : IoFault) :
      UploadRaises bucket path key ⟨.write w chunk, .failed source⟩
        (.copy path (uploadTarget bucket key) source)
  | overtaken (s : Step) (cut : s.isInterruption = true) :
      UploadRaises bucket path key s (.cancelled s!"uploading {uploadTarget bucket key}")
  | unfinished (w : Writer) (source : IoFault) :
      UploadRaises bucket path key ⟨.finalize w, .error source⟩
        (.finalize s!"writer for {uploadTarget bucket key}" source)

section Upload
variable {bucket path : String} {key : Key} {s : Step} {own : Fault} {steps : List Step}

theorem UploadRaises.accounts (h : UploadRaises bucket path key s own) : s.Accounts own := by
  intro hcancelled
  cases h with
  | lookup | unopened => exact .inr rfl
  | overtaken s cut =>
    left
    revert cut
    unfold Step.showsCancelled
    split <;> simp
  | taken | unreadable | readFailed | writeFailed | unfinished => cases hcancelled

/-- The first fault of a copy that was not interrupted comes from the file or from a write. -/
theorem CopyWord.raises (bucket path : String) (key : Key) {file : Source} {w : Writer}
    {total : Nat} {chunks : List ByteArray} {writes : List Step} {source : IoFault}
    (h : CopyWord w file.ending total chunks writes (.failed source)) :
    ∃ s ∈ (⟨.openFile path, .ok file⟩ : Step) :: writes,
      UploadRaises bucket path key s (.copy path (uploadTarget bucket key) source) := by
  cases h with
  | readFailed _ broken => exact ⟨_, List.mem_cons_self, .readFailed file source broken⟩
  | writeFailed done rest chunk _ cut =>
    exact ⟨⟨.write w chunk, .failed source⟩, by simp, .writeFailed w chunk source⟩

/-- The fault of an upload is the own fault of one of its steps. -/
theorem upload_raises (h : Yields (upload bucket path) steps (.error own)) :
    ∃ t, ⟨.now, t⟩ ∈ steps ∧ ∃ s ∈ steps, UploadRaises bucket path (.mint t) s own := by
  obtain ⟨t, faults, ht, hword, hresult, _, habort⟩ := upload_course h
  have hnow : ⟨.now, t⟩ ∈ steps := by
    obtain ⟨⟨c, r⟩, hmem, hreading⟩ := List.mem_filterMap.mp (ht ▸ List.mem_singleton_self t)
    cases c with
    | now => cases hreading; exact hmem
    | _ => cases hreading
  refine ⟨t, hnow, ?_⟩
  suffices hraises : (∃ s ∈ visible steps, UploadRaises bucket path (.mint t) s own) ∨
      ∃ s ∈ steps, UploadRaises bucket path (.mint t) s own by
    rcases hraises with ⟨s, hs, hraises⟩ | hraises
    · exact ⟨s, (List.mem_filter.mp hs).1, hraises⟩
    · exact hraises
  generalize hsaid : visible steps = said at hword
  cases hword with
  | lookupFailed fault =>
    cases hresult
    exact .inl ⟨_, List.mem_cons_self, .lookup _⟩
  | taken =>
    cases hresult
    exact .inl ⟨_, List.mem_cons_self, .taken⟩
  | unreadable source =>
    cases hresult
    exact .inl ⟨_, by simp, .unreadable source⟩
  | unopened file fault =>
    cases hresult
    exact .inl ⟨⟨.openWriter (.mint t), .error own⟩, by simp, .unopened own⟩
  | @ended file w writes copy reply copying =>
    cases copy with
    | copied bytes =>
      cases reply with
      | ok => cases hresult
      | error source =>
        cases hresult
        exact .inl ⟨⟨.finalize w, .error source⟩, by simp [CopyEnd.closing], .unfinished w source⟩
    | failed source =>
      cases hresult
      obtain ⟨s, hs, hraises⟩ := copying.raises bucket path (.mint t)
      refine .inl ⟨s, ?_, hraises⟩
      rcases List.mem_cons.mp hs with rfl | hs <;> simp [*]
    | interrupted =>
      cases hresult
      have haborted : ∃ s ∈ steps, s.isAbort = true := by
        refine ⟨⟨.abort w, reply⟩, (mem_visible rfl).mp ?_, rfl⟩
        rw [hsaid]
        simp [CopyEnd.closing]
      obtain ⟨s, hs, hcut⟩ := habort.mp haborted
      exact .inr ⟨s, hs, .overtaken s hcut⟩

end Upload

namespace Restore

/-- What may go wrong while an archive is restored. A read that fails shows at the archive that was
opened, hence the call that has opened it. -/
inductive Raises (u : Utility) : Step → Fault → Prop
  | refused (fault : Fault) : Raises u ⟨.password u.password, .error fault⟩ fault
  | unstarted (command : Command) (fault : IoFault) :
      Raises u ⟨.spawn command, .error fault⟩ (failure u (.spawn fault))
  | uncaptured (command : Command) : Raises u ⟨.spawn command, .ok false⟩ (uncaptured u)
  | readFailed (key : Key) (archive : Source) (source : IoFault)
      (broken : archive.ending = .failed source) :
      Raises u ⟨.openReader key, .ok archive⟩ (feedFailure u source)
  | writeFailed (chunk : ByteArray) (source : IoFault) :
      Raises u ⟨.offer chunk, .failed source⟩ (feedFailure u source)
  | unclosed (source : IoFault) : Raises u ⟨.closeInput, .error source⟩ (feedFailure u source)
  | lost (fault : IoFault) : Raises u ⟨.wait, .failed fault⟩ (failure u (.wait fault))
  | failed (status : ExitStatus) (unsuccessful : status.isSuccess = false) :
      Raises u ⟨.wait, .exited status⟩ (failure u (.exit status))
  | overtaken (s : Step) (cut : s.showsCancelled = true) : Raises u s (overtaken u)

variable {u : Utility} {archive : Source} {s : Step} {own : Fault} {steps : List Step}

theorem Raises.accounts (h : Raises u s own) : s.Accounts own := by
  intro hcancelled
  cases h with
  | refused => exact .inr rfl
  | overtaken s cut => exact .inl cut
  | unstarted | uncaptured | readFailed | writeFailed | unclosed | lost | failed => cases hcancelled

theorem exists_cancelled_of_fed {ending : Ending} {total : Nat} {chunks : List ByteArray}
    (h : Fed ending total chunks steps .interrupted) : ∃ s ∈ steps, s.showsCancelled = true := by
  cases h with
  | stalled => exact ⟨⟨.stall, ()⟩, by simp, rfl⟩
  | unfinished done rest chunk => exact ⟨⟨.offer chunk, .interrupted⟩, by simp, rfl⟩
  | cancelled => exact ⟨⟨.pause, true⟩, by simp, rfl⟩

theorem mem_faults {fed : FeedEnd} {exit : Option Fault} (h : own ∈ fed.faults u exit) :
    exit = some own ∨ ∃ source, own = feedFailure u source ∧
      (fed = .readFailed source ∨ fed = .writeFailed source) := by
  cases fed with
  | fed => exact .inl (by simpa [FeedEnd.faults] using h)
  | interrupted => cases h
  | readFailed source =>
    rcases List.mem_cons.mp h with rfl | h
    · exact .inr ⟨source, rfl, .inl rfl⟩
    · exact .inl (by simpa using h)
  | writeFailed source =>
    have hmem : exit = some own ∨ own = feedFailure u source := by
      rw [FeedEnd.faults] at h
      split at h <;> simpa [or_comm] using h
    exact hmem.imp_right fun hown => ⟨source, hown, .inr rfl⟩

/-- Of a feed that came to its end and of the closing behind it, the fault is found again. -/
theorem feed_raises (key : Key) {feeding : List Step} {fed : FeedEnd} {closed : Except IoFault Unit}
    {source : IoFault} (feed : Fed archive.ending 0 (archive.reads feedLimit) feeding fed)
    (h : fed.closed closed = .readFailed source ∨ fed.closed closed = .writeFailed source) :
    ∃ s ∈ (⟨.openReader key, .ok archive⟩ : Step) :: (feeding ++ [⟨.closeInput, closed⟩]),
      Raises u s (feedFailure u source) := by
  cases feed with
  | whole =>
    cases closed with
    | ok => simp [FeedEnd.closed] at h
    | error fault =>
      obtain rfl : fault = source := by simpa [FeedEnd.closed] using h
      exact ⟨⟨.closeInput, .error fault⟩, by simp, .unclosed fault⟩
  | readFailed fault broken =>
    obtain rfl : fault = source := by simpa [FeedEnd.closed] using h
    exact ⟨_, List.mem_cons_self, .readFailed key archive fault broken⟩
  | refused done rest chunk fault =>
    obtain rfl : fault = source := by simpa [FeedEnd.closed] using h
    exact ⟨⟨.offer chunk, .failed fault⟩, by simp, .writeFailed chunk fault⟩
  | stalled | unfinished | cancelled => simp [FeedEnd.closed] at h

theorem Feeding.raises (key : Key) (h : Feeding u archive steps (.error own)) :
    ∃ s ∈ (⟨.openReader key, .ok archive⟩ : Step) :: steps, Raises u s own := by
  generalize hresult : Except.error own = result at h
  cases h with
  | cutInFeed feed killed =>
    cases hresult
    obtain ⟨s, hs, hcut⟩ := exists_cancelled_of_fed feed
    exact ⟨s, by simp [hs], .overtaken s hcut⟩
  | cutInWait closed feed ended killed =>
    cases hresult
    exact ⟨⟨.wait, .interrupted⟩, by simp, .overtaken _ rfl⟩
  | @settled feeding fed closed waited feed ended gone =>
    have hmem : own ∈ (fed.closed closed).faults u (waitedFault? u waited) := by
      refine List.mem_of_mem_head? ?_
      revert hresult
      cases ((fed.closed closed).faults u (waitedFault? u waited)).head? <;>
        simp [outcome, eq_comm]
    obtain hexit | ⟨source, rfl, hfed⟩ := mem_faults hmem
    · refine ⟨⟨.wait, waited⟩, by simp, ?_⟩
      cases waited with
      | interrupted => exact absurd rfl gone
      | failed fault =>
        cases hexit
        exact .lost fault
      | exited status =>
        obtain ⟨hfailure, rfl⟩ : status.isSuccess = false ∧ failure u (.exit status) = own := by
          simpa [waitedFault?] using hexit
        exact .failed status hfailure
    · obtain ⟨s, hs, hraises⟩ := feed_raises key feed hfed
      refine ⟨s, ?_, hraises⟩
      simp only [List.mem_cons, List.mem_append, List.not_mem_nil, or_false] at hs
      rcases hs with hs | hs | hs <;> simp [hs]

theorem Course.raises (key : Key) (h : Course u archive steps (.error own)) :
    ∃ s ∈ (⟨.openReader key, .ok archive⟩ : Step) :: steps, Raises u s own := by
  cases h with
  | refused => exact ⟨⟨.password u.password, .error own⟩, by simp, .refused own⟩
  | unstarted password fault =>
    exact ⟨⟨.spawn (command u password), .error fault⟩, by simp, .unstarted _ fault⟩
  | uncaptured password killed =>
    exact ⟨⟨.spawn (command u password), .ok false⟩, by simp, .uncaptured _⟩
  | fed password feed =>
    obtain ⟨s, hs, hraises⟩ := feed.raises key
    refine ⟨s, ?_, hraises⟩
    rcases List.mem_cons.mp hs with rfl | hs <;> simp [*]

end Restore

/-- What may go wrong in a fetch. -/
inductive FetchRaises (bucket : String) (key : Key) : Step → Fault → Prop
  | overtaken : FetchRaises bucket key ⟨.pause, true⟩
      (.cancelled s!"opening '{key.text}' in bucket '{bucket}'")
  | unopened (fault : Fault) : FetchRaises bucket key ⟨.openReader key, .error fault⟩ fault

theorem FetchRaises.accounts {bucket : String} {key : Key} {s : Step} {own : Fault}
    (h : FetchRaises bucket key s own) : s.Accounts own := by
  intro _
  cases h with
  | overtaken => exact .inl rfl
  | unopened => exact .inr rfl

end DumpVault
