import DumpVault.Proofs.Along
import DumpVault.Proofs.FailFast
import DumpVault.Proofs.Pieces
import DumpVault.Proofs.Trees
import DumpVault.Proofs.Uploads

/-!
# What becomes of a staging file

An archive run makes at most one staging file. Whatever happens the file stays, with all that the
utility has written, until a blob of the same content has been finalized; only then may it go.
-/
namespace DumpVault
open Prog

/-- The files, the place that takes the output of the utility, and what the utility has written. -/
structure Bench where
  files : FileTree
  outlet : Option Location := none
  output : ByteArray := .empty

namespace Bench

variable {staging : Location → Prop} {cwd l : Location} {b b' b₁ : Bench} {path : String}
  {steps : List Step}

/-- A utility has been at work. Of the staging places it has changed only the one that takes its
output; there is all that it has written. -/
structure Works (staging : Location → Prop) (b b' : Bench) : Prop where
  outlet : b'.outlet = b.outlet
  spared : ∀ l, staging l → b.outlet ≠ some l → b'.files.at? l = b.files.at? l
  written : ∀ l, staging l → b.outlet = some l → b'.files.at? l = some (.file b'.output)
  silent : b.outlet = none → b'.output = b.output

/-- No staging place has changed, and the utility has not been at work. -/
structure Still (staging : Location → Prop) (b b' : Bench) : Prop where
  outlet : b'.outlet = b.outlet
  output : b'.output = b.output
  spared : ∀ l, staging l → b'.files.at? l = b.files.at? l

theorem Still.refl (b : Bench) : Still staging b b := ⟨rfl, rfl, fun _ _ => rfl⟩

theorem Still.trans (h : Still staging b b₁) (h' : Still staging b₁ b') : Still staging b b' :=
  ⟨h'.outlet.trans h.outlet, h'.output.trans h.output,
    fun l hl => (h'.spared l hl).trans (h.spared l hl)⟩

def created (b : Bench) (l : Location) : Bench := { b with files := b.files.put l (.file .empty) }

def removed (b : Bench) (l : Location) : Bench := { b with files := b.files.erase l }

/-- What a call may do to the staging places. The store does not touch them; a file may be gone
before its removal is seen to fail. -/
def Tends (staging : Location → Prop) (cwd : Location) : Effects Bench
  | b, .createStaging _, .ok path, b' => staging (.named cwd path) ∧
      b.files.at? (.named cwd path) = none ∧ b' = b.created (.named cwd path)
  | b, .openFile path, .ok file, b' => b' = b ∧
      (file.ending = .complete → b.files.at? (.named cwd path) = some (.file file.bytes))
  | b, .removeFile path, .ok _, b' => b' = b.removed (.named cwd path)
  | b, .removeFile path, .error _, b' => b' = b ∨ b' = b.removed (.named cwd path)
  | b, .spawn command, .ok _, b' =>
      Works staging { b with outlet := command.streams.outlet.map (Location.named cwd) } b'
  | b, .wait, _, b' | b, .kill, _, b' | b, .reap, _, b' | b, .offer _, _, b'
  | b, .closeInput, _, b' => Works staging b b'
  | b, .connect _, _, b' | b, .exists _, _, b' | b, .openWriter _, _, b' | b, .write _ _, _, b'
  | b, .finalize _, _, b' | b, .abort _, _, b' | b, .openReader _, _, b' | b, .list, _, b' =>
      Still staging b b'
  | b, _, _, b' => b' = b

/-- The file at the place holds what the utility has written, which goes nowhere else. -/
structure Holds (b : Bench) (l : Location) : Prop where
  outlet : b.outlet = none ∨ b.outlet = some l
  file : b.files.at? l = some (.file b.output)

/-- All staging places but one are as they were. -/
def Spares (staging : Location → Prop) (l : Location) (b b' : Bench) : Prop :=
  ∀ m, staging m → m ≠ l → b'.files.at? m = b.files.at? m

theorem Works.holds (h : Works staging b b') (hl : staging l) (hb : b.Holds l) :
    b'.Holds l ∧ Spares staging l b b' := by
  refine ⟨⟨h.outlet ▸ hb.outlet, ?_⟩, fun m hm hne => h.spared m hm fun hout => ?_⟩
  · rcases hb.outlet with hout | hout
    · rw [h.spared l hl (by simp [hout]), hb.file, h.silent hout]
    · exact h.written l hl hout
  · rcases hb.outlet with hnone | hsome
    · simp [hnone] at hout
    · exact hne (Option.some.inj (hout.symm.trans hsome))

theorem Still.holds (h : Still staging b b') (hl : staging l) (hb : b.Holds l) :
    b'.Holds l ∧ Spares staging l b b' :=
  ⟨⟨h.outlet ▸ hb.outlet, by rw [h.spared l hl, hb.file, h.output]⟩, fun m hm _ => h.spared m hm⟩

end Bench

/-- The calls that leave the file at a path where it is; a utility may be started that writes to it. -/
def Call.minds (path : String) : Call → Prop
  | .createStaging _ | .removeFile _ => False
  | .spawn command => command.streams = .intoFile path
  | _ => True

namespace Call

variable {path : String} {c : Call}

def isCreation : Call → Bool
  | .createStaging _ => true
  | _ => false

def isRemoval : Call → Bool
  | .removeFile _ => true
  | _ => false

theorem minds_of_upload (hc : c.isUpload) : c.minds path := by
  cases c with
  | createStaging | removeFile | spawn => exact hc.elim
  | _ => trivial

theorem quiet_of_idle (hc : c.isIdle = true) : c.isCreation = false ∧ c.isRemoval = false := by
  cases c with
  | createStaging | removeFile => cases hc
  | _ => exact ⟨rfl, rfl⟩

theorem quiet_of_minds (hc : c.minds path) : c.isCreation = false ∧ c.isRemoval = false := by
  cases c with
  | createStaging | removeFile => exact hc.elim
  | _ => exact ⟨rfl, rfl⟩

end Call

namespace Bench

variable {staging : Location → Prop} {cwd l : Location} {b b' b₁ : Bench} {path : String}
  {steps : List Step}

theorem Tends.holds {c : Call} {r : Reply c} (h : Tends staging cwd b c r b') (hc : c.minds path)
    (hl : staging (.named cwd path)) (hb : b.Holds (.named cwd path)) :
    b'.Holds (.named cwd path) ∧ Spares staging (.named cwd path) b b' := by
  have hsame : b' = b → b'.Holds (.named cwd path) ∧ Spares staging (.named cwd path) b b' := by
    rintro rfl
    exact ⟨hb, fun _ _ _ => rfl⟩
  cases c with
  | createStaging | removeFile => exact hc.elim
  | spawn command =>
    cases r with
    | error fault => exact hsame h
    | ok captured =>
      have hc : command.streams = .intoFile path := hc
      have hstart : Holds { b with outlet := command.streams.outlet.map (Location.named cwd) }
          (.named cwd path) := ⟨.inr (by rw [hc]; rfl), hb.file⟩
      have hworks : Works staging
          { b with outlet := command.streams.outlet.map (Location.named cwd) } b' := h
      exact hworks.holds hl hstart
  | wait | kill | reap | offer | closeInput => exact Works.holds h hl hb
  | connect | «exists» | openWriter | write | finalize | abort | openReader | list =>
    exact Still.holds h hl hb
  | openFile =>
    cases r with
    | error fault => exact hsame h
    | ok file => exact hsame h.1
  | _ => exact hsame h

/-- Calls that mind the file leave it with what the utility has written. -/
theorem Tends.along_holds (h : Along (Tends staging cwd) b steps b')
    (hsteps : ∀ s ∈ steps, s.call.minds path) (hl : staging (.named cwd path))
    (hb : b.Holds (.named cwd path)) :
    b'.Holds (.named cwd path) ∧ Spares staging (.named cwd path) b b' := by
  induction h with
  | nil => exact ⟨hb, fun _ _ _ => rfl⟩
  | cons hr _ ih =>
    obtain ⟨hfirst, hmore⟩ := List.forall_mem_cons.mp hsteps
    obtain ⟨hb₁, hspares⟩ := Tends.holds hr hfirst hl hb
    obtain ⟨hb', hspares'⟩ := ih hmore hb₁
    exact ⟨hb', fun m hm hne => (hspares' m hm hne).trans (hspares m hm hne)⟩

theorem Tends.still {c : Call} {r : Reply c} (h : Tends staging cwd b c r b')
    (hc : c.isUpload ∨ c.isIdle = true) : Still staging b b' := by
  have hsame : b' = b → Still staging b b' := by
    rintro rfl
    exact .refl _
  cases c with
  | createStaging | removeFile | spawn | wait | kill | reap | offer | closeInput | connect
  | openReader | list | temporaryDir | password | readFile | print => rcases hc with hc | hc <;> cases hc
  | «exists» | openWriter | write | finalize | abort => exact h
  | openFile =>
    cases r with
    | error fault => exact hsame h
    | ok file => exact hsame h.1
  | _ => exact hsame h

theorem Tends.along_still (h : Along (Tends staging cwd) b steps b')
    (hsteps : ∀ s ∈ steps, s.call.isUpload ∨ s.call.isIdle = true) : Still staging b b' :=
  h.keeps .refl .trans fun s hs _ _ hr => Tends.still hr (hsteps s hs)

end Bench

/-- A utility was waited for and came to a good end. -/
def Succeeded (steps : List Step) : Prop :=
  ∃ status : ExitStatus, ⟨.wait, .exited status⟩ ∈ steps ∧ status.isSuccess = true

namespace Dump

variable {d : Dump} {steps : List Step} {path : String}

theorem head_retained (path : String) : (retained path).text.toList.head? = some 's' := by
  change ("staging file " ++ path ++ " retained for inspection").toList.head? = some 's'
  simp

/-- The warnings of putting a utility down begin differently. -/
theorem retained_notMem_putDown (h : Utility.PutDown steps) : retained path ∉ warnings steps := by
  have hne : ∀ {line : Line}, line.text.toList.head? ≠ some 's' → retained path ∉ [line] := by
    rintro line hline hmem
    exact hline (List.mem_singleton.mp hmem ▸ head_retained path)
  cases h with
  | unsignalled fault =>
    refine hne ?_
    change ("unable to signal child process: " ++ fault.text).toList.head? ≠ some 's'
    simp
  | unreaped fault =>
    refine hne ?_
    change ("unable to reap killed child process: " ++ fault.text).toList.head? ≠ some 's'
    simp
  | reaped status => exact List.not_mem_nil

theorem Ends.attends {password : Option Secret} {fault : Option Fault}
    (h : d.Ends (d.command path password) steps fault) : (∀ s ∈ steps, s.call.minds path) ∧
      (Succeeded steps ↔ fault = none) ∧ retained path ∉ warnings steps := by
  cases h with
  | unstarted | lost =>
    exact ⟨by simp [Call.minds, command], by simp [Succeeded], List.not_mem_nil⟩
  | failed captured status unsuccessful | succeeded captured status unsuccessful =>
    exact ⟨by simp [Call.minds, command], by simp [Succeeded, unsuccessful], List.not_mem_nil⟩
  | @overtaken captured killing killed =>
    have hwarnings : retained path ∉ warnings killing := retained_notMem_putDown killed
    refine ⟨?_, ?_, hwarnings⟩
    · cases killed <;> simp [Step.line, Call.minds, command]
    · cases killed <;> simp [Step.line, Succeeded]

/-- A dump makes no file, or it makes one and minds it. It succeeds exactly if the utility has done
so, and else it names the file in one warning. -/
theorem Course.attends {r : Except Fault String} (h : d.Course steps r) :
    (∃ fault, steps = [⟨.createStaging d.stagingDir, .error fault⟩] ∧
      r = .error (.stagingCreate d.stagingDir fault)) ∨
    ∃ path rest, steps = ⟨.createStaging d.stagingDir, .ok path⟩ :: rest ∧
      (∀ s ∈ rest, s.call.minds path) ∧
      ((r = .ok path ∧ Succeeded rest) ∨ ∃ fault, r = .error fault ∧ ¬ Succeeded rest ∧
        (warnings rest).count (retained path) = 1) := by
  cases h with
  | uncreated fault => exact .inl ⟨fault, rfl, rfl⟩
  | refused path fault =>
    refine .inr ⟨path, _, rfl, ?_, .inr ⟨fault, rfl, ?_, List.count_singleton_self⟩⟩
    · simp [Step.line, Call.minds]
    · simp [Step.line, Succeeded]
  | @failed path password utility fault ends =>
    obtain ⟨hminds, hsucceeded, hwarnings⟩ := ends.attends
    refine .inr ⟨path, _, rfl, ?_, .inr ⟨fault, rfl, ?_, ?_⟩⟩
    · simpa [Step.line, Call.minds, or_imp, forall_and] using hminds
    · simpa [Step.line, Succeeded] using hsucceeded
    · calc (warnings _).count (retained path)
          = (warnings (utility ++ [.line (retained path)])).count (retained path) := rfl
        _ = (warnings utility).count (retained path) + 1 := by
            rw [warnings_append, List.count_append]
            exact congrArg _ List.count_singleton_self
        _ = 1 := by rw [List.count_eq_zero.mpr hwarnings]
  | @dumped path password utility ends =>
    obtain ⟨hminds, hsucceeded, _⟩ := ends.attends
    refine .inr ⟨path, _, rfl, ?_, .inl ⟨rfl, ?_⟩⟩
    · simpa [Step.line, Call.minds, or_imp, forall_and] using hminds
    · obtain ⟨status, hmem, hstatus⟩ := hsucceeded.mpr rfl
      exact ⟨status, by simp [hmem], hstatus⟩

theorem Course.attends_ok (h : d.Course steps (.ok path)) : ∃ rest,
    steps = ⟨.createStaging d.stagingDir, .ok path⟩ :: rest ∧ (∀ s ∈ rest, s.call.minds path) ∧
      Succeeded rest := by
  rcases h.attends with ⟨_, _, herror⟩ | ⟨_, rest, rfl, hminds, ⟨hok, hsucceeded⟩ | ⟨_, herror, _⟩⟩
  · cases herror
  · obtain rfl := Except.ok.inj hok
    exact ⟨rest, rfl, hminds, hsucceeded⟩
  · cases herror

end Dump

/-- A run by what it does with its staging file: none is made; the dump fails and the file stays; the
file stays; or the file is removed, the blob having been stored. -/
inductive Archiver.Custody (a : Archiver) : List Step → Except Fault Key → Prop
  | uncreated {steps : List Step} (fault : Fault) (quiet : warnings steps = [])
      (idle : ∀ s ∈ steps, s.call.isIdle = true ∨ ∃ dir fault, s = ⟨.createStaging dir, .error fault⟩) :
      Custody a steps (.error fault)
  | undumped {path : String} {rest : List Step} (fault : Fault)
      (minds : ∀ s ∈ rest, s.call.minds path) (failed : ¬ Succeeded rest)
      (warned : (warnings rest).count (Dump.retained path) = 1) :
      Custody a (toDump ++ ⟨.createStaging a.dump.stagingDir, .ok path⟩ :: rest) (.error fault)
  | kept {path : String} {rest : List Step} (r : Except Fault Key)
      (minds : ∀ s ∈ rest, s.call.minds path) (dumped : Succeeded rest) :
      Custody a (toDump ++ ⟨.createStaging a.dump.stagingDir, .ok path⟩ :: rest) r
  | removed {path : String} {dump copying last : List Step} {key : Key}
      (reply : Except IoFault Unit) (minds : ∀ s ∈ dump, s.call.minds path)
      (dumped : Succeeded dump) (uploading : Yields (upload a.bucket path) copying (.ok key))
      (retain : a.retain = false) (idle : ∀ s ∈ last, s.call.isIdle = true) :
      Custody a (toDump ++ ⟨.createStaging a.dump.stagingDir, .ok path⟩ ::
        (dump ++ (copying ++ ⟨.removeFile path, reply⟩ :: last))) (.ok key)

theorem Succeeded.append {steps : List Step} (h : Succeeded steps) (more : List Step) :
    Succeeded (steps ++ more) := by
  obtain ⟨status, hmem, hstatus⟩ := h
  exact ⟨status, List.mem_append_left _ hmem, hstatus⟩

theorem Archiver.custody_of_yields {a : Archiver} {steps : List Step} {r : Except Fault Key}
    (h : Yields a.run steps r) : a.Custody steps r := by
  have hlines : ∀ {path : String}, ∀ s ∈ toUpload, s.call.minds path := by
    simp [toUpload, Step.line, Call.minds]
  have hcopying : ∀ {path : String} {copying : List Step} {uploaded : Except Fault Key},
      Yields (upload a.bucket path) copying uploaded → ∀ s ∈ copying, s.call.minds path :=
    fun hupload s hs => Call.minds_of_upload ((only_upload _ _).mem hupload s hs)
  cases course_of_yields h with
  | cutBeforeDump => exact .uncreated _ rfl (by simp [Step.line, Call.isIdle])
  | undumped dumping =>
    rcases dumping.attends with ⟨fault, rfl, _⟩ | ⟨path, rest, rfl, hminds, ⟨hok, _⟩ | hfailed⟩
    · exact .uncreated _ rfl (by simp [toDump, Step.line, Call.isIdle])
    · cases hok
    · obtain ⟨_, _, hfailed, hwarned⟩ := hfailed
      rw [List.cons_append]
      refine .undumped _ ?_ ?_ ?_
      · simpa [Step.line, Call.minds, or_imp, forall_and] using hminds
      · simpa [Step.line, Succeeded] using hfailed
      · rwa [warnings_append, show warnings [.line (passage .dumping .failed)] = [] from rfl,
          List.append_nil]
  | cutBeforeUpload dumping =>
    obtain ⟨rest, rfl, hminds, hsucceeded⟩ := dumping.attends_ok
    refine .kept _ ?_ (hsucceeded.append _)
    simpa [Step.line, Call.minds, or_imp, forall_and] using hminds
  | unstored dumping uploading =>
    obtain ⟨rest, rfl, hminds, hsucceeded⟩ := dumping.attends_ok
    refine .kept _ ?_ (hsucceeded.append _)
    simpa [Step.line, Call.minds, or_imp, forall_and] using
      ⟨hminds, hlines, hcopying uploading⟩
  | @stored path _ _ _ _ dumping uploading cleaned =>
    obtain ⟨rest, rfl, hminds, hsucceeded⟩ := dumping.attends_ok
    have hbefore := List.forall_mem_append.mpr ⟨hminds, hlines⟩
    have hidle : ∀ line, ∀ s ∈ [Step.line line, .line (passage .uploading .done)],
        s.call.isIdle = true := by simp [Step.line, Call.isIdle]
    cases cleaned with
    | retained retain =>
      refine .kept _ ?_ (hsucceeded.append _)
      simpa [Step.line, Call.minds, or_imp, forall_and] using
        ⟨hminds, hlines, hcopying uploading⟩
    | removed retain =>
      have hcustody : a.Custody _ _ := .removed (.ok ()) hbefore (hsucceeded.append _) uploading
        retain (List.forall_mem_cons.mp (hidle default)).2
      simpa using hcustody
    | unremoved retain fault =>
      have hcustody : a.Custody _ _ := .removed (.error fault) hbefore (hsucceeded.append _)
        uploading retain (hidle ⟨.warn, s!"unable to remove staging file {path}: {fault.text}"⟩)
      simpa using hcustody

/-- A writer was opened under the key, accepted exactly these bytes and was finalized. -/
def Deposited (steps : List Step) (key : Key) (bytes : ByteArray) : Prop :=
  ∃ w chunks, joined chunks = bytes ∧
    (⟨.openWriter key, .ok w⟩ :: (acceptedWrites w chunks ++ [⟨.finalize w, .ok ()⟩])) <:+:
      visible steps

theorem Deposited.mono {steps : List Step} {key : Key} {bytes : ByteArray}
    (h : Deposited steps key bytes) (before after : List Step) :
    Deposited (before ++ (steps ++ after)) key bytes := by
  obtain ⟨w, chunks, hbytes, hword⟩ := h
  refine ⟨w, chunks, hbytes, hword.trans ?_⟩
  rw [visible_append, visible_append]
  exact ⟨visible before, visible after, by simp⟩

theorem UploadWord.faultless {bucket path : String} {key : Key} {said : List Step}
    (h : UploadWord bucket path key said []) : ∃ file w, file.ending = .complete ∧
      said = ⟨.exists key, .ok false⟩ :: ⟨.openFile path, .ok file⟩ :: ⟨.openWriter key, .ok w⟩ ::
        (acceptedWrites w (file.reads copyLimit) ++ [⟨.finalize w, .ok ()⟩]) := by
  generalize hfaults : ([] : List Fault) = faults at h
  cases h with
  | lookupFailed | taken | unreadable | unopened => cases hfaults
  | ended file w reply copying =>
    cases copying with
    | copied whole =>
      cases reply with
      | ok => exact ⟨file, w, whole, rfl⟩
      | error => cases hfaults
    | readFailed | writeFailed | unfinished | cancelled => cases hfaults

/-- An upload that succeeds has deposited what the file held. -/
theorem upload_deposits {staging : Location → Prop} {cwd : Location} {b b' : Bench}
    {bucket path : String} {steps : List Step} {key : Key}
    (h : Yields (upload bucket path) steps (.ok key))
    (htends : Along (Bench.Tends staging cwd) b steps b') (hl : staging (.named cwd path))
    (hb : b.Holds (.named cwd path)) : Deposited steps key b'.output := by
  obtain ⟨t, faults, _, hword, hresult, _⟩ := upload_course h
  have hcalls := (only_upload bucket path).mem h
  have hstill := Bench.Tends.along_still htends fun s hs => .inl (hcalls s hs)
  cases faults with
  | cons fault later => cases hresult
  | nil =>
    obtain rfl : key = .mint t := Except.ok.inj hresult
    obtain ⟨file, w, hcomplete, hsaid⟩ := hword.faultless
    have hopen : ⟨.openFile path, .ok file⟩ ∈ steps := by
      rw [← mem_visible rfl, hsaid]
      simp
    obtain ⟨before, after, rfl⟩ := List.append_of_mem hopen
    obtain ⟨b₁, hbefore, hrest⟩ := along_append.mp htends
    obtain ⟨_, ⟨rfl, hread⟩, _⟩ := along_cons.mp hrest
    have hstill₁ := Bench.Tends.along_still hbefore fun s hs =>
      .inl (hcalls s (List.mem_append_left _ hs))
    have hcontent := hread hcomplete
    rw [(hstill₁.holds hl hb).1.file, hstill₁.output, ← hstill.output] at hcontent
    obtain hbytes : b'.output = file.bytes := by simpa using hcontent
    refine ⟨w, file.reads copyLimit, by rw [joined_reads (by decide), hbytes], ?_⟩
    rw [hsaid]
    exact ⟨[⟨.exists (.mint t), .ok false⟩, ⟨.openFile path, .ok file⟩], [], by simp⟩

def Prog.Step.created? : Step → Option String
  | ⟨.createStaging _, .ok path⟩ => some path
  | _ => none

/-- The paths of the staging files that have been made. -/
def created (steps : List Step) : List String := steps.filterMap Step.created?

/-- How the staging files of an archive run are accounted for, from files on which its utility has
not yet been at work. -/
structure Accounted (staging : Location → Prop) (cwd : Location) (a : Archiver) (files : FileTree)
    (steps : List Step) (r : Except Fault Key) (b : Bench) : Prop where
  /-- At most one file is made. -/
  single : (created steps).length ≤ 1
  /-- It is made where nothing was. -/
  fresh : ∀ path ∈ created steps, files.at? (.named cwd path) = none
  /-- Nothing else changes among the staging files. -/
  others : ∀ l, staging l → (∀ path ∈ created steps, l ≠ .named cwd path) →
    b.files.at? l = files.at? l
  /-- After a good end of the utility the file is there, with all that the utility has written, or
  this has been stored under the key that is returned. -/
  dumped : ∀ path ∈ created steps, Succeeded steps →
    b.files.at? (.named cwd path) = some (.file b.output) ∨
      ∃ key, r = .ok key ∧ a.retain = false ∧ Deposited steps key b.output
  /-- Else the run fails, and the file is there and is named in one warning. -/
  undumped : ∀ path ∈ created steps, ¬ Succeeded steps → (∃ fault, r = .error fault) ∧
    b.files.at? (.named cwd path) = some (.file b.output) ∧
      (warnings steps).count (Dump.retained path) = 1
  uncreated : created steps = [] → (∃ fault, r = .error fault) ∧ warnings steps = []
  /-- Only the run's own file is removed, and only after its content has been stored; that the run
  has succeeded does not depend on the removal. -/
  removed : ∀ before after path reply, steps = before ++ ⟨.removeFile path, reply⟩ :: after →
    path ∈ created before ∧ a.retain = false ∧
      ∃ key, r = .ok key ∧ Deposited before key b.output

section Account
variable {staging : Location → Prop} {cwd : Location} {a : Archiver} {files : FileTree} {b : Bench}
  {steps : List Step} {r : Except Fault Key}

/-- Once the staging file has been made, it holds what the utility has written: nothing. -/
theorem Bench.along_created {dir path : String}
    (h : Along (Tends staging cwd) { files }
      (Archiver.toDump ++ ⟨.createStaging dir, .ok path⟩ :: steps) b) :
    staging (.named cwd path) ∧ files.at? (.named cwd path) = none ∧
      ∃ b₁ : Bench, b₁.Holds (.named cwd path) ∧
        Spares staging (.named cwd path) { files } b₁ ∧ Along (Tends staging cwd) b₁ steps b := by
  obtain ⟨b₀, hentered, hrest⟩ := along_append.mp h
  obtain ⟨_, rfl, hentered⟩ := along_cons.mp hentered
  obtain ⟨_, rfl, hentered⟩ := along_cons.mp hentered
  obtain rfl := along_nil.mp hentered
  obtain ⟨b₁, ⟨hstaging, hfree, rfl⟩, hrest⟩ := along_cons.mp hrest
  refine ⟨hstaging, hfree, _, ⟨.inl rfl, FileTree.at?_put_self _ _ _ ?_⟩,
    fun m _ hne => FileTree.at?_put_of_ne _ _ hne, hrest⟩
  intro hroot
  simp [hroot, FileTree.at?] at hfree

theorem created_of_quiet (h : ∀ s ∈ steps, s.call.isCreation = false) : created steps = [] := by
  refine List.filterMap_eq_nil_iff.mpr fun s hs => ?_
  obtain ⟨c, r⟩ := s
  cases c with
  | createStaging => cases h _ hs
  | _ => rfl

theorem created_begun {dir path : String} (more : List Step) :
    created (Archiver.toDump ++ ⟨.createStaging dir, .ok path⟩ :: more) = path :: created more :=
  rfl

theorem succeeded_begun {dir path : String} : Succeeded (Archiver.toDump ++
    ⟨.createStaging dir, .ok path⟩ :: steps) ↔ Succeeded steps := by
  simp [Succeeded, Archiver.toDump, Step.line]

theorem accounted_of_minds {dir path : String}
    (htends : Along (Bench.Tends staging cwd) { files }
      (Archiver.toDump ++ ⟨.createStaging dir, .ok path⟩ :: steps) b)
    (hminds : ∀ s ∈ steps, s.call.minds path)
    (hfailed : ¬ Succeeded steps → (∃ fault, r = .error fault) ∧
      (warnings steps).count (Dump.retained path) = 1) :
    Accounted staging cwd a files (Archiver.toDump ++ ⟨.createStaging dir, .ok path⟩ :: steps) r
      b := by
  obtain ⟨hstaging, hfree, b₁, hholds, hspares, hrest⟩ := Bench.along_created htends
  obtain ⟨hkept, hspares'⟩ := Bench.Tends.along_holds hrest hminds hstaging hholds
  have hcreated : created (Archiver.toDump ++ ⟨.createStaging dir, .ok path⟩ :: steps) = [path] := by
    rw [created_begun, created_of_quiet fun s hs => (Call.quiet_of_minds (hminds s hs)).1]
  refine ⟨by simp [hcreated], by simpa [hcreated] using hfree, fun l hl hne => ?_, ?_, ?_, ?_, ?_⟩
  · have hne := hne path (by simp [hcreated])
    exact (hspares' l hl hne).trans (hspares l hl hne)
  · simp [hcreated, hkept.file]
  · intro p hp hnot
    obtain rfl : p = path := by simpa [hcreated] using hp
    obtain ⟨herror, hwarned⟩ := hfailed fun h => hnot (succeeded_begun.mpr h)
    exact ⟨herror, hkept.file, hwarned⟩
  · simp [hcreated]
  · intro before after p reply hsplit
    refine absurd rfl (not_of_quiet (P := Call.isRemoval) hsplit.symm ?_)
    have hquiet := fun s hs => (Call.quiet_of_minds (hminds s hs)).2
    simpa [Archiver.toDump, Step.line, Call.isRemoval, or_imp, forall_and] using hquiet

theorem accounted_of_removed {dir path : String} {dump copying last : List Step} {key : Key}
    {reply : Except IoFault Unit}
    (htends : Along (Bench.Tends staging cwd) { files } (Archiver.toDump ++
      ⟨.createStaging dir, .ok path⟩ :: (dump ++ (copying ++ ⟨.removeFile path, reply⟩ :: last))) b)
    (hminds : ∀ s ∈ dump, s.call.minds path) (hsucceeded : Succeeded dump)
    (hupload : Yields (upload a.bucket path) copying (.ok key)) (hretain : a.retain = false)
    (hlast : ∀ s ∈ last, s.call.isIdle = true) :
    Accounted staging cwd a files (Archiver.toDump ++ ⟨.createStaging dir, .ok path⟩ ::
      (dump ++ (copying ++ ⟨.removeFile path, reply⟩ :: last))) (.ok key) b := by
  obtain ⟨hstaging, hfree, b₁, hholds₁, hspares₁, hrest⟩ := Bench.along_created htends
  obtain ⟨b₂, hdump, hrest⟩ := along_append.mp hrest
  obtain ⟨b₃, hcopying, hrest⟩ := along_append.mp hrest
  obtain ⟨b₄, hremove, hrest⟩ := along_cons.mp hrest
  obtain ⟨hholds₂, hspares₂⟩ := Bench.Tends.along_holds hdump hminds hstaging hholds₁
  have hcalls := (only_upload a.bucket path).mem hupload
  have hstored := upload_deposits hupload hcopying hstaging hholds₂
  have hcopied := Bench.Tends.along_still hcopying fun s hs => .inl (hcalls s hs)
  have hended := Bench.Tends.along_still hrest fun s hs => .inr (hlast s hs)
  have hremoved : b₄ = b₃ ∨ b₄ = b₃.removed (.named cwd path) := by
    cases reply with
    | ok => exact .inr hremove
    | error => exact hremove
  have houtput : b.output = b₃.output := by
    rcases hremoved with rfl | rfl <;> exact hended.output
  have hspares : ∀ m, staging m → m ≠ .named cwd path → b₄.files.at? m = b₃.files.at? m := by
    intro m _ hne
    rcases hremoved with rfl | rfl
    · rfl
    · exact FileTree.at?_erase_of_ne _ hne
  have hdumped : ∀ s ∈ dump ++ copying, s.call.minds path := List.forall_mem_append.mpr
    ⟨hminds, fun s hs => Call.minds_of_upload (hcalls s hs)⟩
  have hcreated : created (Archiver.toDump ++ ⟨.createStaging dir, .ok path⟩ ::
      (dump ++ (copying ++ ⟨.removeFile path, reply⟩ :: last))) = [path] := by
    rw [created_begun, created_of_quiet]
    simp only [List.mem_append, List.mem_cons]
    rintro s (hs | hs | rfl | hs)
    · exact (Call.quiet_of_minds (hminds s hs)).1
    · exact (Call.quiet_of_minds (hdumped s (List.mem_append_right _ hs))).1
    · rfl
    · exact (Call.quiet_of_idle (hlast s hs)).1
  have hsplit : Archiver.toDump ++ ⟨.createStaging dir, .ok path⟩ ::
      (dump ++ (copying ++ ⟨.removeFile path, reply⟩ :: last)) =
      (Archiver.toDump ++ ⟨.createStaging dir, .ok path⟩ :: (dump ++ copying)) ++
        ⟨.removeFile path, reply⟩ :: last := by simp
  rw [← houtput] at hstored
  refine ⟨by simp [hcreated], by simpa [hcreated] using hfree, fun l hl hne => ?_, ?_, ?_, ?_, ?_⟩
  · have hne := hne path (by simp [hcreated])
    rw [hended.spared l hl, hspares l hl hne, hcopied.spared l hl, hspares₂ l hl hne]
    exact hspares₁ l hl hne
  · refine fun p _ _ => .inr ⟨key, rfl, hretain, ?_⟩
    simpa using hstored.mono (Archiver.toDump ++ ⟨.createStaging dir, .ok path⟩ :: dump) _
  · intro p _ hnot
    exact absurd (succeeded_begun.mpr (hsucceeded.append _)) hnot
  · simp [hcreated]
  · intro before after p reply' hsteps
    have hquiet : ∀ s ∈ Archiver.toDump ++ ⟨.createStaging dir, .ok path⟩ :: (dump ++ copying),
        s.call.isRemoval = false := by
      have hquiet := fun s hs => (Call.quiet_of_minds (hdumped s hs)).2
      simpa [Archiver.toDump, Step.line, Call.isRemoval, or_imp, forall_and] using hquiet
    rw [hsplit] at hsteps
    obtain ⟨more, rfl⟩ := prefix_of_quiet hsteps.symm hquiet rfl
    have hrest := List.append_cancel_left (hsteps.trans (List.append_assoc _ _ _))
    cases more with
    | nil =>
      obtain ⟨hstep, _⟩ := List.cons.inj hrest
      obtain rfl : path = p := by simpa using congrArg Step.call hstep
      refine ⟨by simp [created_begun], hretain, key, rfl, ?_⟩
      simpa using hstored.mono (Archiver.toDump ++ ⟨.createStaging dir, .ok path⟩ :: dump) []
    | cons s more =>
      obtain ⟨_, hlast'⟩ := List.cons.inj hrest
      exact absurd rfl (not_of_quiet (P := Call.isRemoval) hlast'.symm fun s hs =>
        (Call.quiet_of_idle (hlast s hs)).2)

/-- Every archive run accounts for its staging file. -/
theorem archive_accounts (h : Yields a.run steps r)
    (htends : Along (Bench.Tends staging cwd) { files } steps b) :
    Accounted staging cwd a files steps r b := by
  cases a.custody_of_yields h with
  | uncreated fault quiet idle =>
    have hnone : created steps = [] := by
      refine List.filterMap_eq_nil_iff.mpr fun s hs => ?_
      rcases idle s hs with hidle | ⟨dir, fault, rfl⟩
      · obtain ⟨c, r⟩ := s
        cases c with
        | createStaging => cases hidle
        | _ => rfl
      · rfl
    have hstill : Bench.Still staging { files } b := by
      refine htends.keeps .refl .trans fun s hs u v hr => ?_
      rcases idle s hs with hidle | ⟨dir, fault, rfl⟩
      · exact hr.still (.inr hidle)
      · obtain rfl : v = u := hr
        exact .refl _
    refine ⟨by simp [hnone], by simp [hnone], fun l hl _ => hstill.spared l hl, by simp [hnone],
      by simp [hnone], fun _ => ⟨⟨fault, rfl⟩, quiet⟩, ?_⟩
    intro before after path reply hsplit
    refine absurd rfl (not_of_quiet (P := Call.isRemoval) hsplit.symm fun s hs => ?_)
    rcases idle s hs with hidle | ⟨dir, fault, rfl⟩
    · exact (Call.quiet_of_idle hidle).2
    · rfl
  | undumped fault minds failed warned =>
    exact accounted_of_minds htends minds fun _ => ⟨⟨_, rfl⟩, warned⟩
  | kept r minds dumped => exact accounted_of_minds htends minds fun h => absurd dumped h
  | removed reply minds dumped uploading retain idle =>
    exact accounted_of_removed htends minds dumped uploading retain idle

end Account

/-- The utility has written these bytes, if it writes to the one staging file. -/
def Bench.write (b : Bench) (bytes : ByteArray) : Bench :=
  if b.outlet = some ["staged"] then
    { b with files := b.files.put ["staged"] (.file bytes), output := bytes }
  else b

theorem Bench.works_write (b : Bench) (bytes : ByteArray) :
    Works (· = ["staged"]) b (b.write bytes) := by
  rw [write]
  split
  · next hout =>
    refine ⟨rfl, ?_, ?_, fun hnone => by simp [hnone] at hout⟩
    · rintro l rfl hne
      exact absurd hout hne
    · rintro l rfl _
      exact FileTree.at?_put_self _ _ _ (by simp)
  · next hout =>
    refine ⟨rfl, fun _ _ _ => rfl, ?_, fun _ => rfl⟩
    rintro l rfl h
    exact absurd h hout

/-- Answers of a utility that writes `DUMP` and exits with the status, and of a store that takes
everything. -/
def diligent (status : ExitStatus) : Handler Bench := fun c b =>
  match c with
  | .createStaging _ =>
    match b.files.at? ["staged"] with
    | none => (.ok "/staged", b.created ["staged"])
    | some _ => (.error (.os Fault.fileExists), b)
  | .openFile path =>
    match b.files.at? (.named [] path) with
    | some (.file bytes) => (.ok (.ofBytes bytes), b)
    | _ => (.error (.bare .notFound), b)
  | .removeFile path => (.ok (), b.removed (.named [] path))
  | .spawn command =>
    (.ok true, { b with outlet := command.streams.outlet.map (Location.named []) }.write b.output)
  | .wait => (.exited status, b.write ⟨#[68, 85, 77, 80]⟩)
  | .kill => (.ok (), b.write b.output)
  | .reap => (.ok .success, b.write b.output)
  | .offer _ => (.accepted, b.write b.output)
  | .closeInput => (.ok (), b.write b.output)
  | c => ((obliging false c ()).1, b)

theorem named_staged : Location.named [] "/staged" = ["staged"] := by decide +kernel

theorem diligent_tends (status : ExitStatus) (c : Call) (b : Bench) :
    Bench.Tends (· = ["staged"]) [] b c (diligent status c b).1 (diligent status c b).2 := by
  cases c with
  | createStaging dir =>
    simp only [diligent]
    split
    · next hfree => exact ⟨named_staged, by rw [named_staged, hfree], by rw [named_staged]⟩
    · rfl
  | openFile path =>
    simp only [diligent]
    split
    · next bytes hfile => exact ⟨rfl, fun _ => by rw [hfile, Source.bytes_ofBytes]⟩
    · rfl
  | spawn | wait | kill | reap | offer | closeInput => exact Bench.works_write _ _
  | connect | «exists» | openWriter | write | finalize | abort | openReader | list => exact .refl _
  | removeFile | log | isCancelled | pause | stall | now | temporaryDir | password | readFile
  | print => rfl

/-- A run whose utility succeeds stores the dump and removes the file; where the utility fails, the
file stays with what was written. -/
theorem archive_accounts_diligent :
    let a : Archiver := ⟨⟨.ofConfig {} {} defaultDumpProgram, "/tmp"⟩, "archives", false⟩
    let b : Bench := { files := .empty }
    let stored := a.run.run (diligent .success) b
    let failed := a.run.run (diligent (.ofCode 1)) b
    let fault := Fault.dumpUtility a.dump.utility.database a.dump.utility.program (.exit (.ofCode 1))
    stored.1 = .ok (.mint .epoch) ∧ created (a.run.course (diligent .success) b) = ["/staged"] ∧
      Succeeded (a.run.course (diligent .success) b) ∧
      Accounted (· = ["staged"]) [] a .empty (a.run.course (diligent .success) b)
        (.ok (.mint .epoch)) stored.2 ∧
      failed.1 = .error (fault.inStage .dump) ∧
      Accounted (· = ["staged"]) [] a .empty (a.run.course (diligent (.ofCode 1)) b)
        (.error (fault.inStage .dump)) failed.2 := by
  intro a b stored failed fault
  have hstored : Yields a.run (a.run.course (diligent .success) b) (.ok (.mint .epoch)) :=
    yields_course (diligent .success) a.run b
  have hfailed : Yields a.run (a.run.course (diligent (.ofCode 1)) b)
      (.error (fault.inStage .dump)) := yields_course (diligent (.ofCode 1)) a.run b
  have haccounted := archive_accounts hstored (along_course _ (diligent_tends _) a.run b)
  have hcreated : created (a.run.course (diligent .success) b) = ["/staged"] := by decide +kernel
  have hsucceeded : Succeeded (a.run.course (diligent .success) b) := by
    by_contra hnot
    obtain ⟨⟨_, herror⟩, _⟩ := haccounted.undumped "/staged" (by simp [hcreated]) hnot
    cases herror
  exact ⟨rfl, hcreated, hsucceeded, haccounted, rfl,
    archive_accounts hfailed (along_course _ (diligent_tends _) a.run b)⟩

end DumpVault
