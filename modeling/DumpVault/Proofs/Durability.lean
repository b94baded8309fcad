import DumpVault.Proofs.Feeding
import DumpVault.Proofs.Publishing

/-!
# Archives that endure

A session is a row of operations on one store, each with a configuration of its own. An archive that
a run has returned is there from then on, with the bytes that its dump utility wrote: whatever comes
later finds it, reads it and restores it, and no later operation changes it.
-/
namespace DumpVault
open Prog World

/-- An operation on a store that has been opened. -/
inductive Operation
  | archive (config : Config)
  | restore (config : Config) (key : Key)
  | list
  | lookup (key : Key)
  | fetch (key : Key)

namespace Operation

abbrev Result : Operation → Type
  | archive _ => Except Fault Key
  | restore _ _ => Except Fault Unit
  | list => Except Fault (List Key)
  | lookup _ => Except Fault Bool
  | fetch _ => Except Fault Source

def program (bucket : String) : (o : Operation) → Prog o.Result
  | archive config => do (← Archiver.ofConfig bucket config).run
  | restore config key => (Restorer.ofConfig bucket config).run key
  | list => Restorer.available
  | lookup key => Prog.ask (.exists key)
  | fetch key => DumpVault.fetch bucket key

def reads : Operation → Bool
  | archive _ => false
  | _ => true

end Operation

structure Event where
  operation : Operation
  result : operation.Result

variable {S : Setting} {w w' : World}

def Happens (S : Setting) (w : World) (e : Event) (w' : World) : Prop :=
  Runs S w (e.operation.program w.host.vault.bucket) e.result w'

/-- Operations are carried out one after the other. -/
inductive Session (S : Setting) : World → List Event → World → Prop
  | nil (w : World) : Session S w [] w
  | cons {w w₁ w' : World} {e : Event} {events : List Event} :
    Happens S w e w₁ → Session S w₁ events w' → Session S w (e :: events) w'

theorem cleanUp_keeps {a : Archiver} {path : String} (hg : Guarded S w.host.vault)
    (hstaging : S.staging (.named w.host.cwd path)) (h : Runs S w (a.cleanUp path) () w') :
    Steady w w' ∧ w'.pipes = w.pipes := by
  rw [Archiver.cleanUp] at h
  split at h
  · have h : w' = w := runs_ask.mp h
    exact h ▸ ⟨.refl _, rfl⟩
  · obtain ⟨r, w₁, hremove, h₁⟩ := runs_ask_bind.mp h
    have hsteady := removeFile_steady hg hstaging hremove
    cases r with
    | ok =>
      obtain ⟨_, rfl⟩ := runs_pure.mp h₁
      exact hsteady
    | error fault =>
      have h₁ : w' = w₁ := runs_ask.mp h₁
      exact h₁ ▸ hsteady

/-- An archive run keeps every blob. If it succeeds, the blob of the key that it returns is what the
utility has written. -/
theorem archive_publishes {a : Archiver} {r : Except Fault Key} (hg : Guarded S w.host.vault)
    (h : Runs S w a.run r w') : Keeps (fun _ => False) w w' ∧
      ∀ k, r = .ok k → w'.Stores (.ofKey k) w'.pipes.output := by
  have hdumped : ∀ {dumped : Except Fault String} {u : World}, Runs S w a.dump.stage dumped u →
      Keeps (fun _ => False) w u :=
    fun hdump => (stage_dumps hg hdump).1.keeps hg.isLocal
  have huploaded : ∀ {path : String} {uploaded : Except Fault Key} {u v : World},
      Runs S w a.dump.stage (.ok path) u → Runs S u (upload a.bucket path) uploaded v →
      Keeps (fun _ => False) w v ∧ S.staging (.named v.host.cwd path) ∧
        ∀ k, uploaded = .ok k → v.Stores (.ofKey k) v.pipes.output := by
    intro path uploaded u v hdump hupload
    obtain ⟨hplace, houtput⟩ := (stage_dumps hg hdump).2 path rfl
    obtain ⟨hkeeps, _, hstored⟩ := upload_publishes (hdumped hdump).isLocal houtput hupload
    exact ⟨(hdumped hdump).trans hkeeps, hkeeps.cwd ▸ hplace, hstored⟩
  cases archives_of_run h with
  | cutBeforeDump fault => exact ⟨.refl hg.isLocal, fun _ h => (by cases h)⟩
  | undumped hdump => exact ⟨hdumped hdump, fun _ h => (by cases h)⟩
  | cutBeforeUpload fault hdump => exact ⟨hdumped hdump, fun _ h => (by cases h)⟩
  | unstored hdump hupload => exact ⟨(huploaded hdump hupload).1, fun _ h => (by cases h)⟩
  | @stored path w₁ w₂ _ key hdump hupload hclean =>
    obtain ⟨hkept, hplace, hstored⟩ := huploaded hdump hupload
    obtain ⟨hsteady, hpipes⟩ := cleanUp_keeps (hkept.guarded hg) hplace hclean
    have hkeeps : Keeps (fun _ => False) w₂ w' := hsteady.keeps hkept.isLocal
    refine ⟨hkept.trans hkeeps, fun k hk => ?_⟩
    rw [hpipes]
    exact hkeeps.stored _ _ (StorePath.isSafe_ofKey k) id (hstored k hk)

theorem only_ofConfig (bucket : String) (c : Config) : (Archiver.ofConfig bucket c).Only isCalm := by
  refine only_bind ?_ fun _ => only_pure _
  rw [Dump.ofConfig]
  cases c.staging.dir with
  | none => exact only_ask_bind trivial fun _ => only_pure _
  | some dir => exact only_pure _

theorem only_of_reads {o : Operation} (ho : o.reads = true) (bucket : String) :
    (o.program bucket).Only isCalm := by
  cases o with
  | archive config => cases ho
  | restore config key => exact Restorer.only_run _ key
  | list => exact only_ask_bind trivial fun _ => only_pure _
  | lookup key => exact only_ask trivial
  | fetch key => exact Restorer.only_fetch bucket key

theorem happens_archive {c : Config} {r : Except Fault Key} (hg : Guarded S w.host.vault)
    (h : Happens S w ⟨.archive c, r⟩ w') : Keeps (fun _ => False) w w' ∧
      ∀ k, r = .ok k → w'.Stores (.ofKey k) w'.pipes.output := by
  obtain ⟨a, w₁, hconfig, hrun⟩ := runs_bind.mp h
  have hkeeps : Keeps (fun _ => False) w w₁ :=
    (steady_of_only hg (only_ofConfig _ c) hconfig).keeps hg.isLocal
  obtain ⟨hkeeps', hstored⟩ := archive_publishes (hkeeps.guarded hg) hrun
  exact ⟨hkeeps.trans hkeeps', hstored⟩

/-- No operation changes a blob. -/
theorem happens_keeps {e : Event} (hg : Guarded S w.host.vault) (h : Happens S w e w') :
    Keeps (fun _ => False) w w' := by
  obtain ⟨o, r⟩ := e
  cases ho : o.reads with
  | true => exact (steady_of_only hg (only_of_reads ho _) h).keeps hg.isLocal
  | false =>
    cases o with
    | archive config => exact (happens_archive hg h).1
    | restore | list | lookup | fetch => cases ho

theorem session_keeps {events : List Event} (hg : Guarded S w.host.vault)
    (h : Session S w events w') : Keeps (fun _ => False) w w' := by
  induction h with
  | nil => exact .refl hg.isLocal
  | cons hfirst _ ih =>
    have hkeeps := happens_keeps hg hfirst
    exact hkeeps.trans (ih (hkeeps.guarded hg))

/-- Staging files are made at one place, which is all that utilities touch. -/
def aside : Setting := ⟨(· ≠ ["staged"]), (· = ["staged"])⟩

theorem named_aside (cwd : Location) : Location.named cwd "/staged" = ["staged"] := by
  have hclean : Location.IsClean ["staged"] := by
    intro s hs
    obtain rfl := List.mem_singleton.mp hs
    exact ⟨by decide, by decide, by decide, by decide⟩
  exact named_text cwd hclean (by decide)

def World.observe (w : World) : World :=
  match w.pipes.outlet with
  | some path => { w with pipes := { w.pipes with output := (w.host.content? path).getD .empty } }
  | none => w

def World.written (w : World) (dump : ByteArray) : World :=
  { w with host := { w.host with files := w.host.files.put ["staged"] (.file dump) } }

/-- Answers calls in a world in which nothing fails without need and a utility writes `dump`. -/
def rehearse (dump : ByteArray) : Handler World := fun c w =>
  match c with
  | .log _ | .stall | .print _ => ((), w)
  | .isCancelled | .pause => (false, w)
  | .now => (w.host.clock, w)
  | .temporaryDir => (w.host.temporaryDir, w)
  | .password _ => (.ok none, w)
  | .createStaging _ =>
    match w.host.files.at? ["staged"] with
    | none => (.ok "/staged", w.written .empty)
    | some _ => (.error (.os Fault.fileExists), w)
  | .openFile path => (w.host.openFile path, w)
  | .spawn command => (.ok true, (w.start command).observe)
  | .offer chunk => (.accepted, (w.feed chunk).observe)
  | .closeInput => (.ok (), w.endInput.observe)
  | .wait => (.exited (.ofCode 0), (w.written dump).observe)
  | .kill => (.ok (), w.observe)
  | .reap => (.ok (.ofSignal 9), w.observe)
  | .openReader key =>
    match w.reply (.openReader key) with
    | .ok s => (.ok s, w.after (.openReader key))
    | .error fault => (.error fault, w)
  | c => (w.reply c, w.after c)

theorem acts_observe (S : Setting) (w : World) : Acts S w w.observe := by
  rw [World.observe]
  cases houtlet : w.pipes.outlet with
  | none => exact ⟨rfl, rfl, fun _ _ => rfl, rfl, rfl, rfl, fun _ _ h => by simp [houtlet] at h⟩
  | some path =>
    refine ⟨rfl, rfl, fun _ _ => rfl, rfl, rfl, rfl, fun p content hp hcontent => ?_⟩
    obtain rfl := Option.some.inj (houtlet.symm.trans hp)
    have hcontent : w.host.content? path = some content := hcontent
    simp [hcontent]

theorem acts_written (w : World) (dump : ByteArray) : Acts aside w (w.written dump).observe := by
  have hacts := acts_observe aside (w.written dump)
  refine ⟨hacts.vault, hacts.cwd, fun l hl => ?_, hacts.outlet, hacts.input, hacts.inputEnded,
    hacts.output⟩
  rw [hacts.kept l hl]
  exact FileTree.at?_put_of_ne _ _ hl

theorem rehearse_answers (dump : ByteArray) (c : Call) (w : World) :
    w.Answers aside c (rehearse dump c w).1 (rehearse dump c w).2 := by
  cases c with
  | log | isCancelled | pause | stall | now | temporaryDir | password | print => rfl
  | readFile | removeFile | connect | «exists» | openWriter | list => exact .inl ⟨rfl, rfl⟩
  | createStaging dir =>
    simp only [rehearse]
    split
    · next hfree => exact ⟨named_aside _, by rw [named_aside, hfree], by rw [named_aside]; rfl⟩
    · rfl
  | openFile path =>
    refine ⟨rfl, fun s hs hcomplete => ?_⟩
    have hs : w.host.openFile path = .ok s := hs
    rw [Host.openFile] at hs
    split at hs
    · next l bytes hstat =>
      obtain rfl := Except.ok.inj hs
      have hread := FileTree.readFile_ok_iff.mpr ⟨l, FileTree.stat_ok_iff.mp hstat⟩
      simp [Host.content?, hread, Except.toOption]
    · obtain rfl := Except.ok.inj hs
      cases hcomplete
    · cases hs
  | openReader key =>
    simp only [rehearse]
    split
    · next s hs => exact .inl ⟨rfl, s, s, rfl, hs, fun _ => rfl⟩
    · exact .inr ⟨⟨_, rfl⟩, rfl⟩
  | write wr chunk =>
    change w.Answers aside (.write wr chunk) (w.reply (.write wr chunk)) (w.after (.write wr chunk))
    cases hr : w.reply (.write wr chunk) with
    | accepted => exact ⟨hr.symm, rfl⟩
    | failed | interrupted => exact .inr rfl
  | finalize wr =>
    change w.Answers aside (.finalize wr) (w.reply (.finalize wr)) (w.after (.finalize wr))
    cases hr : w.reply (.finalize wr) with
    | ok => exact ⟨hr.symm, rfl⟩
    | error fault => exact .inr rfl
  | abort wr =>
    change w.Answers aside (.abort wr) (w.reply (.abort wr)) (w.after (.abort wr))
    cases hr : w.reply (.abort wr) with
    | ok => exact ⟨hr.symm, rfl⟩
    | error fault => exact .inr rfl
  | spawn | offer | closeInput | kill | reap => exact acts_observe aside _
  | wait => exact acts_written w dump

/-- The directory of a store is the place that its path names; what leads there is made. -/
theorem connect_directory {h h' : Host} {store : StoreConfig} {root : String}
    (hbackend : store.backend = .directory root) (hopen : h.connect store = (.ok (), h')) :
    ∃ files, h.files.makeDirectories h.cwd (joinPath root store.bucket) = .ok files ∧
      h' = { h with files, vault := ⟨store.bucket,
        .directory { base := Location.named h.cwd (joinPath root store.bucket) }⟩ } := by
  rw [Host.connect, hbackend] at hopen
  simp only at hopen
  cases hmake : h.makeDirectory (joinPath root store.bucket) with
  | error fault =>
    rw [hmake] at hopen
    cases hopen
  | ok made =>
    obtain ⟨files, base⟩ := made
    rw [hmake] at hopen
    obtain ⟨_, rfl⟩ := Prod.mk.inj hopen
    rw [Host.makeDirectory] at hmake
    cases htree : h.files.makeDirectories h.cwd (joinPath root store.bucket) with
    | error fault =>
      rw [htree] at hmake
      cases hmake
    | ok t =>
      rw [htree] at hmake
      simp only [Bind.bind, Except.bind] at hmake
      cases hbase : t.resolve h.cwd (joinPath root store.bucket) with
      | error fault =>
        rw [hbase] at hmake
        cases hmake
      | ok l =>
        rw [hbase] at hmake
        obtain ⟨rfl, rfl⟩ := Prod.mk.inj (Except.ok.inj hmake)
        rw [FileTree.resolve_eq hbase]
        exact ⟨t, rfl, rfl⟩

/-- A directory that cannot be made opens no store and changes nothing. -/
theorem connect_error {h : Host} {store : StoreConfig} {root : String} {fault : BlobFault}
    (hbackend : store.backend = .directory root) (hopen : (h.connect store).1 = .error fault) :
    (h.connect store).2 = h := by
  rw [Host.connect, hbackend] at hopen ⊢
  simp only at hopen ⊢
  cases hmake : h.makeDirectory (joinPath root store.bucket) with
  | error fault => rfl
  | ok made =>
    rw [hmake] at hopen
    cases hopen

theorem isLocal_connect {h h' : Host} {store : StoreConfig} (hcwd : h.cwd.IsClean)
    (hbackend : store.backend ≠ .gcs) (hopen : h.connect store = (.ok (), h')) :
    h'.vault.IsLocal := by
  cases hb : store.backend with
  | gcs => exact absurd hb hbackend
  | memory =>
    rw [Host.connect, hb] at hopen
    obtain ⟨_, rfl⟩ := Prod.mk.inj hopen
    trivial
  | directory root =>
    obtain ⟨files, _, rfl⟩ := connect_directory hb hopen
    exact Location.isClean_named hcwd _

/-- Once an archive run has returned a key, the blob of that key is what its dump utility wrote, at
every later point of the session; every later restore of it that succeeds has fed the utility these
bytes and then the end of the input. Operations that read never change the store. -/
theorem archive_endures {h₀ h : Host} {store : StoreConfig} {pipes : Pipes} {w₁ w₂ w₃ : World}
    {before later : List Event} {config : Config} {key : Key} (hcwd : h₀.cwd.IsClean)
    (hbackend : store.backend ≠ .gcs) (hopen : h₀.connect store = (.ok (), h))
    (hkept : ∀ l, h.vault.Territory l → S.kept l)
    (hapart : ∀ l, S.staging l → ¬ h.vault.Territory l)
    (hbefore : Session S ⟨h, pipes⟩ before w₁)
    (hrun : Happens S w₁ ⟨.archive config, .ok key⟩ w₂)
    (hlater : Session S w₂ later w₃) :
    (w₃.host.vault.contains w₃.host.files key).1 = .ok true ∧
      (w₃.host.vault.openReader w₃.host.files key).1 = .ok (.ofBytes w₂.pipes.output) ∧
      (∀ config' w', Happens S w₃ ⟨.restore config' key, .ok ()⟩ w' →
        w'.pipes.input = w₂.pipes.output ∧ w'.pipes.inputEnded = true) ∧
      (∀ archive w', Happens S w₃ ⟨.fetch key, .ok archive⟩ w' →
        archive.ending = .complete → archive.bytes = w₂.pipes.output) ∧
      ∀ events u e u', Session S ⟨h, pipes⟩ events u → Happens S u e u' →
        e.operation.reads = true → Steady u u' := by
  have hg : Guarded S h.vault := ⟨isLocal_connect hcwd hbackend hopen, hkept, hapart⟩
  have hg₁ := (session_keeps (w := ⟨h, pipes⟩) hg hbefore).guarded hg
  obtain ⟨hkeeps, hstored⟩ := happens_archive hg₁ hrun
  have hkeeps' := session_keeps (hkeeps.guarded hg₁) hlater
  have hg₃ := hkeeps'.guarded (hkeeps.guarded hg₁)
  have hblob : w₃.Stores (.ofKey key) w₂.pipes.output :=
    hkeeps'.stored _ _ (StorePath.isSafe_ofKey key) id (hstored key rfl)
  refine ⟨?_, ?_, ?_, ?_, ?_⟩
  · exact (Vault.contains_ok hg₃.isLocal w₃.host.files key).2.mpr ⟨_, hblob⟩
  · exact ((Vault.openReader_ok hg₃.isLocal w₃.host.files key).2 _).mpr ⟨_, rfl, hblob⟩
  · intro config' w' hrestore
    exact restore_feeds hg₃ hblob hrestore
  · intro archive w' hfetch
    exact fetch_ok hg₃.isLocal hblob hfetch
  · intro events u e u' hsession he hreads
    have hgu := (session_keeps (w := ⟨h, pipes⟩) hg hsession).guarded hg
    exact steady_of_only hgu (only_of_reads hreads _) he

def opened : Host :=
  { files := ⟨[(["store", "archives"], .directory), (["store"], .directory)]⟩
    cwd := []
    environment := .empty
    vault := ⟨"archives", .directory { base := ["store", "archives"] }⟩ }

/-- An archive run whose utility writes `DUMP`. -/
def rehearsal (w : World) : Except Fault Key × World :=
  ((Operation.archive {}).program "archives").run (rehearse ⟨#[68, 85, 77, 80]⟩) w

theorem happens_rehearsal {w : World} {r : Except Fault Key}
    (hbucket : w.host.vault.bucket = "archives") (hr : (rehearsal w).1 = r) :
    Happens aside w ⟨.archive {}, r⟩ (rehearsal w).2 := by
  have h := runs_run (rehearse ⟨#[68, 85, 77, 80]⟩) (rehearse_answers _)
    ((Operation.archive {}).program "archives") w
  rw [Happens, hbucket, ← hr]
  exact h

/-- Two archives of the same second: the second run is refused and the first archive stays. -/
theorem archive_endures_same_second :
    (rehearsal ⟨opened, {}⟩).1 = .ok (.mint .epoch) ∧
    ∃ w₂ w₃ fault, Happens aside ⟨opened, {}⟩ ⟨.archive {}, .ok (.mint .epoch)⟩ w₂ ∧
      Session aside w₂ [⟨.archive {}, .error fault⟩] w₃ ∧
      w₂.pipes.output = ⟨#[68, 85, 77, 80]⟩ ∧
      (w₃.host.vault.contains w₃.host.files (.mint .epoch)).1 = .ok true ∧
      (w₃.host.vault.openReader w₃.host.files (.mint .epoch)).1 = .ok (.ofBytes w₂.pipes.output) ∧
      (∀ config' w', Happens aside w₃ ⟨.restore config' (.mint .epoch), .ok ()⟩ w' →
        w'.pipes.input = w₂.pipes.output ∧ w'.pipes.inputEnded = true) ∧
      (∀ archive w', Happens aside w₃ ⟨.fetch (.mint .epoch), .ok archive⟩ w' →
        archive.ending = .complete → archive.bytes = w₂.pipes.output) ∧
      ∀ events u e u', Session aside ⟨opened, {}⟩ events u → Happens aside u e u' →
        e.operation.reads = true → Steady u u' := by
  have hfirst : (rehearsal ⟨opened, {}⟩).1 = .ok (.mint .epoch) := by decide +kernel
  have hsecond : (rehearsal (rehearsal ⟨opened, {}⟩).2).1 =
      .error ((Fault.objectExists "archives" (Key.mint .epoch).text).inStage .upload) := by
    decide +kernel
  have hbucket : (rehearsal ⟨opened, {}⟩).2.host.vault.bucket = "archives" := by decide +kernel
  have hdump : (rehearsal ⟨opened, {}⟩).2.pipes.output = ⟨#[68, 85, 77, 80]⟩ := by decide +kernel
  have hrun := happens_rehearsal (w := ⟨opened, {}⟩) rfl hfirst
  have hagain : Session aside (rehearsal ⟨opened, {}⟩).2 _ _ :=
    .cons (happens_rehearsal hbucket hsecond) (.nil _)
  have hopen : Host.connect { files := .empty, cwd := [], environment := .empty }
      { bucket := "archives", backend := .directory "/store" } = (.ok (), opened) := by rfl
  have haside : ¬ opened.vault.Territory ["staged"] := by
    rintro ⟨base, hbase, h⟩
    obtain rfl := Option.some.inj hbase
    revert h
    decide
  exact ⟨hfirst, _, _, _, hrun, hagain, hdump,
    archive_endures (fun _ hs => absurd hs List.not_mem_nil) (by decide) hopen
      (fun l hl h => haside (h ▸ hl)) (fun l h hl => haside (h ▸ hl)) (.nil _) hrun hagain⟩

end DumpVault
