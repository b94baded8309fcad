import DumpVault.Proofs.Chronology
import DumpVault.Proofs.Devoted
import DumpVault.Proofs.Serving

/-!
# Files that a run leaves alone

A run has at most three files of its own: the staging file that its dump makes, the staged file that
a writer of its store fills, and the blob that this becomes. At every other place where a blob may
lie, and where utilities leave things alone, there is afterwards the file that was there, or none as
before.
-/
namespace DumpVault
open Prog World

variable {S : Setting} {w w' u v : World} {steps more : List Step} {own : List String}

theorem runs_of_along {α : Type} {p : Prog α} {a : α} (h : Yields p steps a)
    (hsteps : Along (Answers S) w steps w') : Runs S w p a w' := by
  induction h generalizing w with
  | pure a =>
    obtain rfl := along_nil.mp hsteps
    exact .pure _ _
  | call _ ih =>
    obtain ⟨w₁, hr, hrest⟩ := along_cons.mp hsteps
    exact .call hr (ih hrest)

theorem created_append (steps more : List Step) :
    created (steps ++ more) = created steps ++ created more := List.filterMap_append

namespace World

theorem connect_elsewhere {h : Host} {c : StoreConfig}
    (hbackend : ∀ root, c.backend ≠ .directory root) :
    (∃ v : Vault, v.IsFresh ∧ h.connect c = (.ok (), { h with vault := v })) ∨
      ∃ fault, h.connect c = (.error fault, h) := by
  rw [Host.connect]
  cases hcase : c.backend with
  | directory root => exact absurd hcase (hbackend root)
  | memory => exact .inl ⟨⟨c.bucket, .memory {}⟩, rfl, rfl⟩
  | gcs =>
    dsimp only
    split
    · exact .inl ⟨⟨c.bucket, .cloud⟩, trivial, rfl⟩
    · exact .inr ⟨_, rfl⟩

theorem connect_fails {c : StoreConfig} {fault : BlobFault}
    (h : w.Answers S (.connect c) (.error fault) w') : w' = w := by
  by_cases hbackend : ∃ root, c.backend = .directory root
  · obtain ⟨root, hroot⟩ := hbackend
    exact connect_refused hroot h
  · rcases h with ⟨hreply, rfl⟩ | ⟨_, rfl⟩
    · change Except.error fault = (w.host.connect c).1 at hreply
      rcases connect_elsewhere (h := w.host) (not_exists.mp hbackend) with
        ⟨v, _, hconnect⟩ | ⟨_, hconnect⟩
      · rw [hconnect] at hreply
        cases hreply
      · simp only [after, Host.answer, hconnect]
    · rfl

/-- A store has been opened: nobody has written to it, and at most directories have come, where
nothing was. -/
structure Opens (c : StoreConfig) (w w' : World) : Prop where
  cwd : w'.host.cwd = w.host.cwd
  fresh : w'.host.vault.IsFresh
  base : ∀ root, c.backend = .directory root →
    w'.host.vault.base? = some (c.place w.host.cwd root)
  grown : ∀ l, w'.host.files.at? l = w.host.files.at? l ∨
    (w.host.files.at? l = none ∧ w'.host.files.at? l = some .directory)
  single : w.host.files.IsSingle → w'.host.files.IsSingle

namespace Opens

variable {c : StoreConfig}

theorem content (h : Opens c w w') (l : Location) :
    w'.host.files.content? l = w.host.files.content? l := FileTree.content?_of_grown (h.grown l)

theorem sound (h : Opens c w w') (hfiles : w.host.files.IsSound) : w'.host.files.IsSound := by
  refine ⟨h.single hfiles.single, fun l content hfile => ?_, fun l content hfile => ?_⟩
  · exact hfiles.clean l content (h.content l ▸ hfile)
  · intro above name below hsplit
    have hdir := hfiles.housed l content (h.content l ▸ hfile) above name below hsplit
    rcases h.grown above with heq | ⟨hnone, _⟩
    · rw [heq, hdir]
    · rw [hnone] at hdir
      cases hdir

end Opens

theorem connect_opens {c : StoreConfig} (hcwd : w.host.cwd.IsClean)
    (h : w.Answers S (.connect c) (.ok ()) w') : Opens c w w' := by
  obtain ⟨hreply, rfl⟩ : w.Served (c := .connect c) (.ok ()) w' := by
    rcases h with h | ⟨⟨_, hfault⟩, _⟩
    · exact h
    · cases hfault
  have hopen : w.host.connect c = (.ok (), (w.after (.connect c)).host) :=
    Prod.ext hreply.symm rfl
  by_cases hbackend : ∃ root, c.backend = .directory root
  · obtain ⟨root, hroot⟩ := hbackend
    obtain ⟨files, hmake, hhost⟩ := connect_directory hroot hopen
    refine ⟨?_, ?_, fun root' hroot' => ?_, ?_, ?_⟩ <;> rw [hhost]
    · exact ⟨Location.isClean_named hcwd _, rfl⟩
    · obtain rfl := Backend.directory.inj (hroot.symm.trans hroot')
      rfl
    · exact FileTree.makeDirectories_ok hmake
    · exact fun hsingle => hsingle.makeDirectories hmake
  · have helsewhere := not_exists.mp hbackend
    rcases connect_elsewhere (h := w.host) helsewhere with ⟨v, hfresh, hconnect⟩ | ⟨_, hconnect⟩
    · obtain ⟨_, hhost⟩ := Prod.mk.inj (hopen.symm.trans hconnect)
      refine ⟨?_, ?_, fun root hroot => absurd hroot (helsewhere root), ?_, ?_⟩ <;> rw [hhost]
      · exact hfresh
      · exact fun _ => .inl rfl
      · exact id
    · rw [hconnect] at hopen
      cases (Prod.mk.inj hopen).1

end World

namespace World

theorem after_lookup (hv : w.host.vault.IsFresh) {c : Call}
    (hc : c = .list ∨ ∃ k, c = .exists k ∨ c = .openReader k) : w.after c = w := by
  obtain ⟨⟨files, cwd, environment, clock, ⟨bucket, storage⟩, isCancelled, cancelOn, lines, printed,
    child, staging⟩, pipes⟩ := w
  cases storage with
  | scripted s => exact hv.elim
  | memory | directory | cloud =>
    rcases hc with rfl | ⟨k, rfl | rfl⟩ <;>
      simp [after, Host.answer, Vault.list, Vault.contains, Vault.openReader, Vault.keep, Host.settle]

/-- The store is as it was, and so is each place that utilities leave alone, unless a staging file
has been made there, where nothing was. `own` are the paths of the staging files. -/
structure Retains (S : Setting) (own : List String) (w w' : World) : Prop where
  vault : w'.host.vault = w.host.vault
  cwd : w'.host.cwd = w.host.cwd
  made : ∀ path ∈ own, S.staging (.named w.host.cwd path)
  kept : ∀ l, S.kept l → w'.host.files.at? l = w.host.files.at? l ∨
    (w.host.files.at? l = none ∧ ∃ path ∈ own, l = .named w.host.cwd path)

theorem Retains.refl (S : Setting) (w : World) : Retains S [] w w :=
  ⟨rfl, rfl, fun _ h => absurd h List.not_mem_nil, fun _ _ => .inl rfl⟩

theorem Retains.trans {own' : List String} (h : Retains S own w w') (h' : Retains S own' w' u) :
    Retains S (own ++ own') w u := by
  refine ⟨h'.vault.trans h.vault, h'.cwd.trans h.cwd, fun path hpath => ?_, fun l hl => ?_⟩
  · rcases List.mem_append.mp hpath with hpath | hpath
    · exact h.made path hpath
    · exact h.cwd ▸ h'.made path hpath
  · rcases h.kept l hl with heq | ⟨hnone, path, hpath, hpath'⟩
    · rcases h'.kept l hl with heq' | ⟨hnone, path, hpath, hpath'⟩
      · exact .inl (heq'.trans heq)
      · exact .inr ⟨heq ▸ hnone, path, List.mem_append_right _ hpath, h.cwd ▸ hpath'⟩
    · exact .inr ⟨hnone, path, List.mem_append_left _ hpath, hpath'⟩

theorem Acts.retains (h : Acts S u w') (hhost : u.host = w.host) : Retains S [] w w' := by
  refine ⟨?_, ?_, fun _ h => absurd h List.not_mem_nil, fun l hl => .inl ?_⟩
  · rw [h.vault, hhost]
  · rw [h.cwd, hhost]
  · rw [h.kept l hl, hhost]

theorem retains_of_calm (hv : w.host.vault.IsFresh) {c : Call} {r : Reply c} (hc : isCalm c)
    (h : w.Answers S c r w') : Retains S (created [⟨c, r⟩]) w w' := by
  have hlookup : c.isOfStore → (c = .list ∨ ∃ k, c = .exists k ∨ c = .openReader k) →
      Retains S [] w w' := by
    intro hstore hc
    rcases answers_of_store hstore h with rfl | rfl
    · exact .refl S _
    · rw [after_lookup hv hc]
      exact .refl S w
  have haside : isAside c → (∀ dir, c ≠ .createStaging dir) → Retains S [] w w' := by
    intro haside hnew
    rcases answers_attending haside hnew h with rfl | ⟨u, hhost, hacts⟩
    · exact .refl S _
    · exact hacts.retains hhost
  cases c with
  | removeFile | connect | openWriter | write | finalize | abort => exact hc.elim
  | list => exact hlookup trivial (.inl rfl)
  | «exists» k => exact hlookup trivial (.inr ⟨k, .inl rfl⟩)
  | openReader k => exact hlookup trivial (.inr ⟨k, .inr rfl⟩)
  | createStaging dir =>
    cases r with
    | error fault =>
      obtain rfl : w' = w := h
      exact .refl S _
    | ok path =>
      obtain ⟨hstaging, hnone, rfl⟩ := h
      refine ⟨rfl, rfl, fun p hp => List.mem_singleton.mp hp ▸ hstaging, fun l _ => ?_⟩
      by_cases hl : l = .named w.host.cwd path
      · exact .inr ⟨hl ▸ hnone, path, List.mem_singleton_self _, hl⟩
      · exact .inl (FileTree.at?_put_of_ne _ _ hl)
  | _ => exact haside trivial fun _ => Call.noConfusion

/-- Calm steps leave the store alone, and every place that utilities do not touch. -/
theorem retains_of_steps (hv : w.host.vault.IsFresh) (hcalm : ∀ s ∈ steps, isCalm s.call)
    (h : Along (Answers S) w steps w') : Retains S (created steps) w w' := by
  induction h with
  | nil => exact .refl S _
  | @cons w u w' c r steps hr _ ih =>
    obtain ⟨hc, hsteps⟩ := List.forall_mem_cons.mp hcalm
    have hfirst := retains_of_calm hv hc hr
    have hcreated : created (⟨c, r⟩ :: steps) = created [⟨c, r⟩] ++ created steps :=
      created_append [_] steps
    rw [hcreated]
    exact hfirst.trans (ih (hfirst.vault ▸ hv) hsteps)

end World

theorem isCalm_of_quiet {c : Call} (hstore : c.reachesStore = false)
    (hremoval : c.isRemoval = false) : isCalm c := by
  cases c <;> trivial

namespace Dump

variable {d : Dump} {path : String}

theorem Course.calm {r : Except Fault String} (h : d.Course steps r) :
    ∀ s ∈ steps, isCalm s.call := by
  refine fun s hs => isCalm_of_quiet (h.quiet s hs) ?_
  rcases h.attends with ⟨fault, rfl, _⟩ | ⟨path, rest, rfl, hminds, _⟩
  · rw [List.mem_singleton.mp hs]
    rfl
  · rcases List.mem_cons.mp hs with rfl | hs
    · rfl
    · exact (Call.quiet_of_minds (hminds s hs)).2

theorem Ends.written {command : Command} (h : d.Ends command steps none)
    (hcommand : command.streams = .intoFile path) (hsteps : Along (Answers S) w steps w') :
    ∀ content, w'.host.content? path = some content → content = w'.pipes.output := by
  cases h with
  | succeeded captured status =>
    obtain ⟨w₁, hspawn, hnext⟩ := along_cons.mp hsteps
    obtain ⟨w₂, hwait, hrest⟩ := along_cons.mp hnext
    obtain rfl := along_nil.mp hrest
    have hspawn : Acts S (w.start command) w₁ := hspawn
    have hwait : Acts S w₁ w' := hwait
    refine fun content hcontent => hwait.output path content ?_ hcontent
    rw [hspawn.outlet]
    exact congrArg Streams.outlet hcommand

/-- A dump that succeeds has made a staging file where nothing was. It hands on its path, and the
file holds what the utility has written, or is gone. -/
theorem Course.dumped_ok (h : d.Course steps (.ok path)) (hsteps : Along (Answers S) w steps w') :
    path ∈ created steps ∧
      ∀ content, w'.host.content? path = some content → content = w'.pipes.output := by
  cases h with
  | @dumped _ password utility ends =>
    refine ⟨List.mem_cons_self, ?_⟩
    obtain ⟨w₁, _, hstarted⟩ := along_append.mp hsteps
    obtain ⟨w₂, hutility, hlast⟩ := along_append.mp hstarted
    obtain ⟨w₃, hlog, hend⟩ := along_cons.mp hlast
    obtain rfl := along_nil.mp hend
    obtain rfl : w' = w₂ := hlog
    exact ends.written rfl hutility

end Dump

/-- An upload fails without having changed anything, or it has found its key to be free and has put
nothing but the blob of this key into the store. -/
theorem upload_puts {bucket path : String} {r : Except Fault Key} (hv : w.host.vault.IsFresh)
    (h : Yields (upload bucket path) steps r) (hsteps : Along (Answers S) w steps w') :
    (w' = w ∧ ∃ fault, r = .error fault) ∨
      ∃ t, (w.host.vault.contains w.host.files (.mint t)).1 = .ok false ∧ Puts (.mint t) w w' ∧
        ∀ k, r = .ok k → k = .mint t := by
  obtain ⟨t, rest, rfl, hlookup⟩ := yields_ask_bind.mp h
  obtain ⟨w₁, hnow, hrest⟩ := along_cons.mp hsteps
  obtain rfl : w₁ = w := hnow
  obtain ⟨found, rest, rfl, hfound⟩ := yields_ask_bind.mp hlookup
  obtain ⟨w₂, hexists, hmore⟩ := along_cons.mp hrest
  have hsame : w₂ = w₁ := by
    rcases hexists with ⟨_, rfl⟩ | ⟨_, rfl⟩
    · exact after_lookup hv (.inr ⟨_, .inl rfl⟩)
    · rfl
  subst hsame
  match found, hfound, hexists with
  | .error fault, hfound, _ | .ok true, hfound, _ =>
    obtain ⟨rfl, rfl⟩ := yields_pure.mp hfound
    exact .inl ⟨along_nil.mp hmore, _, rfl⟩
  | .ok false, hfound, hexists =>
    have hfree : (w₂.host.vault.contains w₂.host.files (.mint t)).1 = .ok false := by
      rcases hexists with ⟨hreply, _⟩ | ⟨⟨_, hfault⟩, _⟩
      · exact hreply.symm
      · cases hfault
    obtain ⟨opened, rest, rfl, hopened⟩ := yields_ask_bind.mp hfound
    obtain ⟨w₃, hopen, hput⟩ := along_cons.mp hmore
    obtain rfl : w₃ = w₂ := hopen.1
    cases opened with
    | error source =>
      obtain ⟨rfl, rfl⟩ := yields_pure.mp hopened
      exact .inl ⟨along_nil.mp hput, _, rfl⟩
    | ok file =>
      have hputs := puts_of_only (hv.devoted (.mint t)) (only_uploadFrom bucket path (.mint t) file)
        (runs_of_along hopened hput)
      obtain ⟨faults, _, rfl, _⟩ := uploadFrom_course hopened
      refine .inr ⟨t, hfree, hputs, fun k hk => ?_⟩
      cases faults with
      | nil => exact (Except.ok.inj hk).symm
      | cons => cases hk

namespace Archiver

variable {a : Archiver}

/-- Nothing is removed but the staging file. -/
theorem CleanedUp.keeps {path : String} (h : a.CleanedUp path steps)
    (hsteps : Along (Answers S) w steps w') : w'.pipes = w.pipes ∧
      ∀ l, l ≠ .named w.host.cwd path → w'.host.files.at? l = w.host.files.at? l := by
  cases h with
  | retained =>
    obtain ⟨w₁, hlog, hend⟩ := along_cons.mp hsteps
    obtain rfl := along_nil.mp hend
    obtain rfl : w' = w := hlog
    exact ⟨rfl, fun _ _ => rfl⟩
  | removed =>
    obtain ⟨w₁, hremove, hend⟩ := along_cons.mp hsteps
    obtain rfl := along_nil.mp hend
    exact (removeFile_answers hremove).imp_right fun hrest => hrest.2.2
  | unremoved _ fault =>
    obtain ⟨w₁, hremove, hwarn⟩ := along_cons.mp hsteps
    obtain ⟨w₂, hlog, hend⟩ := along_cons.mp hwarn
    obtain rfl := along_nil.mp hend
    obtain rfl : w' = w₁ := hlog
    exact (removeFile_answers hremove).imp_right fun hrest => hrest.2.2

theorem CleanedUp.created {path : String} (h : a.CleanedUp path steps) : created steps = [] := by
  cases h <;> rfl

end Archiver

theorem created_upload {bucket path : String} {r : Except Fault Key}
    (h : Yields (upload bucket path) steps r) : created steps = [] := by
  refine created_of_quiet fun s hs => ?_
  have hminds : s.call.minds path := Call.minds_of_upload ((only_upload bucket path).mem h s hs)
  exact (Call.quiet_of_minds hminds).1

/-- How a run goes that comes to look up its key. Up to then, in `u`, it has made a staging file at
most; it finds the key to be free; then it puts nothing but the blob of the key into the store, which
gives `v`, and in the end it removes nothing but its staging file. -/
structure Stows (S : Setting) (own : List String) (key : Key) (w u v w' : World) : Prop where
  dumped : Retains S own w u
  free : (u.host.vault.contains u.host.files key).1 = .ok false
  puts : Puts key u v
  cleaned : ∀ l, (∀ path ∈ own, l ≠ .named w.host.cwd path) →
    w'.host.files.at? l = v.host.files.at? l

/-- A dump that succeeds, with the steps around it, retains all but its staging file. -/
theorem retains_of_dump {a : Archiver} {path : String} {dump : List Step}
    (hv : w.host.vault.IsFresh) (dumping : a.dump.Course dump (.ok path))
    (hsteps : Along (Answers S) w (Archiver.toDump ++ (dump ++ Archiver.toUpload)) u) :
    Retains S (created dump) w u ∧ path ∈ created dump ∧
      ∀ content, u.host.content? path = some content → content = u.pipes.output := by
  have hretains := retains_of_steps hv (by
    simpa [Archiver.toDump, Archiver.toUpload, Step.line, isCalm, or_imp, forall_and]
      using dumping.calm) hsteps
  have hcreated : created (Archiver.toDump ++ (dump ++ Archiver.toUpload)) = created dump := by
    rw [created_append, created_append]
    exact List.append_nil _
  obtain ⟨w₁, _, hafter⟩ := along_append.mp hsteps
  obtain ⟨w₂, hdump, hupload⟩ := along_append.mp hafter
  obtain ⟨w₃, hlog, hentering⟩ := along_cons.mp hupload
  obtain ⟨w₄, hentered, hend⟩ := along_cons.mp hentering
  obtain rfl := along_nil.mp hend
  obtain rfl : u = w₃ := hentered
  obtain rfl : u = w₂ := hlog
  exact ⟨hcreated ▸ hretains, dumping.dumped_ok hdump⟩

/-- An archive run that does not come to find its key free changes nothing but its staging file. -/
theorem archive_stows {a : Archiver} {r : Except Fault Key} (hv : w.host.vault.IsFresh)
    (h : Yields a.run steps r) (hsteps : Along (Answers S) w steps w') :
    (Retains S (created steps) w w' ∧ ∃ fault, r = .error fault) ∨
      ∃ t u v, Stows S (created steps) (.mint t) w u v w' ∧ ∀ k, r = .ok k → k = .mint t ∧
        (w.host.vault.IsLocal → v.Stores (.ofKey k) w'.pipes.output) := by
  cases Archiver.course_of_yields h with
  | cutBeforeDump =>
    exact .inl ⟨retains_of_steps hv (by simp [Step.line, isCalm]) hsteps, _, rfl⟩
  | undumped dumping | cutBeforeUpload dumping =>
    refine .inl ⟨retains_of_steps hv ?_ hsteps, _, rfl⟩
    simpa [Archiver.toDump, Step.line, isCalm, or_imp, forall_and] using dumping.calm
  | @unstored path dump copying fault dumping uploading =>
    have hcreated : created (Archiver.toDump ++ (dump ++ (Archiver.toUpload ++ (copying ++
        [.line (Archiver.passage .uploading .failed)])))) = created dump := by
      simp only [created_append, created_upload uploading]
      exact List.append_nil _
    rw [← List.append_assoc dump, ← List.append_assoc Archiver.toDump] at hsteps
    obtain ⟨u, hdump, hafter⟩ := along_append.mp hsteps
    obtain ⟨v, hupload, hlast⟩ := along_append.mp hafter
    obtain ⟨w₁, hlog, hend⟩ := along_cons.mp hlast
    obtain rfl := along_nil.mp hend
    obtain rfl : w' = v := hlog
    obtain ⟨hretains, _, _⟩ := retains_of_dump hv dumping hdump
    rw [hcreated]
    rcases upload_puts (hretains.vault ▸ hv) uploading hupload with ⟨rfl, _⟩ | ⟨t, hfree, hputs, _⟩
    · exact .inl ⟨hretains, _, rfl⟩
    · exact .inr ⟨t, u, w', ⟨hretains, hfree, hputs, fun _ _ => rfl⟩, fun _ hk => (by cases hk)⟩
  | @stored path dump copying cleaning key dumping uploading cleaned =>
    have hcreated : created (Archiver.toDump ++ (dump ++ (Archiver.toUpload ++ (copying ++
        (cleaning ++ [.line (Archiver.passage .uploading .done)]))))) = created dump := by
      simp only [created_append, created_upload uploading, cleaned.created]
      exact List.append_nil _
    rw [← List.append_assoc dump, ← List.append_assoc Archiver.toDump] at hsteps
    obtain ⟨u, hdump, hafter⟩ := along_append.mp hsteps
    obtain ⟨v, hupload, hclean⟩ := along_append.mp hafter
    obtain ⟨w₁, hcleaning, hlast⟩ := along_append.mp hclean
    obtain ⟨w₂, hlog, hend⟩ := along_cons.mp hlast
    obtain rfl := along_nil.mp hend
    obtain rfl : w' = w₁ := hlog
    obtain ⟨hretains, hpath, houtput⟩ := retains_of_dump hv dumping hdump
    obtain ⟨hpipes, hothers⟩ := cleaned.keeps hcleaning
    rw [hcreated]
    rcases upload_puts (hretains.vault ▸ hv) uploading hupload with ⟨_, _, hfault⟩ |
      ⟨t, hfree, hputs, hkey⟩
    · cases hfault
    · obtain rfl := hkey key rfl
      have hcwd : v.host.cwd = w.host.cwd := hputs.cwd.trans hretains.cwd
      refine .inr ⟨t, u, v, ⟨hretains, hfree, hputs, fun l hl => hothers l ?_⟩, ?_⟩
      · exact hcwd ▸ hl path hpath
      · intro k hk
        obtain rfl : Key.mint t = k := Except.ok.inj hk
        refine ⟨rfl, fun hlocal => ?_⟩
        rw [hpipes]
        exact (upload_publishes (hretains.vault ▸ hlocal) houtput
          (runs_of_along uploading hupload)).2.2 _ rfl

theorem created_vacant {a : Archiver} {r : Except Fault Key} (h : Yields a.run steps r)
    (hsteps : Along (Answers S) w steps w') {path : String} (hpath : path ∈ created steps) :
    w.host.files.at? (.named w.host.cwd path) = none := by
  have hfirst : ∀ {dir own : String} {rest : List Step},
      steps = Archiver.toDump ++ ⟨.createStaging dir, .ok own⟩ :: rest → created rest = [] →
      w.host.files.at? (.named w.host.cwd path) = none := by
    rintro dir own rest rfl hrest
    rw [created_begun, hrest] at hpath
    obtain rfl := List.mem_singleton.mp hpath
    obtain ⟨w₁, hlog, hentering⟩ := along_cons.mp hsteps
    obtain ⟨w₂, hentered, hcreating⟩ := along_cons.mp hentering
    obtain ⟨w₃, hstages, _⟩ := along_cons.mp hcreating
    obtain rfl : w₂ = w₁ := hentered
    obtain rfl : w₂ = w := hlog
    exact hstages.2.1
  have hminds : ∀ {own : String} {rest : List Step}, (∀ s ∈ rest, s.call.minds own) →
      created rest = [] :=
    fun h => created_of_quiet fun s hs => (Call.quiet_of_minds (h s hs)).1
  cases Archiver.custody_of_yields h with
  | uncreated fault _ idle =>
    obtain ⟨s, hs, hcreated⟩ := List.mem_filterMap.mp hpath
    rcases idle s hs with hidle | ⟨dir, fault, rfl⟩
    · obtain ⟨c, reply⟩ := s
      cases c with
      | log | isCancelled => cases hcreated
      | _ => cases hidle
    · cases hcreated
  | undumped fault minds => exact hfirst rfl (hminds minds)
  | kept r minds => exact hfirst rfl (hminds minds)
  | @removed own dump copying last key reply minds dumped uploading retain idle =>
    have hlast : created last = [] :=
      created_of_quiet fun s hs => (Call.quiet_of_idle (idle s hs)).1
    refine hfirst rfl ?_
    rw [created_append, hminds minds, created_append, created_upload uploading]
    exact hlast

namespace Stows

variable {key : Key} {l : Location} {content : ByteArray}

/-- Beside the blob and the staging file nothing has changed. -/
theorem blobs (h : Stows S own key w u v w') (hl : l.IsBlobPlace) (hkept : S.kept l)
    (hown : ∀ path ∈ own, l ≠ .named w.host.cwd path) (hplace : w.host.vault.place? key ≠ some l) :
    w'.host.files.content? l = w.host.files.content? l := by
  rw [FileTree.content?_congr (h.cleaned l hown), h.puts.blobs l hl (h.dumped.vault ▸ hplace)]
  rcases h.dumped.kept l hkept with heq | ⟨_, path, hpath, rfl⟩
  · exact FileTree.content?_congr heq
  · exact absurd rfl (hown path hpath)

theorem vacant (h : Stows S own key w u v w') (hv : w.host.vault.IsFresh)
    (hplace : w.host.vault.place? key = some l)
    (hkept : ∀ m, m <+: l → w.host.files.at? m ≠ none → u.host.files.at? m = w.host.files.at? m)
    (hhoused : w.host.files.content? l ≠ none → w.host.files.IsHoused l) :
    w.host.files.content? l = none := by
  by_contra hfile
  have hsome : w.host.files.at? l ≠ none := by
    intro hnone
    rw [FileTree.content?, hnone] at hfile
    exact hfile rfl
  have hsame := FileTree.content?_congr (hkept l (List.prefix_refl l) hsome)
  refine hfile (hsame ▸ ?_)
  have hfresh : u.host.vault.IsFresh := h.dumped.vault ▸ hv
  refine (hfresh.devoted key).vacant h.free (h.dumped.vault ▸ hplace) fun _ _ => ?_
  rintro above name below rfl
  have hdir := hhoused hfile above name below rfl
  rw [hkept above (List.prefix_append _ _) (by simp [hdir]), hdir]

end Stows

end DumpVault
