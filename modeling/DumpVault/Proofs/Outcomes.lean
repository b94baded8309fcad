import DumpVault.Proofs.Reports
import DumpVault.Proofs.Retrieval

/-!
# What a command line comes to

The exit code, the lines and the stored files of one command line tell the same. It ends with 0
exactly if its settings could be put together and its action was performed: then a blob has been
added, given to a utility, or the keys have been shown. Else it has said why, in its last line. No
blob that was there changes, as far as utilities leave it alone.
-/
namespace DumpVault
open Prog World

variable {S : Setting} {w w' u v : World} {steps : List Step} {c : Config}

namespace World

/-- Every blob is still there that utilities leave alone, with all that leads to it. -/
def Preserves (S : Setting) (w w' : World) : Prop :=
  ∀ l content, Location.IsBlobPlace l → (∀ m, m <+: l → S.kept m) →
    w.host.files.content? l = some content → w'.host.files.content? l = some content

theorem Preserves.refl (S : Setting) (w : World) : Preserves S w w := fun _ _ _ _ h => h

theorem Preserves.trans (h : Preserves S w w') (h' : Preserves S w' u) : Preserves S w u :=
  fun l content hl hkept hfile => h' l content hl hkept (h l content hl hkept hfile)

theorem Opens.preserves {s : StoreConfig} (h : Opens s w w') : Preserves S w w' :=
  fun l _ _ _ hfile => (h.content l).trans hfile

theorem Retains.kept_of_some {own : List String} {l : Location} {e : Entry}
    (h : Retains S own w w') (hl : S.kept l) (he : w.host.files.at? l = some e) :
    w'.host.files.at? l = some e := by
  rcases h.kept l hl with heq | ⟨hnone, _⟩
  · exact heq.trans he
  · rw [hnone] at he
    cases he

theorem Retains.preserves {own : List String} (h : Retains S own w w') : Preserves S w w' := by
  intro l content _ hkept hfile
  have he := FileTree.content?_eq_some_iff.mp hfile
  exact FileTree.content?_eq_some_iff.mpr (h.kept_of_some (hkept l (List.prefix_refl l)) he)

end World

/-- The place of one of the staging files that a run has made. -/
def IsOwn (own : List String) (w : World) (l : Location) : Prop :=
  ∃ path ∈ own, l = .named w.host.cwd path

section Archive

variable {a : Archiver} {r : Except Fault Key} {base : Location}

theorem vacant_of_isOwn {l : Location} (h : Yields a.run steps r)
    (hsteps : Along (Answers S) w steps w') (hl : IsOwn (created steps) w l) :
    w.host.files.at? l = none := by
  obtain ⟨path, hpath, rfl⟩ := hl
  exact created_vacant h hsteps hpath

/-- An archive run finds no blob at the place where it puts its own. -/
theorem Stows.free_place {key : Key} {l : Location} (h : Stows S (created steps) key w u v w')
    (hv : w.host.vault.IsFresh) (ht : w.host.files.IsSound)
    (hplace : w.host.vault.place? key = some l) (hyields : Yields a.run steps r)
    (hsteps : Along (Answers S) w steps w') (hkept : ∀ m, m <+: l → S.kept m ∨ IsOwn (created steps) w m) :
    w.host.files.content? l = none := by
  refine h.vacant hv hplace (fun m hm hsome => ?_) fun hfile => ?_
  · obtain ⟨e, he⟩ := Option.ne_none_iff_exists'.mp hsome
    rcases hkept m hm with hm | hown
    · rw [h.dumped.kept_of_some hm he, he]
    · exact absurd (vacant_of_isOwn hyields hsteps hown) hsome
  · obtain ⟨content, hcontent⟩ := Option.ne_none_iff_exists'.mp hfile
    exact ht.housed l content hcontent

theorem archive_preserves (hv : w.host.vault.IsFresh) (ht : w.host.files.IsSound)
    (h : Yields a.run steps r) (hsteps : Along (Answers S) w steps w') : Preserves S w w' := by
  rcases archive_stows hv h hsteps with ⟨hretains, _⟩ | ⟨t, u, v, hstows, _⟩
  · exact hretains.preserves
  · intro l content hl hkept hfile
    have hown : ∀ path ∈ created steps, l ≠ .named w.host.cwd path := by
      rintro path hpath rfl
      rw [FileTree.content?, created_vacant h hsteps hpath] at hfile
      cases hfile
    have hplace : w.host.vault.place? (.mint t) ≠ some l := by
      intro hplace
      rw [hstows.free_place hv ht hplace h hsteps fun m hm => .inl (hkept m hm)] at hfile
      cases hfile
    rw [hstows.blobs hl (hkept l (List.prefix_refl l)) hown hplace, hfile]

/-- A directory has gained one blob, which holds what the utility has written. Beside it every file
is as it was that has not the name of a staged file and is no staging file of the run. -/
structure Gains (own : List String) (base : Location) (key : Key) (w w' : World) : Prop where
  vacant : w.host.files.content? (base ++ [key.text]) = none
  stored : w'.host.files.content? (base ++ [key.text]) = some w'.pipes.output
  others : ∀ names, names ≠ [] → Location.IsBlobPlace names → names ≠ [key.text] →
    ¬ IsOwn own w (base ++ names) →
    w'.host.files.content? (base ++ names) = w.host.files.content? (base ++ names)

/-- The directory of the store has gained the blob of the key that an archive run returns, if
utilities leave alone what is there, and no staging file has the name of a key. -/
theorem archive_gains {key : Key} (hv : w.host.vault.IsFresh) (ht : w.host.files.IsSound)
    (hnames : ∀ l t, S.staging l → l.getLast? ≠ some (Key.mint t).text)
    (hbase : w.host.vault.base? = some base)
    (hkept : ∀ l, l <+: base ∨ base <+: l → S.kept l ∨ IsOwn (created steps) w l)
    (h : Yields a.run steps r) (hsteps : Along (Answers S) w steps w') (hr : r = .ok key) :
    Gains (created steps) base key w w' := by
  obtain ⟨hlocal, hclean⟩ := hv.isLocal hbase
  rcases archive_stows hv h hsteps with ⟨_, fault, hfault⟩ | ⟨t, u, v, hstows, hok⟩
  · rw [hr] at hfault
    cases hfault
  · obtain ⟨rfl, hstored⟩ := hok key hr
    have hsegments : (StorePath.ofKey (.mint t)).segments = [(Key.mint t).text] := by
      rw [StorePath.ofKey_mint, Key.text_mint]
    have hplace : w.host.vault.place? (.mint t) = some (base ++ [(Key.mint t).text]) := by
      rw [Vault.place?, hbase, hsegments, Option.map_some]
    have hvbase : v.host.vault.base? = some base := by
      rw [hstows.puts.base, hstows.dumped.vault, hbase]
    have hother : ∀ path ∈ created steps,
        base ++ [(Key.mint t).text] ≠ .named w.host.cwd path := by
      intro path hpath heq
      refine hnames _ t (hstows.dumped.made path hpath) ?_
      rw [← heq, List.getLast?_concat]
    refine ⟨?_, ?_, fun names hne hplace' hnot hown => ?_⟩
    · refine hstows.free_place hv ht hplace h hsteps fun m hm => hkept m ?_
      exact List.prefix_or_prefix_of_prefix hm (List.prefix_append _ _)
    · rw [FileTree.content?_congr (hstows.cleaned _ hother), ← hsegments]
      exact Vault.content?_of_stores hvbase hclean (StorePath.isClean_ofKey _) (hstored hlocal)
    · have hkeptHere := (hkept _ (.inr (List.prefix_append base names))).resolve_right hown
      refine hstows.blobs ?_ hkeptHere (fun path hpath heq => hown ⟨path, hpath, heq⟩) ?_
      · exact (Location.isBlobPlace_append base hne).mpr hplace'
      · rw [hplace]
        exact fun heq => hnot (List.append_cancel_left (Option.some.inj heq)).symm

end Archive

namespace CommandLine

variable {action : Action} {r : Except Fault Unit}

theorem along_connected {s : StoreConfig} {rest : List Step} (hcwd : w.host.cwd.IsClean)
    (h : Along (Answers S) w (connected s ++ rest) w') :
    ∃ u, Opens s w u ∧ Along (Answers S) u rest w' := by
  obtain ⟨u, hopen, hready⟩ := along_cons.mp h
  exact ⟨u, connect_opens hcwd hopen, along_behind (by simp [Step.line, Call.isStill]) hready⟩

theorem still_of_ofConfig {setting : List Step} {a : Archiver}
    (h : Yields (Archiver.ofConfig c.store.bucket c) setting a) :
    ∀ s ∈ setting, s.call.isStill := by
  rcases (Archiver.ofConfig_course h).2 with rfl | ⟨dir, rfl⟩
  · simp
  · simp [Call.isStill]

/-- Whatever an action does through its store, blobs stay. -/
theorem Action.Performs.preserves (hv : w.host.vault.IsFresh) (ht : w.host.files.IsSound)
    (h : Action.Performs c action steps r) (hsteps : Along (Answers S) w steps w') :
    Preserves S w w' := by
  have hrestore : ∀ {key : Key} {running : List Step} {r : Except Fault Unit},
      Yields ((Restorer.ofConfig c.store.bucket c).run key) running r →
      ∀ {u}, Along (Answers S) w running u → Preserves S w u := fun hrun _ halong =>
    (retains_of_steps hv ((Restorer.only_run _ _).mem hrun) halong).preserves
  cases h with
  | unarchived configured archiving =>
    exact archive_preserves hv ht archiving (along_behind (still_of_ofConfig configured) hsteps)
  | archived configured archiving =>
    have hrun := along_behind (still_of_ofConfig configured) hsteps
    exact archive_preserves hv ht archiving
      (along_before (by simp [Step.line, Call.isStill]) hrun)
  | unrestored restoring => exact hrestore restoring hsteps
  | restored restoring =>
    exact hrestore restoring (along_before (by simp [Step.line, Call.isStill]) hsteps)
  | unlisted fault => exact (retains_of_steps hv (by simp [isCalm]) hsteps).preserves
  | listed keys =>
    exact (retains_of_steps hv (by simp [Step.line, isCalm]) hsteps).preserves

theorem Action.Course.preserves (hcwd : w.host.cwd.IsClean) (ht : w.host.files.IsSound)
    (h : action.Course c steps r) (hsteps : Along (Answers S) w steps w') : Preserves S w w' := by
  cases h with
  | refused =>
    obtain rfl := along_nil.mp hsteps
    exact .refl S w'
  | unopened valid source =>
    obtain ⟨u, hconnect, hend⟩ := along_cons.mp hsteps
    obtain rfl := along_nil.mp hend
    obtain rfl := connect_fails hconnect
    exact .refl S w'
  | opened valid performing =>
    obtain ⟨u, hopens, hrest⟩ := along_connected hcwd hsteps
    exact hopens.preserves.trans (performing.preserves hopens.fresh (hopens.sound ht) hrest)

/-- The directory of the bucket, if the store is one of directories. -/
def StoreHome (s : StoreConfig) (cwd base : Location) : Prop :=
  ∃ root, s.backend = .directory root ∧ base = s.place cwd root

/-- An action that succeeds has opened its store and done its part through it. -/
theorem Action.Course.performed (hcwd : w.host.cwd.IsClean) (h : action.Course c steps r)
    (hr : r = .ok ()) (hsteps : Along (Answers S) w steps w') :
    ∃ u rest, steps = connected c.store ++ rest ∧ Opens c.store w u ∧
      Along (Answers S) u rest w' ∧ action.Performs c rest r := by
  cases h with
  | refused | unopened => cases hr
  | opened valid performing =>
    obtain ⟨u, hopens, hrest⟩ := along_connected hcwd hsteps
    exact ⟨u, _, rfl, hopens, hrest, performing⟩

theorem created_of_still (h : ∀ s ∈ steps, s.call.isStill) : created steps = [] := by
  refine created_of_quiet fun s hs => ?_
  obtain ⟨call, reply⟩ := s
  cases call with
  | createStaging => exact (h _ hs).elim
  | _ => rfl

theorem archive_succeeded {a : Archiver} {key : Key} {running : List Step} {r : Except Fault Key}
    (h : Yields a.run running r) (hr : r = .ok key) : Succeeded running := by
  cases Archiver.course_of_yields h with
  | cutBeforeDump | undumped | cutBeforeUpload | unstored => cases hr
  | stored dumping uploading cleaned =>
    obtain ⟨rest, rfl, _, hsucceeded⟩ := dumping.attends_ok
    exact hsucceeded.within fun s hs => by simp [hs]

/-- An archive action that succeeds: its utility came to a good end, its last line names the key,
and the directory of the store has gained the blob of this key, if utilities leave alone what is
there. -/
structure Archived (S : Setting) (c : Config) (w : World) (steps : List Step) (w' : World) : Prop where
  succeeded : Succeeded steps
  gains : ∃ key, steps.getLast? = some (.line (stored c key)) ∧
    ∀ base, StoreHome c.store w.host.cwd base →
      (∀ l, l <+: base ∨ base <+: l → S.kept l ∨ IsOwn (created steps) w l) →
      Gains (created steps) base key w w'

theorem Action.Course.archives (hcwd : w.host.cwd.IsClean) (ht : w.host.files.IsSound)
    (hnames : ∀ l t, S.staging l → l.getLast? ≠ some (Key.mint t).text)
    (h : Action.Course c .archive steps r) (hr : r = .ok ()) (hsteps : Along (Answers S) w steps w') :
    Archived S c w steps w' := by
  obtain ⟨u, _, rfl, hopens, hrest, hperforms⟩ := h.performed hcwd hr hsteps
  cases hperforms with
  | unarchived => cases hr
  | @archived setting running a key configured archiving =>
    have hstill := still_of_ofConfig configured
    have hrun := along_before (by simp [Step.line, Call.isStill]) (along_behind hstill hrest)
    have hcreated : created (connected c.store ++ (setting ++ (running ++ [.line (stored c key)]))) =
        created running := by
      simp only [created_append, created_of_still hstill]
      exact List.append_nil _
    refine ⟨(archive_succeeded archiving rfl).within fun s hs => by simp [hs], key, by simp,
      fun base hhome hkept => ?_⟩
    rw [hcreated] at hkept ⊢
    obtain ⟨root, hroot, rfl⟩ := hhome
    have hgains := archive_gains hopens.fresh (hopens.sound ht) hnames (hopens.base root hroot)
      (by simpa only [IsOwn, hopens.cwd] using hkept) archiving hrun rfl
    refine ⟨?_, hgains.stored, fun names hne hplace hnot hown => ?_⟩
    · rw [← hopens.content, hgains.vacant]
    · rw [← hopens.content]
      exact hgains.others names hne hplace hnot (by simpa only [IsOwn, hopens.cwd] using hown)

theorem Action.Course.restores {key : Key} (hcwd : w.host.cwd.IsClean)
    (h : Action.Course c (.restore key) steps r) (hr : r = .ok ())
    (hsteps : Along (Answers S) w steps w') :
    Replayed key (StoreHome c.store w.host.cwd) w steps w' := by
  obtain ⟨u, _, rfl, hopens, hrest, hperforms⟩ := h.performed hcwd hr hsteps
  cases hperforms with
  | unrestored => cases hr
  | restored restoring =>
    have hrun := along_before (by simp [Step.line, Call.isStill]) hrest
    obtain ⟨hsucceeded, archive, hopened, hcomplete, hinput, hended, hblob⟩ :=
      restore_replays hopens.fresh restoring hrun rfl
    refine ⟨hsucceeded.within fun s hs => by simp [hs], archive, by simp [hopened], hcomplete,
      hinput, hended, fun base hhome => ?_⟩
    obtain ⟨root, hroot, rfl⟩ := hhome
    rw [← hopens.content, hblob _ (hopens.base root hroot)]

theorem Action.Course.lists (hcwd : w.host.cwd.IsClean) (ht : w.host.files.IsSound)
    (h : Action.Course c .list steps r) (hr : r = .ok ()) (hsteps : Along (Answers S) w steps w') :
    ∃ keys, printed steps = [keyLines keys] ∧
      Lists (StoreHome c.store w.host.cwd) w.host.files keys := by
  obtain ⟨u, _, rfl, hopens, hrest, hperforms⟩ := h.performed hcwd hr hsteps
  cases hperforms with
  | unlisted => cases hr
  | listed keys =>
    obtain ⟨u', hlisted, _⟩ := along_cons.mp hrest
    have hreply : (u.host.vault.list u.host.files).1 = .ok keys := by
      rcases hlisted with ⟨hreply, _⟩ | ⟨⟨_, hfault⟩, _⟩
      · exact hreply.symm
      · cases hfault
    obtain ⟨hordered, hlines, hall⟩ := hopens.fresh.lists (hopens.sound ht) hreply
    refine ⟨keys, rfl, hordered, hlines, fun base hhome k => ?_⟩
    obtain ⟨root, hroot, rfl⟩ := hhome
    simpa only [hopens.content] using hall _ (hopens.base root hroot) k

variable {i : Invocation} {code : UInt8} {reading rest : List Step}

/-- An invocation puts these settings together. -/
def Invocation.Resolves (i : Invocation) (steps : List Step) (c : Config) : Prop :=
  ∃ reading rest, steps = reading ++ rest ∧ Yields i.overrides.resolve reading (.ok c)

theorem Invocation.Resolves.unique {r : Except ResolveFault Config}
    (h : i.Resolves (reading ++ rest) c) (hresolve : Yields i.overrides.resolve reading r) :
    r = .ok c := by
  obtain ⟨reading', rest', heq, hok⟩ := h
  exact (yields_unique hresolve hok heq).2.2

theorem Invocation.Succeeds.yields (h : i.Succeeds steps) : Yields i.perform steps 0 := by
  obtain ⟨c, reading, acting, rfl, hresolve, hperform⟩ := h
  rw [perform_eq]
  refine yields_bind_iff.mpr ⟨reading, acting, .ok c, rfl, hresolve, ?_⟩
  exact yields_bind_iff.mpr ⟨acting, [], .ok (), (List.append_nil _).symm, hperform,
    yields_pure.mpr ⟨rfl, rfl⟩⟩

/-- How an invocation goes in a world: its settings cannot be put together, or its action fails or
succeeds. Reading the settings and telling of a fault change nothing. -/
inductive Invocation.Goes (S : Setting) (i : Invocation) (w : World) :
    List Step → UInt8 → World → Prop
  | unresolved {reading : List Step} {fault : ResolveFault}
      (resolving : Yields i.overrides.resolve reading (.error fault)) :
      Goes S i w (reading ++ [.line ⟨.error, fault.text⟩]) 1 w
  | unperformed {reading acting : List Step} {c : Config} {fault : Fault} {w' : World}
      (resolving : Yields i.overrides.resolve reading (.ok c))
      (acts : i.action.Course c acting (.error fault)) (along : Along (Answers S) w acting w') :
      Goes S i w (reading ++ (acting ++ [.line ⟨.error, fault.text⟩])) 1 w'
  | performed {reading acting : List Step} {c : Config} {w' : World}
      (resolving : Yields i.overrides.resolve reading (.ok c))
      (acts : i.action.Course c acting (.ok ())) (along : Along (Answers S) w acting w') :
      Goes S i w (reading ++ acting) 0 w'

theorem exists_of_resolve {r : Except ResolveFault Config} {s : Step}
    (h : Yields i.overrides.resolve reading r) (hs : s ∈ reading) :
    ∃ path content, s = ⟨.readFile path, content⟩ := by
  have hread := i.overrides.reading_resolve.mem h s hs
  obtain ⟨call, reply⟩ := s
  cases call with
  | readFile path => exact ⟨path, reply, rfl⟩
  | _ => exact hread.elim

theorem still_of_resolve {r : Except ResolveFault Config}
    (h : Yields i.overrides.resolve reading r) : ∀ s ∈ reading, s.call.isStill := by
  intro s hs
  obtain ⟨path, content, rfl⟩ := exists_of_resolve h hs
  trivial

theorem printed_of_resolve {r : Except ResolveFault Config}
    (h : Yields i.overrides.resolve reading r) : printed reading = [] := by
  refine List.filterMap_eq_nil_iff.mpr fun s hs => ?_
  obtain ⟨path, content, rfl⟩ := exists_of_resolve h hs
  rfl

theorem Invocation.goes_of_yields (h : Yields i.perform steps code)
    (hsteps : Along (Answers S) w steps w') : i.Goes S w steps code w' := by
  rcases i.ends_of_yields h with ⟨rfl, c, reading, acting, rfl, hresolve, hperform⟩ |
    ⟨rfl, before, text, causes, rfl, hfails⟩
  · exact .performed hresolve (Action.course_of_yields hperform)
      (along_behind (still_of_resolve hresolve) hsteps)
  · have hbefore := along_before (by simp [Step.line, Call.isStill]) hsteps
    cases hfails with
    | unresolved resolving =>
      obtain rfl := along_still (still_of_resolve resolving) hbefore
      exact .unresolved resolving
    | unperformed resolving performing =>
      rw [List.append_assoc]
      exact .unperformed resolving (Action.course_of_yields performing)
        (along_behind (still_of_resolve resolving) hbefore)

/-- What the exit code, the steps and the world left behind tell of an invocation. -/
structure Outcome (S : Setting) (i : Invocation) (w : World) (steps : List Step) (code : UInt8)
    (w' : World) : Prop where
  /-- The code is 0 exactly if the settings were put together and the action was performed. -/
  succeeds : code = 0 ↔ i.Succeeds steps
  /-- Else the last line, which no setting of the log but `off` hides, is the only one at the level
  of errors, and it ends with the text of the innermost cause. -/
  fails : code ≠ 0 → code = 1 ∧ ∃ before text causes, steps = before ++ [.line ⟨.error, text⟩] ∧
    i.Fails before text causes ∧ Quiet before ∧ TellsCause text causes ∧
    ∀ setting : Log.Setting, setting ≠ .off → ∃ shown,
      setting.shown (logged steps) = shown ++ [⟨.error, text⟩] ∧ ∀ line ∈ shown, line.level ≠ .error
  /-- Settings that do not pass the checks let nothing happen. -/
  refused : ∀ c fault, i.Resolves steps c → i.action.check c = .error fault → code = 1 ∧ w' = w ∧
    ∃ reading, steps = reading ++ [.line ⟨.error, fault.text⟩] ∧ ∀ s ∈ reading, s.call.isReading
  archived : i.action = .archive → code = 0 → ∃ c, i.Resolves steps c ∧ Archived S c w steps w'
  restored : ∀ key, i.action = .restore key → code = 0 → ∃ c, i.Resolves steps c ∧
    Replayed key (StoreHome c.store w.host.cwd) w steps w'
  listed : i.action = .list → code = 0 → ∃ c keys, i.Resolves steps c ∧
    printed steps = [keyLines keys] ∧ Lists (StoreHome c.store w.host.cwd) w.host.files keys
  preserves : Preserves S w w'

namespace Invocation.Goes

theorem refused {fault : Fault} (h : i.Goes S w steps code w') (hresolves : i.Resolves steps c)
    (hcheck : i.action.check c = .error fault) : code = 1 ∧ w' = w ∧
      ∃ reading, steps = reading ++ [.line ⟨.error, fault.text⟩] ∧ ∀ s ∈ reading, s.call.isReading := by
  cases h with
  | unresolved resolving => cases hresolves.unique resolving
  | performed resolving acts along =>
    obtain rfl := Except.ok.inj (hresolves.unique resolving)
    cases acts with
    | opened valid performing => cases valid.symm.trans hcheck
  | unperformed resolving acts along =>
    obtain rfl := Except.ok.inj (hresolves.unique resolving)
    cases acts with
    | refused invalid =>
      obtain rfl := Except.error.inj (invalid.symm.trans hcheck)
      exact ⟨rfl, along_nil.mp along, _, rfl, i.overrides.reading_resolve.mem resolving⟩
    | unopened valid source => cases valid.symm.trans hcheck
    | opened valid performing => cases valid.symm.trans hcheck

theorem preserves (hcwd : w.host.cwd.IsClean) (ht : w.host.files.IsSound)
    (h : i.Goes S w steps code w') : Preserves S w w' := by
  cases h with
  | unresolved => exact .refl S w
  | unperformed resolving acts along => exact acts.preserves hcwd ht along
  | performed resolving acts along => exact acts.preserves hcwd ht along

theorem performed_of_zero (h : i.Goes S w steps code w') (hcode : code = 0) :
    ∃ c reading acting, steps = reading ++ acting ∧ Yields i.overrides.resolve reading (.ok c) ∧
      i.action.Course c acting (.ok ()) ∧ Along (Answers S) w acting w' := by
  cases h with
  | unresolved | unperformed => cases hcode
  | performed resolving acts along => exact ⟨_, _, _, rfl, resolving, acts, along⟩

end Invocation.Goes

/-- Every invocation comes to an outcome in which code, lines and stored files agree. -/
theorem Invocation.outcome_of_yields (hcwd : w.host.cwd.IsClean) (ht : w.host.files.IsSound)
    (hnames : ∀ l t, S.staging l → l.getLast? ≠ some (Key.mint t).text)
    (h : Yields i.perform steps code) (hsteps : Along (Answers S) w steps w') :
    Outcome S i w steps code w' := by
  have hgoes := i.goes_of_yields h hsteps
  refine ⟨⟨fun hcode => ?_, fun hsucceeds => ?_⟩, fun hcode => ?_,
    fun c fault hresolves hcheck => hgoes.refused hresolves hcheck, fun haction hcode => ?_,
    fun key haction hcode => ?_, fun haction hcode => ?_, hgoes.preserves hcwd ht⟩
  · rcases i.ends_of_yields h with ⟨_, hsucceeds⟩ | ⟨hone, _⟩
    · exact hsucceeds
    · rw [hone] at hcode
      cases hcode
  · have hsame : steps ++ [] = steps ++ [] := rfl
    exact (yields_unique h hsucceeds.yields hsame).2.2
  · rcases i.ends_of_yields h with ⟨hzero, _⟩ | ⟨hone, before, text, causes, rfl, hfails⟩
    · exact absurd hzero hcode
    · obtain ⟨hquiet, htells⟩ := hfails.tells
      exact ⟨hone, before, text, causes, rfl, hfails, hquiet, htells,
        fun setting hsetting => shown_error hsetting hquiet text⟩
  · obtain ⟨c, reading, acting, rfl, hresolve, hcourse, halong⟩ := hgoes.performed_of_zero hcode
    rw [haction] at hcourse
    obtain ⟨hsucceeded, key, hlast, hgains⟩ := hcourse.archives hcwd ht hnames rfl halong
    refine ⟨c, ⟨reading, acting, rfl, hresolve⟩, hsucceeded.within (by simp), key, ?_, ?_⟩
    · rw [List.getLast?_append, hlast, Option.some_or]
    · rwa [created_append, created_of_still (still_of_resolve hresolve)]
  · obtain ⟨c, reading, acting, rfl, hresolve, hcourse, halong⟩ := hgoes.performed_of_zero hcode
    rw [haction] at hcourse
    obtain ⟨hsucceeded, archive, hopened, hfed⟩ := hcourse.restores hcwd rfl halong
    exact ⟨c, ⟨reading, acting, rfl, hresolve⟩, hsucceeded.within (by simp), archive,
      List.mem_append_right _ hopened, hfed⟩
  · obtain ⟨c, reading, acting, rfl, hresolve, hcourse, halong⟩ := hgoes.performed_of_zero hcode
    rw [haction] at hcourse
    obtain ⟨keys, hprinted, hlists⟩ := hcourse.lists hcwd ht rfl halong
    refine ⟨c, keys, ⟨reading, acting, rfl, hresolve⟩, ?_, hlists⟩
    rw [printed_append, printed_of_resolve hresolve, hprinted, List.nil_append]

/-- A command line that asks for neither help nor version is refused before anything happens, or
comes to the outcome of its invocation. -/
theorem outcome_of_run {args : List String} (hhelp : parse args ≠ .error .displayHelp)
    (hversion : parse args ≠ .error .displayVersion) (hcwd : w.host.cwd.IsClean)
    (ht : w.host.files.IsSound) (hnames : ∀ l t, S.staging l → l.getLast? ≠ some (Key.mint t).text)
    (h : Yields (CommandLine.run args) steps code) (hsteps : Along (Answers S) w steps w') :
    (∃ usage, parse args = .error usage ∧ code = 2 ∧ steps = [] ∧ w' = w) ∨
      ∃ i, parse args = .ok i ∧ Outcome S i w steps code w' := by
  rw [CommandLine.run] at h
  cases hparse : parse args with
  | ok i =>
    rw [hparse] at h
    exact .inr ⟨i, rfl, i.outcome_of_yields hcwd ht hnames h hsteps⟩
  | error usage =>
    rw [hparse] at h
    cases usage with
    | displayHelp => exact absurd hparse hhelp
    | displayVersion => exact absurd hparse hversion
    | _ =>
      obtain ⟨rfl, rfl⟩ := yields_pure.mp h
      exact .inl ⟨_, rfl, rfl, rfl, along_nil.mp hsteps⟩

theorem getLast?_mint (t : Calendar.Instant) : (Key.mint t).text.toList.getLast? = some 'Z' := by
  simp only [Key.text_mint, Calendar.Instant.stamp, Calendar.Instant.stampChars, String.toList_ofList,
    List.getLast?_append, List.getLast?_singleton, Option.some_or]

def archiving : List String :=
  ["archive", "--host", "db1", "--database", "app", "--bucket", "archives", "--local-store", "/store"]

def bare : World := ⟨{ files := .empty, cwd := [], environment := .empty }, {}⟩

/-- An archive into a bucket that is not there yet, whose utility writes `DUMP`. -/
theorem outcome_of_archiving :
    let ended := (CommandLine.run archiving).run (rehearse ⟨#[68, 85, 77, 80]⟩) bare
    ended.1 = 0 ∧
      ended.2.host.files.content? ["store", "archives", "1970-01-01T00:00:00Z"] =
        some ⟨#[68, 85, 77, 80]⟩ ∧
      ∃ i, parse archiving = .ok i ∧ Outcome aside i bare
        ((CommandLine.run archiving).course (rehearse ⟨#[68, 85, 77, 80]⟩) bare) ended.1 ended.2 := by
  intro ended
  refine ⟨by decide +kernel, by decide +kernel, ?_⟩
  have hempty : ∀ l content, bare.host.files.content? l ≠ some content := by
    intro l content hfile
    have he := FileTree.content?_eq_some_iff.mp hfile
    cases l <;> cases he
  have hstaged : ∀ l t, aside.staging l → l.getLast? ≠ some (Key.mint t).text := by
    rintro l t rfl hname
    have hlast := getLast?_mint t
    rw [← Option.some.inj hname] at hlast
    exact absurd hlast (by decide)
  have houtcome := outcome_of_run (S := aside) (w := bare) (by decide)
    (by decide) (fun _ hs => absurd hs List.not_mem_nil)
    ⟨List.nodup_nil, fun l content h => absurd h (hempty l content),
      fun l content h => absurd h (hempty l content)⟩ hstaged
    (yields_course (rehearse ⟨#[68, 85, 77, 80]⟩) (CommandLine.run archiving) bare)
    (along_course _ (rehearse_answers _) _ bare)
  rcases houtcome with ⟨usage, hparse, _⟩ | houtcome
  · cases hparse
  · exact houtcome

/-- A configuration whose dump utility removes a blob. -/
def sweeping : String :=
  "dump: \x7bprogram: sh, prefix_args: [-c, rm /store/archives/spring]\x7d"

def sweepable : Host := { shelf with files := shelf.files.put ["sweep"] (.file sweeping.toUTF8) }

/-- An archive whose staging file is made in the bucket's directory, and kept there. -/
def strewn : Seen Host :=
  seen Host.answer (CommandLine.run (archiving ++
    ["--dump-program", "true", "--staging-dir", "/store/archives", "--retain-staging"])) shelf

/-- An archive whose utility removes another blob. -/
def swept : Seen Host :=
  seen Host.answer (CommandLine.run (archiving ++ ["--config", "/sweep", "--staging-dir", "/"]))
    sweepable

/-- A listing of a bucket without a name. -/
def unnamed : Seen Host := seen Host.answer (CommandLine.run ["list"]) shelf

/-- What does not hold of all outcomes: that an archive adds one file to the bucket, that every blob
stays, and that a failure is always shown. -/
theorem outcome_exceptions :
    (strewn.code = 0 ∧ (shelf.files.filesBelow ["store", "archives"]).map (·.1) = [["spring"]] ∧
      (strewn.left.files.filesBelow ["store", "archives"]).map (·.1) =
        [["1970-01-01T00:00:00Z"], ["archivist-aaaaaa.dump"], ["spring"]]) ∧
    (swept.code = 0 ∧ sweepable.files.content? ["store", "archives", "spring"] = some ⟨#[120]⟩ ∧
      swept.left.files.content? ["store", "archives", "spring"] = none) ∧
    unnamed.code = 1 ∧ (Log.Setting.read (some "off")).shown unnamed.lines = [] := by
  decide +kernel

end CommandLine

end DumpVault
