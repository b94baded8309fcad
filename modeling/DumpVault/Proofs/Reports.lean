import DumpVault.Proofs.Consulted
import DumpVault.Proofs.Sources

/-!
# What a command line reports

A command line ends well, or with one line at the level of errors and nothing behind it; up to then
no line is at that level. The text of that line ends with the text of the innermost cause of the
fault, whatever has been put in front of it on the way out.
-/
namespace DumpVault
open Prog

/-- The last of the causes of a fault, or the fault itself if it has none. -/
def innermost (text : String) (causes : List String) : String := causes.getLast?.getD text

/-- A text ends with that of the innermost cause. -/
def TellsCause (text : String) (causes : List String) : Prop :=
  (innermost text causes).toList <:+ text.toList

theorem Nests.tellsCause {text : String} {causes : List String}
    (h : Nests (text :: causes)) : TellsCause text causes := by
  rw [TellsCause, innermost]
  cases hlast : causes.getLast? with
  | none => exact List.suffix_refl _
  | some cause => exact h.endsWith cause (List.mem_of_getLast? hlast)

theorem ResolveFault.nests (f : ResolveFault) : Nests [f.text, f.cause] :=
  (nests_singleton _).behind _

namespace Prog

variable {α : Type} {steps more : List Step}

/-- A run makes the calls that it makes by their replies: a course has one beginning that ends it. -/
theorem yields_unique {p : Prog α} {s s' t t' : List Step} {a a' : α} (h : Yields p s a)
    (h' : Yields p s' a') (heq : s ++ t = s' ++ t') : s = s' ∧ t = t' ∧ a = a' := by
  induction h generalizing s' with
  | pure a =>
    cases h'
    exact ⟨rfl, heq, rfl⟩
  | @call c next r steps a _ ih =>
    obtain ⟨r', rest, rfl, hrest⟩ := yields_call.mp h'
    obtain ⟨hstep, htail⟩ := List.cons.inj heq
    cases hstep
    obtain ⟨rfl, rfl, rfl⟩ := ih hrest htail
    exact ⟨rfl, rfl, rfl⟩

/-- Behind a course of its first part, a run goes on as the rest does. -/
theorem yields_bind_append {β : Type} {p : Prog α} {f : α → Prog β} {a : α} {b : β}
    (h : Yields p steps a) : Yields (p >>= f) (steps ++ more) b ↔ Yields (f a) more b := by
  constructor
  · intro hbind
    obtain ⟨s, t, a', hsplit, hp, hrest⟩ := yields_bind_iff.mp hbind
    obtain ⟨rfl, rfl, rfl⟩ := yields_unique h hp hsplit
    exact hrest
  · exact yields_bind h

/-- No line is at the level of errors. -/
def Quiet (steps : List Step) : Prop := ∀ line ∈ logged steps, line.level ≠ .error

@[simp] theorem quiet_nil : Quiet [] := by simp [Quiet]

@[simp] theorem quiet_append : Quiet (steps ++ more) ↔ Quiet steps ∧ Quiet more := by
  simp only [Quiet, logged_append, List.mem_append, or_imp, forall_and]

@[simp] theorem quiet_line {line : Line} :
    Quiet (.line line :: steps) ↔ line.level ≠ .error ∧ Quiet steps := by
  simp only [Quiet, logged_line, List.forall_mem_cons]

theorem quiet_step {s : Step} (hs : s.line? = none) : Quiet (s :: steps) ↔ Quiet steps := by
  rw [Quiet, logged_cons, hs]
  rfl

theorem Says.quiet {openings : Openings} (h : Says openings steps)
    (hlevels : ∀ o ∈ openings, o.1 ≠ .error) : Quiet steps := by
  intro line hline
  obtain ⟨o, ho, hlevel, _⟩ := h line hline
  exact hlevel ▸ hlevels o ho

theorem quiet_of_reading (h : ∀ s ∈ steps, s.call.isReading) : Quiet steps := by
  intro line hline
  exact (h _ (mem_logged.mp hline)).elim

end Prog

theorem Archiver.quiet_of_yields {a : Archiver} {steps : List Step} {r : Except Fault Key}
    (h : Yields a.run steps r) : Quiet steps := by
  have hdump : ∀ {dump : List Step} {dumped : Except Fault String}, a.dump.Course dump dumped →
      Quiet dump := fun h => h.spoken.quiet (by decide)
  have hupload : ∀ {path : String} {copying : List Step} {uploaded : Except Fault Key},
      Yields (upload a.bucket path) copying uploaded → Quiet copying :=
    fun h => (says_of_only (writes_upload _ _) h).quiet (by decide)
  have hpassage : ∀ old new, (passage old new).level ≠ .error := fun _ _ => Level.noConfusion
  have hentering : ∀ {cancelled : Bool} {steps : List Step},
      Quiet (⟨.isCancelled, cancelled⟩ :: steps) ↔ Quiet steps := quiet_step rfl
  cases course_of_yields h with
  | cutBeforeDump => simp [hentering, hpassage]
  | undumped dumping | cutBeforeUpload dumping =>
    simp [toDump, hentering, hpassage, hdump dumping]
  | unstored dumping uploading =>
    simp [toDump, toUpload, hentering, hpassage, hdump dumping, hupload uploading]
  | stored dumping uploading cleaned =>
    simp [toDump, toUpload, hentering, hpassage, hdump dumping, hupload uploading,
      cleaned.spoken.quiet (by decide)]

theorem Restorer.quiet_of_yields {r : Restorer} {key : Key} {steps : List Step}
    {result : Except Fault Unit} (h : Yields (r.run key) steps result) : Quiet steps := by
  have hpassage : ∀ old new, (passage old new).level ≠ .error := fun _ _ => Level.noConfusion
  have hlast : ∀ result, (lastLine .restoring result).level ≠ .error := by
    rintro (_ | _) <;> exact hpassage _ _
  have hentering : ∀ {cancelled : Bool} {steps : List Step},
      Quiet (⟨.isCancelled, cancelled⟩ :: steps) ↔ Quiet steps := quiet_step rfl
  have hpause : ∀ {cancelled : Bool} {steps : List Step},
      Quiet (⟨.pause, cancelled⟩ :: steps) ↔ Quiet steps := quiet_step rfl
  have hopening : ∀ {reply : Except Fault Source} {steps : List Step},
      Quiet (⟨.openReader key, reply⟩ :: steps) ↔ Quiet steps := quiet_step rfl
  cases course_of_yields h with
  | cutBeforeFetch | cutInFetch | unfetched | cutBeforeRestore =>
    simp [toFetch, hentering, hpause, hopening, hpassage]
  | applied archive yields =>
    simp [toFetch, toRestore, hentering, hpause, hopening, hpassage, hlast,
      (Restore.course_of_yields yields).spoken.quiet (by decide)]

theorem Archiver.ofConfig_course {bucket : String} {c : Config} {steps : List Step} {a : Archiver}
    (h : Yields (Archiver.ofConfig bucket c) steps a) :
    a.bucket = bucket ∧ (steps = [] ∨ ∃ dir, steps = [⟨.temporaryDir, dir⟩]) := by
  obtain ⟨s, t, dump, rfl, hdump, hend⟩ := yields_bind_iff.mp h
  obtain ⟨rfl, rfl⟩ := yields_pure.mp hend
  refine ⟨rfl, ?_⟩
  rw [Dump.ofConfig] at hdump
  split at hdump
  · obtain ⟨rfl, _⟩ := yields_pure.mp hdump
    exact .inl rfl
  · obtain ⟨dir, rest, rfl, hend⟩ := yields_ask_bind.mp hdump
    obtain ⟨rfl, _⟩ := yields_pure.mp hend
    exact .inr ⟨dir, rfl⟩

namespace CommandLine

variable {c : Config} {action : Action} {steps : List Step}

/-- What an action demands of the settings. -/
def Action.check (c : Config) : Action → Except Fault Unit
  | archive | restore _ => c.validate
  | list => c.store.validate

/-- The stage that opens the store. -/
def Action.opening : Action → Stage
  | archive => .upload
  | restore _ | list => .fetch

/-- The steps by which a store is opened. -/
def connected (c : StoreConfig) : List Step := [⟨.connect c, .ok ()⟩, .line (ready c)]

def stored (c : Config) (key : Key) : Line :=
  ⟨.info, s!"archive stored as {key.text} in {c.store.bucket}"⟩

def restored (c : Config) (key : Key) : Line :=
  ⟨.info, s!"restored {key.text} into {c.database.name}"⟩

/-- The texts of keys, one on each line. -/
def keyLines (keys : List Key) : String := String.join (keys.map fun key => key.text ++ "\n")

/-- The courses of an action whose store has been opened, with the line that says what has come of
it. -/
inductive Action.Performs (c : Config) : Action → List Step → Except Fault Unit → Prop
  | unarchived {setting running : List Step} {a : Archiver} {fault : Fault}
      (configured : Yields (Archiver.ofConfig c.store.bucket c) setting a)
      (archiving : Yields a.run running (.error fault)) :
      Performs c .archive (setting ++ running) (.error fault)
  | archived {setting running : List Step} {a : Archiver} {key : Key}
      (configured : Yields (Archiver.ofConfig c.store.bucket c) setting a)
      (archiving : Yields a.run running (.ok key)) :
      Performs c .archive (setting ++ (running ++ [.line (stored c key)])) (.ok ())
  | unrestored {key : Key} {running : List Step} {fault : Fault}
      (restoring : Yields ((Restorer.ofConfig c.store.bucket c).run key) running (.error fault)) :
      Performs c (.restore key) running (.error fault)
  | restored {key : Key} {running : List Step}
      (restoring : Yields ((Restorer.ofConfig c.store.bucket c).run key) running (.ok ())) :
      Performs c (.restore key) (running ++ [.line (restored c key)]) (.ok ())
  | unlisted (fault : Fault) :
      Performs c .list [⟨.list, .error fault⟩] (.error (fault.inStage .fetch))
  | listed (keys : List Key) :
      Performs c .list [⟨.list, .ok keys⟩, .line ⟨.debug, s!"{keys.length} archives available"⟩,
        ⟨.print (keyLines keys), ()⟩] (.ok ())

/-- The courses of an action: its settings are refused, its store cannot be opened, or it is
performed. -/
inductive Action.Course (c : Config) (action : Action) : List Step → Except Fault Unit → Prop
  | refused {fault : Fault} (invalid : action.check c = .error fault) :
      Course c action [] (.error fault)
  | unopened (valid : action.check c = .ok ()) (source : BlobFault) :
      Course c action [⟨.connect c.store, .error source⟩]
        (.error ((Fault.clientInit c.store.bucket source).inStage action.opening))
  | opened {rest : List Step} {r : Except Fault Unit} (valid : action.check c = .ok ())
      (performing : action.Performs c rest r) : Course c action (connected c.store ++ rest) r

/-- What comes first in every action: the settings are checked and the store is opened. -/
def opening {α : Type} (check : Except Fault Unit) (stage : Stage) (s : StoreConfig)
    (next : Prog (Except Fault α)) : Prog (Except Fault α) := do
  match check with
  | .error fault => return .error fault
  | .ok _ =>
    match tagged stage (← connectStore s) with
    | .error fault => return .error fault
    | .ok _ => next

theorem opening_course {α : Type} {next : Prog (Except Fault α)} {opened : Except Fault α}
    (h : Yields (opening (action.check c) action.opening c.store next) steps opened) :
    (∃ fault, opened = .error fault ∧ action.Course c steps (.error fault)) ∨
      (action.check c = .ok () ∧ ∃ rest, steps = connected c.store ++ rest ∧
        Yields next rest opened) := by
  cases hcheck : action.check c with
  | error fault =>
    rw [hcheck] at h
    obtain ⟨rfl, rfl⟩ := yields_pure.mp h
    exact .inl ⟨fault, rfl, .refused hcheck⟩
  | ok =>
    rw [hcheck] at h
    obtain ⟨t, u, linked, rfl, hconnect, hnext⟩ := yields_bind_iff.mp h
    rcases connectStore_course hconnect with ⟨source, rfl, rfl⟩ | ⟨rfl, rfl⟩
    · obtain ⟨rfl, rfl⟩ := yields_pure.mp hnext
      exact .inl ⟨_, rfl, .unopened hcheck source⟩
    · exact .inr ⟨rfl, u, rfl, hnext⟩

theorem course_of_archive {r : Except Fault Unit} (h : Yields (archiveAll c) steps r) :
    Action.Course c .archive steps r := by
  obtain ⟨s, t, opened, rfl, hopen, hrun⟩ := yields_bind_iff.mp h
  have hopen : Yields (opening (Action.check c .archive) (Action.opening .archive) c.store
    (.ok <$> Archiver.ofConfig c.store.bucket c)) s opened := hopen
  rcases opening_course hopen with ⟨fault, rfl, hcourse⟩ | ⟨hvalid, rest, rfl, hsetting⟩
  · obtain ⟨rfl, rfl⟩ := yields_pure.mp hrun
    rwa [List.append_nil]
  · obtain ⟨setting, u, a, rfl, hconfigured, hmade⟩ := yields_bind_iff.mp hsetting
    obtain ⟨rfl, rfl⟩ := yields_pure.mp hmade
    obtain ⟨running, rest, result, rfl, harchive, hend⟩ := yields_bind_iff.mp hrun
    rw [List.append_nil, List.append_assoc]
    cases result with
    | error fault =>
      obtain ⟨rfl, rfl⟩ := yields_pure.mp hend
      rw [List.append_nil]
      exact .opened hvalid (.unarchived hconfigured harchive)
    | ok key =>
      obtain ⟨rest, rfl, hsaid⟩ := yields_log_bind.mp hend
      obtain ⟨rfl, rfl⟩ := yields_pure.mp hsaid
      exact .opened hvalid (.archived hconfigured harchive)

theorem course_of_restore {key : Key} {r : Except Fault Unit}
    (h : Yields (restoreKey c key) steps r) : Action.Course c (.restore key) steps r := by
  obtain ⟨s, t, opened, rfl, hopen, hrun⟩ := yields_bind_iff.mp h
  have hopen : Yields (opening (Action.check c (.restore key)) (Action.opening (.restore key))
    c.store (Pure.pure (.ok (Restorer.ofConfig c.store.bucket c)))) s opened := hopen
  rcases opening_course hopen with ⟨fault, rfl, hcourse⟩ | ⟨hvalid, rest, rfl, hmade⟩
  · obtain ⟨rfl, rfl⟩ := yields_pure.mp hrun
    rwa [List.append_nil]
  · obtain ⟨rfl, rfl⟩ := yields_pure.mp hmade
    obtain ⟨running, rest, result, rfl, hrestore, hend⟩ := yields_bind_iff.mp hrun
    rw [List.append_nil]
    cases result with
    | error fault =>
      obtain ⟨rfl, rfl⟩ := yields_pure.mp hend
      rw [List.append_nil]
      exact .opened hvalid (.unrestored hrestore)
    | ok =>
      obtain ⟨rest, rfl, hsaid⟩ := yields_log_bind.mp hend
      obtain ⟨rfl, rfl⟩ := yields_pure.mp hsaid
      exact .opened hvalid (.restored hrestore)

theorem course_of_list {r : Except Fault Unit} (h : Yields (printKeys c) steps r) :
    Action.Course c .list steps r := by
  obtain ⟨s, t, listed, rfl, hlist, hprint⟩ := yields_bind_iff.mp h
  have hlist : Yields (opening (Action.check c .list) (Action.opening .list) c.store
    Restorer.available) s listed := hlist
  rcases opening_course hlist with ⟨fault, rfl, hcourse⟩ | ⟨hvalid, rest, rfl, havailable⟩
  · obtain ⟨rfl, rfl⟩ := yields_pure.mp hprint
    rwa [List.append_nil]
  · obtain ⟨keys, rest, rfl, htagged⟩ := yields_ask_bind.mp havailable
    obtain ⟨rfl, rfl⟩ := yields_pure.mp htagged
    rw [List.append_assoc]
    cases keys with
    | error fault =>
      obtain ⟨rfl, rfl⟩ := yields_pure.mp hprint
      exact .opened hvalid (.unlisted fault)
    | ok keys =>
      obtain ⟨rest, rfl, hshow⟩ := yields_log_bind.mp hprint
      obtain ⟨_, rest, rfl, hend⟩ := yields_ask_bind.mp hshow
      obtain ⟨rfl, rfl⟩ := yields_pure.mp hend
      exact .opened hvalid (.listed keys)

/-- Every course of an action is one of those listed. -/
theorem Action.course_of_yields {r : Except Fault Unit} (h : Yields (action.perform c) steps r) :
    action.Course c steps r := by
  cases action with
  | archive => exact course_of_archive h
  | restore key => exact course_of_restore h
  | list => exact course_of_list h

theorem Action.Performs.quiet {r : Except Fault Unit} (h : Action.Performs c action steps r) :
    Quiet steps := by
  have hsetting : ∀ {setting : List Step} {a : Archiver},
      Yields (Archiver.ofConfig c.store.bucket c) setting a → Quiet setting := by
    intro setting a h
    rcases (Archiver.ofConfig_course h).2 with rfl | ⟨dir, rfl⟩
    · exact quiet_nil
    · exact (quiet_step rfl).mpr quiet_nil
  cases h with
  | unarchived configured archiving =>
    exact quiet_append.mpr ⟨hsetting configured, Archiver.quiet_of_yields archiving⟩
  | archived configured archiving =>
    exact quiet_append.mpr ⟨hsetting configured, quiet_append.mpr
      ⟨Archiver.quiet_of_yields archiving, quiet_line.mpr ⟨Level.noConfusion, quiet_nil⟩⟩⟩
  | unrestored restoring => exact Restorer.quiet_of_yields restoring
  | restored restoring =>
    exact quiet_append.mpr ⟨Restorer.quiet_of_yields restoring,
      quiet_line.mpr ⟨Level.noConfusion, quiet_nil⟩⟩
  | unlisted fault => exact (quiet_step rfl).mpr quiet_nil
  | listed keys =>
    exact (quiet_step rfl).mpr (quiet_line.mpr ⟨Level.noConfusion, (quiet_step rfl).mpr quiet_nil⟩)

/-- What an action says before its end is no error. -/
theorem Action.Course.quiet {r : Except Fault Unit} (h : Action.Course c action steps r) :
    Quiet steps := by
  cases h with
  | refused => exact quiet_nil
  | unopened valid source => exact (quiet_step rfl).mpr quiet_nil
  | opened valid performing =>
    refine quiet_append.mpr ⟨?_, performing.quiet⟩
    exact (quiet_step rfl).mpr (quiet_line.mpr ⟨Level.noConfusion, quiet_nil⟩)

/-- A run of which something has failed, the line about it apart: what is said of the fault, and its
causes. -/
inductive Invocation.Fails (i : Invocation) : List Step → String → List String → Prop
  | unresolved {reading : List Step} {fault : ResolveFault}
      (resolving : Yields i.overrides.resolve reading (.error fault)) :
      Fails i reading fault.text [fault.cause]
  | unperformed {reading acting : List Step} {c : Config} {fault : Fault}
      (resolving : Yields i.overrides.resolve reading (.ok c))
      (performing : Yields (i.action.perform c) acting (.error fault)) :
      Fails i (reading ++ acting) fault.text fault.causes

/-- A run in which the settings have been put together and the action has been performed. -/
def Invocation.Succeeds (i : Invocation) (steps : List Step) : Prop :=
  ∃ c reading acting, steps = reading ++ acting ∧ Yields i.overrides.resolve reading (.ok c) ∧
    Yields (i.action.perform c) acting (.ok ())

variable {i : Invocation} {code : UInt8}

theorem quiet_of_resolve {r : Except ResolveFault Config}
    (h : Yields i.overrides.resolve steps r) : Quiet steps :=
  quiet_of_reading (i.overrides.reading_resolve.mem h)

/-- Up to the line about its fault, a run that fails says nothing at the level of errors, and this
line ends with the text of the innermost cause. -/
theorem Invocation.Fails.tells {text : String} {causes : List String}
    (h : i.Fails steps text causes) : Quiet steps ∧ TellsCause text causes := by
  cases h with
  | unresolved resolving => exact ⟨quiet_of_resolve resolving, (ResolveFault.nests _).tellsCause⟩
  | unperformed resolving performing =>
    have hquiet := (Action.course_of_yields performing).quiet
    exact ⟨quiet_append.mpr ⟨quiet_of_resolve resolving, hquiet⟩, (Fault.nests _).tellsCause⟩

/-- An invocation ends with 0 when all has gone well, and else with 1 and a line about its fault. -/
theorem Invocation.ends_of_yields (h : Yields i.perform steps code) :
    (code = 0 ∧ i.Succeeds steps) ∨ (code = 1 ∧ ∃ before text causes,
      steps = before ++ [.line ⟨.error, text⟩] ∧ i.Fails before text causes) := by
  rw [perform_eq] at h
  obtain ⟨reading, rest, resolved, rfl, hresolve, hperform⟩ := yields_bind_iff.mp h
  cases resolved with
  | error fault =>
    obtain ⟨rest, rfl, hend⟩ := yields_log_bind.mp hperform
    obtain ⟨rfl, rfl⟩ := yields_pure.mp hend
    exact .inr ⟨rfl, _, _, _, rfl, .unresolved hresolve⟩
  | ok c =>
    obtain ⟨acting, rest, result, rfl, hact, hreport⟩ := yields_bind_iff.mp hperform
    cases result with
    | error fault =>
      obtain ⟨rest, rfl, hend⟩ := yields_log_bind.mp hreport
      obtain ⟨rfl, rfl⟩ := yields_pure.mp hend
      exact .inr ⟨rfl, _, _, _, (List.append_assoc _ _ _).symm, .unperformed hresolve hact⟩
    | ok =>
      obtain ⟨rfl, rfl⟩ := yields_pure.mp hreport
      exact .inl ⟨rfl, c, reading, acting, by rw [List.append_nil], hresolve, hact⟩

/-- Unless the log is switched off, a line at the level of errors is shown. -/
theorem shown_error {setting : Log.Setting} (hsetting : setting ≠ .off) {steps : List Step}
    (hquiet : Quiet steps) (text : String) :
    ∃ shown, setting.shown (logged (steps ++ [.line ⟨.error, text⟩])) = shown ++ [⟨.error, text⟩] ∧
      ∀ line ∈ shown, line.level ≠ .error := by
  have hfilter : ∀ bound : Level, ∃ shown,
      (logged (steps ++ [.line ⟨.error, text⟩])).filter (fun line => bound.rank ≤ line.level.rank) =
        shown ++ [⟨.error, text⟩] ∧ ∀ line ∈ shown, line.level ≠ .error := by
    intro bound
    refine ⟨(logged steps).filter fun line => bound.rank ≤ line.level.rank, ?_, fun line hline =>
      hquiet line (List.mem_filter.mp hline).1⟩
    have hrank : bound.rank ≤ Level.error.rank := by cases bound <;> decide
    rw [logged_append, logged_line, logged_nil, List.filter_append, List.filter_cons_of_pos (by simpa)]
    rfl
  cases setting with
  | off => exact absurd rfl hsetting
  | least level => exact hfilter level
  | unknown => exact hfilter .info

/-- After an action that has failed, the one thing left to do is to log the text of its fault. -/
theorem Invocation.reports_fault {c : Config} {reading acting : List Step} {fault : Fault}
    (resolving : Yields i.overrides.resolve reading (.ok c))
    (performing : Yields (i.action.perform c) acting (.error fault)) :
    Yields i.perform (reading ++ acting ++ steps) code ↔
      steps = [.line ⟨.error, fault.text⟩] ∧ code = 1 := by
  rw [perform_eq, List.append_assoc, yields_bind_append resolving]
  refine (yields_bind_append performing).trans ?_
  constructor
  · intro h
    obtain ⟨rest, rfl, hend⟩ := yields_log_bind.mp h
    obtain ⟨rfl, rfl⟩ := yields_pure.mp hend
    exact ⟨rfl, rfl⟩
  · rintro ⟨rfl, rfl⟩
    exact yields_log_bind.mpr ⟨[], rfl, yields_pure.mpr ⟨rfl, rfl⟩⟩

end CommandLine

open CommandLine

/-- Every fault is a leaf behind tags, which is its root and is followed from it through the tags;
its stage is the outermost tag. Along the sources of a fault each text ends with the next, so its
own text, which is the line that a failed command line logs, ends with all of them. -/
theorem reported_fault_tells_sources (f : Fault) :
    (∃ leaf tags, Fault.IsLeaf leaf ∧ f = leaf.inStages tags) ∧
    (∀ leaf tags, Fault.IsLeaf leaf → f = leaf.inStages tags →
      f.root = leaf ∧ f.stage? = tags.getLast? ∧
      (f.isCancelled = true ↔ ∃ during, leaf = .cancelled during) ∧
      ∃ passed, f.text :: f.causes = passed ++ leaf.text :: leaf.causes ∧
        passed.length = tags.length) ∧
    Nests (f.text :: f.causes) ∧
    (∀ cause ∈ f.causes, EndsWith f.text cause) ∧
    ∀ (i : Invocation) (c : Config) (reading acting : List Step),
      Yields i.overrides.resolve reading (.ok c) →
      Yields (i.action.perform c) acting (.error f) →
      ∀ steps code, Yields i.perform (reading ++ acting ++ steps) code ↔
        steps = [.line ⟨.error, f.text⟩] ∧ code = 1 := by
  refine ⟨f.exists_inStages, ?_, f.nests, f.nests.endsWith, ?_⟩
  · rintro leaf tags hleaf rfl
    have hroot : (leaf.inStages tags).root = leaf := by
      rw [Fault.root_inStages, hleaf.root_eq]
    refine ⟨hroot, Fault.stage?_inStages hleaf tags, ?_, leaf.causes_inStages tags⟩
    rw [Fault.isCancelled_congr (hroot.trans hleaf.root_eq.symm)]
    exact hleaf.isCancelled_iff
  · exact fun i c reading acting resolving performing steps code =>
      i.reports_fault resolving performing

/-- Answers of a place at which no store can be opened. -/
def unconnected (source : BlobFault) : Handler Unit := fun c s =>
  match c with
  | .connect _ => (.error source, s)
  | c => obliging false c s

def localListing : Invocation := ⟨.list, { bucket := "archives", localStore := "/store" }⟩

def denial : BlobFault :=
  .generic "LocalFileSystem"
    (.behind "Unable to create dir /store: " "Permission denied (os error 13)")

/-- The line about a store that cannot be opened tells five texts, each the end of the one before. -/
theorem reported_fault_tells_sources_unconnected :
    let leaf := Fault.clientInit "archives" denial
    let f := leaf.inStage .fetch
    f.causes = [leaf.text, denial.text,
      "Unable to create dir /store: Permission denied (os error 13)",
      "Permission denied (os error 13)"] ∧
    (∀ cause ∈ f.causes, EndsWith f.text cause) ∧
    f.root = leaf ∧ f.stage? = some .fetch ∧ f.isCancelled = false ∧
    Yields localListing.perform
      [⟨.connect ⟨"archives", none, .directory "/store"⟩, .error denial⟩, .line ⟨.error, f.text⟩]
      1 := by
  intro leaf f
  obtain ⟨_, htags, _, hends, hreported⟩ := reported_fault_tells_sources f
  obtain ⟨hroot, hstage, _, _⟩ := htags leaf [.fetch] rfl rfl
  let c : Config := localListing.overrides.applyTo none {}
  have hresolve : Yields localListing.overrides.resolve [] (.ok c) :=
    yields_course (unconnected denial) localListing.overrides.resolve ()
  have hperform : Yields (localListing.action.perform c) [⟨.connect c.store, .error denial⟩]
      (.error f) :=
    yields_course (unconnected denial)
      (localListing.action.perform (localListing.overrides.applyTo none {})) ()
  exact ⟨rfl, hends, hroot, hstage, rfl,
    (hreported localListing c [] _ hresolve hperform _ 1).mpr ⟨rfl, rfl⟩⟩

end DumpVault
