import DumpVault.CommandLine.Run
import DumpVault.Machine.Host
import DumpVault.Proofs.Lines

/-!
# What a listing consults

A command line is carried out in two parts: its settings are put together, for which files are read
only, and then its action is performed. A listing looks at the settings of the store and at no
others. But a name of the database that is given by its file is read with the settings, whatever the
action is. So two listings with the same settings of the store show the same, unless one of them
cannot read that file.
-/
namespace DumpVault
open Prog

namespace Prog

variable {σ α β : Type}

def Step.shown? : Step → Option String
  | ⟨.print text, _⟩ => some text
  | _ => none

/-- The texts that a course prints. -/
def printed (steps : List Step) : List String := steps.filterMap Step.shown?

@[simp] theorem printed_append {steps more : List Step} :
    printed (steps ++ more) = printed steps ++ printed more := List.filterMap_append

/-- All that can be told of a run afterwards: its exit code, its lines, what it has printed, and the
state that it leaves. -/
structure Seen (σ : Type) where
  code : UInt8
  lines : List Line
  printed : List String
  left : σ

def seen (h : Handler σ) (p : Prog UInt8) (s : σ) : Seen σ :=
  ⟨(p.run h s).1, logged (p.course h s), printed (p.course h s), (p.run h s).2⟩

theorem run_then (h : Handler σ) (p : Prog α) (f : α → Prog β) (s : σ) :
    (p >>= f).run h s = (f (p.run h s).1).run h (p.run h s).2 := run_bind h p f s

theorem course_then (h : Handler σ) (p : Prog α) (f : α → Prog β) (s : σ) :
    (p >>= f).course h s = p.course h s ++ (f (p.run h s).1).course h (p.run h s).2 := by
  change (p.bind f).course h s = _
  induction p generalizing s with
  | pure a => rfl
  | call c next ih => simp only [bind, course, run_call, ih, List.cons_append]

end Prog

def Call.isReading : Call → Prop
  | .readFile _ => True
  | _ => False

section Reading

variable {σ α : Type} {h : Handler σ} {p : Prog α} {s : σ}

/-- A run that only reads files is not seen, where reading changes nothing. -/
theorem run_of_reading (hread : ∀ path u, (h (.readFile path) u).2 = u)
    (hp : p.Only Call.isReading) :
    (p.run h s).2 = s ∧ logged (p.course h s) = [] ∧ printed (p.course h s) = [] := by
  induction p generalizing s with
  | pure a => exact ⟨rfl, rfl, rfl⟩
  | call c next ih =>
    cases c with
    | readFile path =>
      obtain ⟨hleft, hlines, hprinted⟩ := ih (h (.readFile path) s).1 (hp.2 _)
      rw [run_call, course, hread]
      exact ⟨hleft, hlines, hprinted⟩
    | _ => exact hp.1.elim

theorem seen_bind_of_reading (hread : ∀ path u, (h (.readFile path) u).2 = u)
    (hp : p.Only Call.isReading) (f : α → Prog UInt8) :
    seen h (p >>= f) s = seen h (f (p.run h s).1) s := by
  obtain ⟨hleft, hlines, hprinted⟩ := run_of_reading (s := s) hread hp
  simp only [seen, run_then, course_then, hleft, logged_append, hlines, printed_append, hprinted,
    List.nil_append]

end Reading

theorem reading_readText (path : String) : (readText path).Only Call.isReading :=
  only_ask_bind trivial fun _ => only_pure _

theorem reading_loadConfig (path : String) : (loadConfig path).Only Call.isReading := by
  refine only_bind (reading_readText path) fun text => ?_
  cases text with
  | error fault => exact only_pure _
  | ok text =>
    dsimp only
    cases Config.ofText text <;> exact only_pure _

theorem reading_loadName (path : String) : (loadName path).Only Call.isReading :=
  only_bind (reading_readText path) fun text => by cases text <;> exact only_pure _

namespace Overrides

variable {σ : Type}

/-- The configuration that the settings of a command are put over. -/
def base (o : Overrides) : Prog (Except ResolveFault Config) :=
  match o.configFile with
  | some path => loadConfig path
  | none => Pure.pure (.ok {})

/-- The settings put over a configuration, the name of the database from its file. -/
def onto (o : Overrides) (c : Config) : Prog (Except ResolveFault Config) :=
  match o.databasePath with
  | none => Pure.pure (.ok (o.applyTo none c))
  | some path => do
    match ← loadName path with
    | .error fault => return .error fault
    | .ok name => return .ok (o.applyTo (some name) c)

theorem resolve_eq (o : Overrides) : o.resolve = o.base >>= fun
    | .error fault => Pure.pure (.error fault)
    | .ok config => o.onto config := by
  simp only [resolve, base, onto]
  cases o.configFile <;> cases o.databasePath <;> rfl

theorem reading_base (o : Overrides) : o.base.Only Call.isReading := by
  rw [base]
  split
  · exact reading_loadConfig _
  · exact only_pure _

theorem reading_onto (o : Overrides) (c : Config) : (o.onto c).Only Call.isReading := by
  rw [onto]
  split
  · exact only_pure _
  · exact only_bind (reading_loadName _) fun name => by cases name <;> exact only_pure _

theorem reading_resolve (o : Overrides) : o.resolve.Only Call.isReading := by
  rw [resolve_eq]
  refine only_bind o.reading_base fun base => ?_
  cases base with
  | error fault => exact only_pure _
  | ok config => exact o.reading_onto config

/-- Why the name of the database cannot be read from its file, if one is given. -/
def nameFault? (o : Overrides) (h : Handler σ) (s : σ) : Option ResolveFault :=
  o.databasePath.bind fun path =>
    match ((loadName path).run h s).1 with
    | .error fault => some fault
    | .ok _ => none

/-- The name's file decides whether there are settings at all, but not which store they name. -/
theorem onto_cases (o : Overrides) (c : Config) (h : Handler σ) (s : σ) :
    match o.nameFault? h s with
    | some fault => ((o.onto c).run h s).1 = .error fault
    | none => ∃ d, ((o.onto c).run h s).1 = .ok d ∧ d.store = o.storeOver c.store := by
  rw [nameFault?, onto]
  cases o.databasePath with
  | none => exact ⟨_, rfl, rfl⟩
  | some path =>
    simp only [Option.bind_some, run_then]
    cases ((loadName path).run h s).1 with
    | error fault => rfl
    | ok name => exact ⟨_, rfl, rfl⟩

theorem unreadableName_of_loadName {path : String} {h : Handler σ} {s : σ} {fault : ResolveFault}
    (hfault : ((loadName path).run h s).1 = .error fault) :
    ∃ cause, fault = .unreadableName path cause := by
  rw [loadName, run_then] at hfault
  cases hread : ((readText path).run h s).1 with
  | error cause =>
    rw [hread] at hfault
    exact ⟨cause, (Except.error.inj hfault).symm⟩
  | ok text =>
    rw [hread] at hfault
    cases hfault

theorem unreadableName_of_nameFault {o : Overrides} {h : Handler σ} {s : σ} {fault : ResolveFault}
    (hfault : o.nameFault? h s = some fault) : ∃ path cause, fault = .unreadableName path cause := by
  obtain ⟨path, -, hname⟩ := Option.bind_eq_some_iff.mp hfault
  split at hname
  · next hload =>
    cases hname
    exact ⟨path, unreadableName_of_loadName hload⟩
  · cases hname

end Overrides

namespace CommandLine

variable {σ : Type} {h : Handler σ} {s : σ} {o : Overrides} {c : Config} {args : List String}

/-- The end of a command: success, or one line at the level of errors. -/
def report : Except Fault Unit → Prog UInt8
  | .error fault => giveUp fault.text
  | .ok _ => Pure.pure 0

theorem perform_eq (i : Invocation) : i.perform = i.overrides.resolve >>= fun
    | .error fault => giveUp fault.text
    | .ok config => i.action.perform config >>= report := rfl

/-- What a listing shows, by the fault of the name's file. -/
theorem seen_list (hread : ∀ path u, (h (.readFile path) u).2 = u)
    (hargs : parse args = .ok ⟨.list, o⟩) (hbase : (o.base.run h s).1 = .ok c) :
    seen h (CommandLine.run args) s = match o.nameFault? h s with
      | some fault => seen h (giveUp fault.text) s
      | none => seen h (printKeys { store := o.storeOver c.store } >>= report) s := by
  have hresolved : (o.resolve.run h s).1 = ((o.onto c).run h s).1 := by
    rw [Overrides.resolve_eq, run_then, (run_of_reading hread o.reading_base).1, hbase]
  rw [CommandLine.run, hargs]
  dsimp only
  rw [perform_eq, seen_bind_of_reading hread o.reading_resolve, hresolved]
  have hcases := o.onto_cases c h s
  cases hfault : o.nameFault? h s with
  | some fault =>
    rw [hfault] at hcases
    rw [hcases]
  | none =>
    rw [hfault] at hcases
    obtain ⟨d, hd, hstore⟩ := hcases
    rw [hd, ← hstore]
    -- of its configuration a listing takes the store's part only
    rfl

/-- How the lines of a listing begin. -/
def listOpenings : Openings :=
  [(.debug, ""), (.error, "invalid configuration: "), (.error, "fetch stage failed: ")]

/-- How the line about a name that cannot be read begins. -/
def nameOpenings : Openings := [(.error, "Failed to read database name from ")]

theorem opens_of_append {openings : Openings} {level : Level} (start rest : String)
    (h : (level, start) ∈ openings) : Line.Opens openings ⟨level, start ++ rest⟩ :=
  ⟨_, h, rfl, by rw [String.toList_append]; exact List.prefix_append _ _⟩

theorem opens_config (message : String) :
    Line.Opens listOpenings ⟨.error, (Fault.config message).text⟩ :=
  opens_of_append "invalid configuration: " message (by simp [listOpenings])

theorem opens_fetch (fault : Fault) : Line.Opens listOpenings ⟨.error, (fault.inStage .fetch).text⟩ :=
  opens_of_append "fetch stage failed: " fault.text (by simp [listOpenings])

theorem opens_debug (text : String) : Line.Opens listOpenings ⟨.debug, text⟩ :=
  ⟨(.debug, ""), by simp [listOpenings], rfl, List.nil_prefix⟩

theorem opens_name (path : String) (cause : IoFault) :
    Line.Opens nameOpenings ⟨.error, (ResolveFault.unreadableName path cause).text⟩ := by
  have htext : (ResolveFault.unreadableName path cause).text =
      "Failed to read database name from " ++ path ++ ": " ++ cause.text := rfl
  rw [htext, String.append_assoc, String.append_assoc]
  exact opens_of_append _ _ (List.mem_singleton_self _)

theorem config_of_requireText {field value : String} {fault : Fault}
    (h : requireText field value = .error fault) : ∃ message, fault = .config message := by
  rw [requireText] at h
  split at h
  · cases h
    exact ⟨_, rfl⟩
  · cases h

theorem config_of_validate {c : StoreConfig} {fault : Fault} (h : c.validate = .error fault) :
    ∃ message, fault = .config message := by
  rw [StoreConfig.validate] at h
  cases hbucket : requireText "store.bucket" c.bucket with
  | error first =>
    rw [hbucket] at h
    cases h
    exact config_of_requireText hbucket
  | ok =>
    rw [hbucket] at h
    change (if _ then _ else _) = _ at h
    split at h
    · cases h
      exact ⟨_, rfl⟩
    · cases h

/-- The line about a store that has been opened. -/
def ready (c : StoreConfig) : Line :=
  ⟨.debug, s!"blob store client ready for {c.bucket} ({c.backend.shown})"⟩

theorem connectStore_course {c : StoreConfig} {steps : List Step} {r : Except Fault Unit}
    (h : Yields (connectStore c) steps r) :
    (∃ source, steps = [⟨.connect c, .error source⟩] ∧ r = .error (.clientInit c.bucket source)) ∨
      (steps = [⟨.connect c, .ok ()⟩, .line (ready c)] ∧ r = .ok ()) := by
  obtain ⟨opened, rest, rfl, hrest⟩ := yields_ask_bind.mp h
  cases opened with
  | error source =>
    obtain ⟨rfl, rfl⟩ := yields_pure.mp hrest
    exact .inl ⟨source, rfl, rfl⟩
  | ok =>
    obtain ⟨rest, rfl, hend⟩ := yields_log_bind.mp hrest
    obtain ⟨rfl, rfl⟩ := yields_pure.mp hend
    exact .inr ⟨rfl, rfl⟩

theorem says_connectStore {c : StoreConfig} {steps : List Step} {r : Except Fault Unit}
    (h : Yields (connectStore c) steps r) : Says listOpenings steps := by
  rcases connectStore_course h with ⟨source, rfl, _⟩ | ⟨rfl, _⟩
  · exact (says_step rfl).mpr says_nil
  · exact (says_step rfl).mpr (says_line.mpr ⟨opens_debug _, says_nil⟩)

/-- A listing fails by the settings of the store, or while it fetches the keys. -/
theorem says_listArchives {c : StoreConfig} {steps : List Step} {r : Except Fault (List Key)}
    (h : Yields (listArchives c) steps r) : Says listOpenings steps ∧
      ∀ fault, r = .error fault → Line.Opens listOpenings ⟨.error, fault.text⟩ := by
  have htagged : ∀ {α : Type} {r : Except Fault α} {fault : Fault},
      tagged .fetch r = .error fault → Line.Opens listOpenings ⟨.error, fault.text⟩ := by
    rintro α (source | a) fault h
    · cases h
      exact opens_fetch source
    · cases h
  rw [listArchives] at h
  cases hvalid : c.validate with
  | error first =>
    rw [hvalid] at h
    obtain ⟨rfl, rfl⟩ := yields_pure.mp h
    refine ⟨says_nil, ?_⟩
    rintro _ ⟨⟩
    obtain ⟨message, rfl⟩ := config_of_validate hvalid
    exact opens_config message
  | ok =>
    rw [hvalid] at h
    obtain ⟨s, t, connected, rfl, hconnect, h⟩ := yields_bind_iff.mp h
    have hsaid := says_connectStore hconnect
    cases htag : tagged .fetch connected with
    | error fault =>
      rw [htag] at h
      obtain ⟨rfl, rfl⟩ := yields_pure.mp h
      refine ⟨says_append.mpr ⟨hsaid, says_nil⟩, ?_⟩
      rintro _ ⟨⟩
      exact htagged htag
    | ok =>
      rw [htag] at h
      obtain ⟨keys, rest, rfl, hkeys⟩ := yields_ask_bind.mp h
      obtain ⟨rfl, rfl⟩ := yields_pure.mp hkeys
      exact ⟨says_append.mpr ⟨hsaid, (says_step rfl).mpr says_nil⟩, fun _ => htagged⟩

theorem says_list {c : Config} {steps : List Step} {code : UInt8}
    (h : Yields (printKeys c >>= report) steps code) : Says listOpenings steps := by
  obtain ⟨s, t, r, rfl, hprint, hreport⟩ := yields_bind_iff.mp h
  obtain ⟨s, u, listed, rfl, hlist, hprint⟩ := yields_bind_iff.mp hprint
  obtain ⟨hsaid, hfault⟩ := says_listArchives hlist
  cases listed with
  | error fault =>
    obtain ⟨rfl, rfl⟩ := yields_pure.mp hprint
    obtain ⟨rest, rfl, hend⟩ := yields_log_bind.mp hreport
    obtain ⟨rfl, rfl⟩ := yields_pure.mp hend
    exact says_append.mpr ⟨says_append.mpr ⟨hsaid, says_nil⟩,
      says_line.mpr ⟨hfault fault rfl, says_nil⟩⟩
  | ok keys =>
    obtain ⟨rest, rfl, hshow⟩ := yields_log_bind.mp hprint
    obtain ⟨_, rest, rfl, hend⟩ := yields_ask_bind.mp hshow
    obtain ⟨rfl, rfl⟩ := yields_pure.mp hend
    obtain ⟨rfl, rfl⟩ := yields_pure.mp hreport
    exact says_append.mpr ⟨says_append.mpr ⟨hsaid,
      says_line.mpr ⟨opens_debug _, (says_step rfl).mpr says_nil⟩⟩, says_nil⟩

/-- A listing never says what is said of a name that cannot be read. -/
theorem seen_list_ne {c : Config} {fault : ResolveFault} {t : σ} {o : Overrides}
    (hfault : o.nameFault? h t = some fault) :
    seen h (printKeys c >>= report) s ≠ seen h (giveUp fault.text) s := by
  intro heq
  have hlines : logged ((printKeys c >>= report).course h s) = [⟨.error, fault.text⟩] :=
    congrArg Seen.lines heq
  have hsaid := says_list (yields_course h (printKeys c >>= report) s) ⟨.error, fault.text⟩
    (hlines ▸ List.mem_singleton_self _)
  obtain ⟨path, cause, rfl⟩ := Overrides.unreadableName_of_nameFault hfault
  exact (opens_name path cause).not_opens (by decide) hsaid

variable {args args' : List String} {i j : Overrides} {c d : Config}

/-- Two listings with one store show the same, and leave the same state, exactly if what is said of
the file with the name of the database is the same for both. -/
theorem listings_agree_iff (hread : ∀ path u, (h (.readFile path) u).2 = u)
    (hi : parse args = .ok ⟨.list, i⟩) (hj : parse args' = .ok ⟨.list, j⟩)
    (hc : (i.base.run h s).1 = .ok c) (hd : (j.base.run h s).1 = .ok d)
    (hstore : i.storeOver c.store = j.storeOver d.store) :
    seen h (CommandLine.run args) s = seen h (CommandLine.run args') s ↔
      (i.nameFault? h s).map ResolveFault.text = (j.nameFault? h s).map ResolveFault.text := by
  rw [seen_list hread hi hc, seen_list hread hj hd, hstore]
  cases hfault : i.nameFault? h s with
  | none =>
    cases hfault' : j.nameFault? h s with
    | none => exact iff_of_true rfl rfl
    | some fault => exact iff_of_false (seen_list_ne hfault') nofun
  | some fault =>
    cases hfault' : j.nameFault? h s with
    | none => exact iff_of_false (seen_list_ne hfault).symm nofun
    | some fault' =>
      rw [Option.map_some, Option.map_some, Option.some.injEq]
      constructor
      · intro heq
        have hlines : [Line.mk .error fault.text] = [Line.mk .error fault'.text] :=
          congrArg Seen.lines heq
        injection hlines with hline
        injection hline
      · exact fun htext => congrArg (fun text => seen h (giveUp text) s) htext

/-- A bucket that holds one blob, and a file with the name of a database. -/
def shelf : Host :=
  { files := ⟨[(["store"], .directory), (["store", "archives"], .directory),
      (["store", "archives", "spring"], .file ⟨#[120]⟩), (["name"], .file ⟨#[97, 10]⟩)]⟩
    cwd := []
    environment := .empty }

def listing : List String := ["list", "--bucket", "archives", "--local-store", "/store"]

theorem listings_agree_named : seen Host.answer (CommandLine.run listing) shelf =
    seen Host.answer
      (CommandLine.run (listing ++ ["--database-path", "/name", "--username", ""])) shelf :=
  (listings_agree_iff (c := {}) (d := {}) (fun _ _ => rfl) rfl rfl rfl rfl (by rfl)).mpr
    (by decide +kernel)

/-- Where the file with the name of the database is missing, the same listing fails. -/
theorem missing_name_stops_listing :
    let named := listing ++ ["--database-path", "/missing"]
    (∃ i j, parse listing = .ok ⟨.list, i⟩ ∧ parse named = .ok ⟨.list, j⟩ ∧
      i.configFile = none ∧ j.configFile = none ∧ i.storeOver {} = j.storeOver {}) ∧
    (seen Host.answer (CommandLine.run listing) shelf).code = 0 ∧
    (seen Host.answer (CommandLine.run listing) shelf).printed = ["spring\n"] ∧
    (seen Host.answer (CommandLine.run named) shelf).code = 1 ∧
    (seen Host.answer (CommandLine.run named) shelf).printed = [] :=
  ⟨⟨_, _, rfl, rfl, rfl, rfl, rfl⟩, by decide +kernel, by decide +kernel, by decide +kernel,
    by decide +kernel⟩

end CommandLine
end DumpVault
