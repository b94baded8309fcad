import DumpVault.Proofs.Consulted
import DumpVault.Proofs.Settings

/-!
# Settings overridden one by one

The settings of a command come from its flags, from the configuration file and from the defaults, in
this order, and each setting by itself. Flags never fail; what can fail is reading the two files
that they may name.
-/
namespace DumpVault
open Prog Yaml

namespace Text

/-- What is left of a text when the blanks around it are gone. -/
structure Trimmed (text inner : String) : Prop where
  around : ∃ front back, text = front ++ inner ++ back ∧ AllBlank front ∧ AllBlank back
  first : ∀ c, inner.toList.head? = some c → isBlank c = false
  last : ∀ c, inner.toList.getLast? = some c → isBlank c = false

theorem isBlank_of_head?_dropWhile {cs : List Char} {c : Char}
    (h : (cs.dropWhile isBlank).head? = some c) : isBlank c = false := by
  have hnot := List.head?_dropWhile_not isBlank cs
  rw [h] at hnot
  exact hnot

theorem dropWhile_eq_trimList_append (cs : List Char) : cs.dropWhile isBlank =
    trimList cs ++ ((cs.dropWhile isBlank).reverse.takeWhile isBlank).reverse := by
  rw [trimList, ← List.reverse_append, List.takeWhile_append_dropWhile, List.reverse_reverse]

theorem trimmed_trim (s : String) : Trimmed s (trim s) where
  around := by
    refine ⟨String.ofList (s.toList.takeWhile isBlank),
      String.ofList ((s.toList.dropWhile isBlank).reverse.takeWhile isBlank).reverse, ?_, ?_, ?_⟩
    · apply String.toList_injective
      simp only [trim, String.toList_append, String.toList_ofList, List.append_assoc]
      rw [← dropWhile_eq_trimList_append, List.takeWhile_append_dropWhile]
    · intro c hc
      exact List.mem_takeWhile_imp (by simpa using hc)
    · intro c hc
      exact List.mem_takeWhile_imp (by simpa using hc)
  first := by
    intro c hc
    rw [trim, String.toList_ofList] at hc
    have hhead : (s.toList.dropWhile isBlank).head? = some c := by
      rw [dropWhile_eq_trimList_append, List.head?_append, hc]
      rfl
    exact isBlank_of_head?_dropWhile hhead
  last := by
    intro c hc
    rw [trim, String.toList_ofList, trimList, List.getLast?_reverse] at hc
    exact isBlank_of_head?_dropWhile hc

end Text

/-- The text of a file, as a handler has it read. -/
def textAt {σ : Type} (h : Handler σ) (s : σ) (path : String) : Except IoFault String :=
  (h (.readFile path) s).1 >>= IoFault.textOf

namespace Overrides

/-- What the flags give for a setting; `name` is what the file with the database's name holds. -/
def given? (o : Overrides) (name : Option String) : (s : Config.Setting) → Option s.Value
  | .host => o.host
  | .name => name.or o.database
  | .username => o.username
  | .bucket => o.bucket
  | .credentialsPath => o.credentials.map some
  | .backend => o.localStore.map .directory
  | .dumpProgram => o.dumpProgram
  | .restoreProgram => o.restoreProgram
  | .stagingDir => o.stagingDir.map some
  | .retain => if o.retainStaging then some true else none
  | .password | .dumpPrefixArgs | .restorePrefixArgs => none

theorem get_applyTo (o : Overrides) (name : Option String) (c : Config) (s : Config.Setting) :
    (o.applyTo name c).get s = (o.given? name s).getD (c.get s) := by
  cases s with
  | name =>
    change name.getD (o.database.getD c.database.name) = (name.or o.database).getD c.database.name
    cases name <;> rfl
  | credentialsPath =>
    change o.credentials.or c.store.credentialsPath = (o.credentials.map some).getD _
    cases o.credentials <;> rfl
  | stagingDir =>
    change o.stagingDir.or c.staging.dir = (o.stagingDir.map some).getD _
    cases o.stagingDir <;> rfl
  | retain =>
    change (o.retainStaging || c.staging.retain) =
      (if o.retainStaging then some true else none).getD c.staging.retain
    cases o.retainStaging <;> rfl
  | _ => rfl

section Resolved
variable {σ : Type} {h : Handler σ} {s : σ} {o : Overrides} {c : Config} {name : Option String}

/-- The configuration that the flags are put over: that of the file, if they name one. -/
inductive Starts (o : Overrides) (h : Handler σ) (s : σ) : Config → Prop
  | defaults (unnamed : o.configFile = none) : Starts o h s {}
  | file {path text : String} {c : Config} (named : o.configFile = some path)
      (read : textAt h s path = .ok text) (decoded : Config.ofText text = .ok c) : Starts o h s c

/-- The name of the database that a file of its own gives, if the flags name one. -/
inductive Names (o : Overrides) (h : Handler σ) (s : σ) : Option String → Prop
  | flag (unnamed : o.databasePath = none) : Names o h s none
  | file {path text name : String} (named : o.databasePath = some path)
      (read : textAt h s path = .ok text) (trimmed : Text.Trimmed text name) :
      Names o h s (some name)

/-- Why there is no configuration. -/
inductive Unresolved (o : Overrides) (h : Handler σ) (s : σ) : ResolveFault → Prop
  | unreadable {path : String} {cause : IoFault} (named : o.configFile = some path)
      (unread : textAt h s path = .error cause) : Unresolved o h s (.unreadableConfig path cause)
  | malformed {path text : String} {cause : DecodeFault} (named : o.configFile = some path)
      (read : textAt h s path = .ok text) (undecoded : Config.ofText text = .error cause) :
      Unresolved o h s (.malformedConfig cause)
  | unnamed {path : String} {cause : IoFault} (named : o.databasePath = some path)
      (unread : textAt h s path = .error cause) : Unresolved o h s (.unreadableName path cause)

theorem Starts.base_ends (o : Overrides) (h : Handler σ) (s : σ) :
    (∃ c, (o.base.run h s).1 = .ok c ∧ o.Starts h s c) ∨
      ∃ fault, (o.base.run h s).1 = .error fault ∧ o.Unresolved h s fault := by
  rw [base]
  cases hfile : o.configFile with
  | none => exact .inl ⟨{}, rfl, .defaults hfile⟩
  | some path =>
    dsimp only
    rw [loadConfig, run_then]
    have htext : ((readText path).run h s).1 = textAt h s path := rfl
    rw [htext]
    cases hread : textAt h s path with
    | error cause => exact .inr ⟨_, rfl, .unreadable hfile hread⟩
    | ok text =>
      dsimp only
      cases hdecode : Config.ofText text with
      | error cause => exact .inr ⟨_, rfl, .malformed hfile hread hdecode⟩
      | ok c => exact .inl ⟨c, rfl, .file hfile hread hdecode⟩

theorem onto_ends (o : Overrides) (h : Handler σ) (s : σ) (c : Config) :
    (∃ name, ((o.onto c).run h s).1 = .ok (o.applyTo name c) ∧ o.Names h s name) ∨
      ∃ fault, ((o.onto c).run h s).1 = .error fault ∧ o.Unresolved h s fault := by
  rw [onto]
  cases hfile : o.databasePath with
  | none => exact .inl ⟨none, rfl, .flag hfile⟩
  | some path =>
    dsimp only
    rw [run_then, loadName, run_then]
    have htext : ((readText path).run h s).1 = textAt h s path := rfl
    rw [htext]
    cases hread : textAt h s path with
    | error cause => exact .inr ⟨_, rfl, .unnamed hfile hread⟩
    | ok text => exact .inl ⟨_, rfl, .file hfile hread (Text.trimmed_trim text)⟩

theorem resolve_ends (hread : ∀ path u, (h (.readFile path) u).2 = u) (o : Overrides) (s : σ) :
    (∃ c name, (o.resolve.run h s).1 = .ok (o.applyTo name c) ∧ o.Starts h s c ∧ o.Names h s name) ∨
      ∃ fault, (o.resolve.run h s).1 = .error fault ∧ o.Unresolved h s fault := by
  -- the second file is read in the state in which the first was
  rw [resolve_eq, run_then, (run_of_reading hread o.reading_base).1]
  obtain ⟨c, hbase, hstarts⟩ | ⟨fault, hbase, hfault⟩ := Starts.base_ends o h s
  · rw [hbase]
    obtain ⟨name, honto, hname⟩ | ⟨fault, honto, hfault⟩ := onto_ends o h s c
    · exact .inl ⟨c, name, honto, hstarts, hname⟩
    · exact .inr ⟨fault, honto, hfault⟩
  · rw [hbase]
    exact .inr ⟨fault, rfl, hfault⟩

theorem Unresolved.not_resolved {fault : ResolveFault} (hfault : o.Unresolved h s fault)
    (hstarts : o.Starts h s c) (hname : o.Names h s name) : False := by
  have hfile : ∀ {path path' : String}, o.configFile = some path → o.configFile = some path' →
      path = path' := fun hp hp' => Option.some.inj (hp.symm.trans hp')
  cases hfault with
  | @unreadable path cause named unread =>
    cases hstarts with
    | defaults unnamed => exact absurd (unnamed.symm.trans named) nofun
    | file named' read =>
      obtain rfl := hfile named named'
      exact absurd (read.symm.trans unread) nofun
  | malformed named read undecoded =>
    cases hstarts with
    | defaults unnamed => exact absurd (unnamed.symm.trans named) nofun
    | file named' read' decoded =>
      obtain rfl := hfile named named'
      obtain rfl := Except.ok.inj (read.symm.trans read')
      exact absurd (decoded.symm.trans undecoded) nofun
  | unnamed named unread =>
    cases hname with
    | flag unnamed => exact absurd (unnamed.symm.trans named) nofun
    | file named' read =>
      obtain rfl := Option.some.inj (named.symm.trans named')
      exact absurd (read.symm.trans unread) nofun

/-- How the flags change a configuration `c` from the file, or the default one, into `d`. -/
structure Overridden (o : Overrides) (h : Handler σ) (s : σ) (name : Option String)
    (c d : Config) : Prop where
  each : ∀ x, d.get x = (o.given? name x).getD (c.get x)
  unflagged : d.get .password = c.get .password ∧ d.get .dumpPrefixArgs = c.get .dumpPrefixArgs ∧
    d.get .restorePrefixArgs = c.get .restorePrefixArgs
  retained : c.get .retain = true → d.get .retain = true
  /-- A setting of the file has the one value that comes from its own place there: what is read at
  the place, and the default only where the file does not have it. -/
  own : ∀ path text, o.configFile = some path → textAt h s path = .ok text → ∀ x value,
    Config.Origin (Document.ofText text) (Document.ofText text).root x value ↔ value = c.get x
  mentioned : ∀ path text x v, o.configFile = some path → textAt h s path = .ok text →
    x.At (Document.ofText text) (Document.ofText text).root v →
    ∃ depth place value, Decode.Gives (x.read (Document.ofText text) depth place v) value ∧
      d.get x = (o.given? name x).getD value
  omitted : ∀ path text x, o.configFile = some path → textAt h s path = .ok text →
    ¬ Config.Mentions (Document.ofText text) x →
    d.get x = (o.given? name x).getD (({} : Config).get x)

theorem overridden_applyTo (hstarts : o.Starts h s c) :
    Overridden o h s name c (o.applyTo name c) := by
  have hfile : ∀ {path text : String}, o.configFile = some path → textAt h s path = .ok text →
      Config.ofDocument (Document.ofText text) = .ok c := by
    intro path text hpath htext
    cases hstarts with
    | defaults unnamed => exact absurd (unnamed.symm.trans hpath) nofun
    | file named read decoded =>
      obtain rfl := Option.some.inj (named.symm.trans hpath)
      obtain rfl := Except.ok.inj (read.symm.trans htext)
      exact decoded
  exact {
    each := o.get_applyTo name c
    unflagged := ⟨rfl, rfl, rfl⟩
    retained := by
      intro hretain
      rw [get_applyTo]
      change (if o.retainStaging then some true else none).getD (c.get .retain) = true
      split
      · rfl
      · exact hretain
    own := fun path text hpath htext x value => Config.origin_iff (hfile hpath htext) x
    mentioned := by
      intro path text x v hpath htext hv
      obtain ⟨depth, place, hgives⟩ := Config.gives_of_at (hfile hpath htext) hv
      exact ⟨depth, place, c.get x, hgives, o.get_applyTo name c x⟩
    omitted := by
      intro path text x hpath htext hmention
      rw [get_applyTo, Config.get_of_not_mentioned (hfile hpath htext) hmention] }

/-- Flags override the file setting by setting, and nothing but the two files can fail. -/
theorem flags_override_file (hread : ∀ path u, (h (.readFile path) u).2 = u) (o : Overrides)
    (s : σ) :
    (∀ d, (o.resolve.run h s).1 = .ok d →
      ∃ c name, o.Starts h s c ∧ o.Names h s name ∧ Overridden o h s name c d) ∧
    (∀ fault, (o.resolve.run h s).1 = .error fault → o.Unresolved h s fault) ∧
    ((∃ fault, (o.resolve.run h s).1 = .error fault) ↔ ∃ fault, o.Unresolved h s fault) := by
  obtain ⟨c, name, hresolve, hstarts, hname⟩ | ⟨fault, hresolve, hfault⟩ := resolve_ends hread o s
  · rw [hresolve]
    refine ⟨?_, nofun, fun ⟨_, hfault⟩ => absurd hfault nofun, ?_⟩
    · rintro _ ⟨⟩
      exact ⟨c, name, hstarts, hname, overridden_applyTo hstarts⟩
    · rintro ⟨fault, hfault⟩
      exact (hfault.not_resolved hstarts hname).elim
  · rw [hresolve]
    refine ⟨nofun, ?_, fun _ => ⟨fault, hfault⟩, fun _ => ⟨fault, rfl⟩⟩
    rintro _ ⟨⟩
    exact hfault

end Resolved

def sparse : String :=
  "database: \x7bhost: db1, username: dumper, password: \x7bfrom: none\x7d\x7d\n" ++
  "dump: \x7bprefix_args: [-c]\x7d\nstaging: \x7bretain: true\x7d\n"

/-- A machine with a configuration and the name of a database in files. -/
def filed : Host :=
  { files := ⟨[(["conf"], .file sparse.toUTF8), (["name"], .file "\t app\n".toUTF8)]⟩
    cwd := []
    environment := .empty }

/-- A host from its flag, a name from the file of its own, the settings that the configuration mentions
beside these as it has them, and all else by default. -/
theorem flags_override_file_named :
    let o : Overrides :=
      { configFile := some "/conf", host := some "db2", databasePath := some "/name" }
    let d : Config :=
      { database := { host := "db2", name := "app", username := "dumper", password := .absent }
        dump := { prefixArgs := ["-c"] }
        staging := { retain := true } }
    (o.resolve.run Host.answer filed).1 = .ok d ∧
      ∃ c name, o.Starts Host.answer filed c ∧ o.Names Host.answer filed name ∧
        Overridden o Host.answer filed name c d := by
  intro o d
  have hvalue : (o.resolve.run Host.answer filed).1.toOption = some d := by decide +kernel
  have hresolve : (o.resolve.run Host.answer filed).1 = .ok d := by
    generalize (o.resolve.run Host.answer filed).1 = resolved at hvalue ⊢
    cases resolved with
    | error fault => cases hvalue
    | ok c => exact congrArg Except.ok (Option.some.inj hvalue)
  exact ⟨hresolve, (flags_override_file (fun _ _ => rfl) o filed).1 d hresolve⟩

end Overrides
end DumpVault
