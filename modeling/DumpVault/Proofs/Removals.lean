import DumpVault.Proofs.Renderings
import DumpVault.Proofs.Settings
import Mathlib.Data.List.Basic

/-!
# Configurations with parts left out

A configuration is written as a tree of tables. Of this tree any settings and whole sections may be
left out: what is read from the rest has the defaults in their places, and is the configuration
elsewhere. A tagged value is left out as a whole only; one that has lost its tag or its field is not
read at all.
-/
namespace DumpVault
open Yaml Decode

namespace SecretSource

def variant : SecretSource → String
  | env _ => "env"
  | file _ => "file"
  | absent => "none"

def texts : SecretSource → List (String × String)
  | env var => [("var", var)]
  | file path => [("path", path)]
  | absent => []

def tree (s : SecretSource) : Tree := .ofTexts (("from", s.variant) :: s.texts)

theorem tells (s : SecretSource) : Tells rule ofVariant s s.variant s.texts where
  known := by cases s <;> simp [rule, variant]
  beside := by cases s <;> simp [rule, texts]
  whole := by cases s <;> rfl
  part := by
    intro left hleft hless
    cases s with
    | env | file =>
      obtain rfl := (List.sublist_singleton.mp hleft).resolve_right hless
      exact ⟨_, rfl⟩
    | absent => exact absurd (List.sublist_nil.mp hleft) hless

end SecretSource

namespace Backend

def variant : Backend → String
  | gcs => "gcs"
  | directory _ => "local"
  | memory => "memory"

def texts : Backend → List (String × String)
  | directory root => [("root", root)]
  | gcs | memory => []

def tree (b : Backend) : Tree := .ofTexts (("kind", b.variant) :: b.texts)

theorem tells (b : Backend) : Tells rule ofVariant b b.variant b.texts where
  known := by cases b <;> simp [rule, variant]
  beside := by cases b <;> simp [rule, texts]
  whole := by cases b <;> rfl
  part := by
    intro left hleft hless
    cases b with
    | directory =>
      obtain rfl := (List.sublist_singleton.mp hleft).resolve_right hless
      exact ⟨_, rfl⟩
    | gcs | memory => exact absurd (List.sublist_nil.mp hleft) hless

end Backend

def optionTree : Option String → Tree
  | some s => .text s
  | none => .null

def DatabaseConfig.entries (c : DatabaseConfig) : List (String × Tree) :=
  [("host", .text c.host), ("name", .text c.name), ("username", .text c.username),
    ("password", c.password.tree)]

def StoreConfig.entries (c : StoreConfig) : List (String × Tree) :=
  [("bucket", .text c.bucket), ("credentials_path", optionTree c.credentialsPath),
    ("backend", c.backend.tree)]

def ToolConfig.entries (c : ToolConfig) : List (String × Tree) :=
  [("program", .text c.program), ("prefix_args", .list (c.prefixArgs.map .text))]

def StagingConfig.entries (c : StagingConfig) : List (String × Tree) :=
  [("dir", optionTree c.dir), ("retain", .bool c.retain)]

def Config.entries (c : Config) : List (String × Tree) :=
  [("database", .table c.database.entries), ("store", .table c.store.entries),
    ("dump", .table c.dump.entries), ("restore", .table c.restore.entries),
    ("staging", .table c.staging.entries)]

/-- A configuration as it is written, all of it. -/
def Config.tree (c : Config) : Tree := .table c.entries

section Left
variable {gone : List String → Bool} {place : List String} {d : Document} {depth : Nat}
  {path : Path} {n : Node}

theorem reads_optionTree {value : Option String} (h : (optionTree value).shownBy n = true) :
    Reads (option d n (text d "path string" path)) value := by
  cases value with
  | none => exact reads_option_null (by simpa [optionTree, Tree.shownBy] using h)
  | some s => exact reads_option_text (by simpa [optionTree, Tree.shownBy] using h)

@[simp] theorem without_optionTree {value : Option String} :
    (optionTree value).without gone place = optionTree value := by
  cases value <;> simp [optionTree, Tree.without]

/-- The tag or the field of a password's source is gone. -/
def SecretSource.Torn (s : SecretSource) (gone : List String → Bool) (place : List String) : Prop :=
  ∃ e ∈ ("from", s.variant) :: s.texts, gone (place ++ [e.1]) = true

def Backend.Torn (b : Backend) (gone : List String → Bool) (place : List String) : Prop :=
  ∃ e ∈ ("kind", b.variant) :: b.texts, gone (place ++ [e.1]) = true

theorem SecretSource.reads {s : SecretSource} (h : (s.tree.without gone place).shownBy n = true) :
    ReadsUnless (s.Torn gone place) (SecretSource.read d (depth + 1) path n) s :=
  s.tells.reads h

theorem Backend.reads {b : Backend} (h : (b.tree.without gone place).shownBy n = true) :
    ReadsUnless (b.Torn gone place) (Backend.read d (depth + 1) path n) b :=
  b.tells.reads h

namespace DatabaseConfig
variable {c : DatabaseConfig}

/-- The section with defaults where settings are gone. -/
def without (gone : List String → Bool) (place : List String) (c : DatabaseConfig) :
    DatabaseConfig where
  host := if gone (place ++ ["host"]) then ({} : DatabaseConfig).host else c.host
  name := if gone (place ++ ["name"]) then ({} : DatabaseConfig).name else c.name
  username := if gone (place ++ ["username"]) then ({} : DatabaseConfig).username else c.username
  password := if gone (place ++ ["password"]) then ({} : DatabaseConfig).password else c.password

/-- The section keeps a password's source, but not all of it. -/
def Torn (c : DatabaseConfig) (gone : List String → Bool) (place : List String) : Prop :=
  gone (place ++ ["password"]) = false ∧ c.password.Torn gone (place ++ ["password"])

def rows (gone : List String → Bool) (place : List String) (c : DatabaseConfig) :
    List (Row DatabaseConfig) :=
  [{ name := "host", tree := .text c.host, change := ({ · with host := c.host }) },
    { name := "name", tree := .text c.name, change := ({ · with name := c.name }) },
    { name := "username", tree := .text c.username, change := ({ · with username := c.username }) },
    { name := "password", tree := c.password.tree.without gone (place ++ ["password"])
      change := ({ · with password := c.password })
      torn := c.password.Torn gone (place ++ ["password"]) }]

theorem lists : Row.Lists (c.rows gone place) gone place c.entries :=
  ⟨by simp [rows], by simp [rows, entries, Row.entry, Tree.without]⟩

theorem applied_rows :
    Row.applied (Row.kept gone place (c.rows gone place)) {} = c.without gone place := by
  cases hhost : gone (place ++ ["host"]) <;> cases hname : gone (place ++ ["name"]) <;>
    cases husername : gone (place ++ ["username"]) <;>
    cases hpassword : gone (place ++ ["password"]) <;>
    simp [Row.applied, Row.kept, rows, without, *]

theorem reads (h : ((Tree.table c.entries).without gone place).shownBy n = true) :
    ReadsUnless (c.Torn gone place) (DatabaseConfig.read d (depth + 2) path n)
      (c.without gone place) := by
  rw [← applied_rows]
  refine (c.lists.reads ?_ h).congr (by simp [rows, Torn])
  simp only [rows, List.forall_mem_cons, List.not_mem_nil, false_implies, implies_true, and_true]
  exact ⟨⟨_, rfl, fun _ _ h => (reads_text h).unless.bind_pure⟩,
    ⟨_, rfl, fun _ _ h => (reads_text h).unless.bind_pure⟩,
    ⟨_, rfl, fun _ _ h => (reads_text h).unless.bind_pure⟩,
    ⟨_, rfl, fun _ _ h => (SecretSource.reads h).bind_pure⟩⟩

end DatabaseConfig

namespace StoreConfig
variable {c : StoreConfig}

def without (gone : List String → Bool) (place : List String) (c : StoreConfig) : StoreConfig where
  bucket := if gone (place ++ ["bucket"]) then ({} : StoreConfig).bucket else c.bucket
  credentialsPath :=
    if gone (place ++ ["credentials_path"]) then ({} : StoreConfig).credentialsPath
    else c.credentialsPath
  backend := if gone (place ++ ["backend"]) then ({} : StoreConfig).backend else c.backend

/-- The section keeps a backend, but not all of it. -/
def Torn (c : StoreConfig) (gone : List String → Bool) (place : List String) : Prop :=
  gone (place ++ ["backend"]) = false ∧ c.backend.Torn gone (place ++ ["backend"])

def rows (gone : List String → Bool) (place : List String) (c : StoreConfig) :
    List (Row StoreConfig) :=
  [{ name := "bucket", tree := .text c.bucket, change := ({ · with bucket := c.bucket }) },
    { name := "credentials_path", tree := optionTree c.credentialsPath
      change := ({ · with credentialsPath := c.credentialsPath }) },
    { name := "backend", tree := c.backend.tree.without gone (place ++ ["backend"])
      change := ({ · with backend := c.backend })
      torn := c.backend.Torn gone (place ++ ["backend"]) }]

theorem lists : Row.Lists (c.rows gone place) gone place c.entries :=
  ⟨by simp [rows], by simp [rows, entries, Row.entry, Tree.without]⟩

theorem applied_rows :
    Row.applied (Row.kept gone place (c.rows gone place)) {} = c.without gone place := by
  cases hbucket : gone (place ++ ["bucket"]) <;>
    cases hcredentials : gone (place ++ ["credentials_path"]) <;>
    cases hbackend : gone (place ++ ["backend"]) <;>
    simp [Row.applied, Row.kept, rows, without, *]

theorem reads (h : ((Tree.table c.entries).without gone place).shownBy n = true) :
    ReadsUnless (c.Torn gone place) (StoreConfig.read d (depth + 2) path n)
      (c.without gone place) := by
  rw [← applied_rows]
  refine (c.lists.reads ?_ h).congr (by simp [rows, Torn])
  simp only [rows, List.forall_mem_cons, List.not_mem_nil, false_implies, implies_true, and_true]
  exact ⟨⟨_, rfl, fun _ _ h => (reads_text h).unless.bind_pure⟩,
    ⟨_, rfl, fun _ _ h => (reads_optionTree h).unless.bind_pure⟩,
    ⟨_, rfl, fun _ _ h => (Backend.reads h).bind_pure⟩⟩

end StoreConfig

namespace ToolConfig
variable {c : ToolConfig}

def without (gone : List String → Bool) (place : List String) (c : ToolConfig) : ToolConfig where
  program := if gone (place ++ ["program"]) then ({} : ToolConfig).program else c.program
  prefixArgs :=
    if gone (place ++ ["prefix_args"]) then ({} : ToolConfig).prefixArgs else c.prefixArgs

def rows (c : ToolConfig) : List (Row ToolConfig) :=
  [{ name := "program", tree := .text c.program, change := ({ · with program := c.program }) },
    { name := "prefix_args", tree := .list (c.prefixArgs.map .text)
      change := ({ · with prefixArgs := c.prefixArgs }) }]

theorem lists : Row.Lists c.rows gone place c.entries :=
  ⟨by simp [rows], by simp [rows, entries, Row.entry, Tree.without]⟩

theorem applied_rows : Row.applied (Row.kept gone place c.rows) {} = c.without gone place := by
  cases hprogram : gone (place ++ ["program"]) <;>
    cases hargs : gone (place ++ ["prefix_args"]) <;>
    simp [Row.applied, Row.kept, rows, without, *]

theorem reads (h : ((Tree.table c.entries).without gone place).shownBy n = true) :
    ReadsUnless False (ToolConfig.read d (depth + 2) path n) (c.without gone place) := by
  rw [← applied_rows]
  refine (c.lists.reads ?_ h).congr (by simp [rows])
  simp only [rows, List.forall_mem_cons, List.not_mem_nil, false_implies, implies_true, and_true]
  exact ⟨⟨_, rfl, fun _ _ h => (reads_text h).unless.bind_pure⟩,
    ⟨_, rfl, fun _ _ h => (reads_list h).unless.bind_pure⟩⟩

end ToolConfig

namespace StagingConfig
variable {c : StagingConfig}

def without (gone : List String → Bool) (place : List String) (c : StagingConfig) :
    StagingConfig where
  dir := if gone (place ++ ["dir"]) then ({} : StagingConfig).dir else c.dir
  retain := if gone (place ++ ["retain"]) then ({} : StagingConfig).retain else c.retain

def rows (c : StagingConfig) : List (Row StagingConfig) :=
  [{ name := "dir", tree := optionTree c.dir, change := ({ · with dir := c.dir }) },
    { name := "retain", tree := .bool c.retain, change := ({ · with retain := c.retain }) }]

theorem lists : Row.Lists c.rows gone place c.entries :=
  ⟨by simp [rows], by simp [rows, entries, Row.entry, Tree.without]⟩

theorem applied_rows : Row.applied (Row.kept gone place c.rows) {} = c.without gone place := by
  cases hdir : gone (place ++ ["dir"]) <;> cases hretain : gone (place ++ ["retain"]) <;>
    simp [Row.applied, Row.kept, rows, without, *]

theorem reads (h : ((Tree.table c.entries).without gone place).shownBy n = true) :
    ReadsUnless False (StagingConfig.read d (depth + 2) path n) (c.without gone place) := by
  rw [← applied_rows]
  refine (c.lists.reads ?_ h).congr (by simp [rows])
  simp only [rows, List.forall_mem_cons, List.not_mem_nil, false_implies, implies_true, and_true]
  exact ⟨⟨_, rfl, fun _ _ h => (reads_optionTree h).unless.bind_pure⟩,
    ⟨_, rfl, fun _ _ h => (reads_bool h).unless.bind_pure⟩⟩

end StagingConfig

namespace Config
variable {c : Config}

/-- The configuration with defaults where settings or whole sections are gone. -/
def without (gone : List String → Bool) (c : Config) : Config where
  database := if gone ["database"] then {} else c.database.without gone ["database"]
  store := if gone ["store"] then {} else c.store.without gone ["store"]
  dump := if gone ["dump"] then {} else c.dump.without gone ["dump"]
  restore := if gone ["restore"] then {} else c.restore.without gone ["restore"]
  staging := if gone ["staging"] then {} else c.staging.without gone ["staging"]

/-- Of the password's source or of the backend a part is gone, but not the whole. -/
def Torn (c : Config) (gone : List String → Bool) : Prop :=
  gone ["database"] = false ∧ c.database.Torn gone ["database"] ∨
    gone ["store"] = false ∧ c.store.Torn gone ["store"]

def rows (gone : List String → Bool) (c : Config) : List (Row Config) :=
  [{ name := "database", tree := (Tree.table c.database.entries).without gone ["database"]
     change := ({ · with database := c.database.without gone ["database"] })
     torn := c.database.Torn gone ["database"] },
    { name := "store", tree := (Tree.table c.store.entries).without gone ["store"]
      change := ({ · with store := c.store.without gone ["store"] })
      torn := c.store.Torn gone ["store"] },
    { name := "dump", tree := (Tree.table c.dump.entries).without gone ["dump"]
      change := ({ · with dump := c.dump.without gone ["dump"] }) },
    { name := "restore", tree := (Tree.table c.restore.entries).without gone ["restore"]
      change := ({ · with restore := c.restore.without gone ["restore"] }) },
    { name := "staging", tree := (Tree.table c.staging.entries).without gone ["staging"]
      change := ({ · with staging := c.staging.without gone ["staging"] }) }]

theorem lists : Row.Lists (c.rows gone) gone [] c.entries :=
  ⟨by simp [rows], by simp [rows, entries, Row.entry]⟩

theorem applied_rows : Row.applied (Row.kept gone [] (c.rows gone)) {} = c.without gone := by
  cases hdatabase : gone ["database"] <;> cases hstore : gone ["store"] <;>
    cases hdump : gone ["dump"] <;> cases hrestore : gone ["restore"] <;>
    cases hstaging : gone ["staging"] <;> simp [Row.applied, Row.kept, rows, without, *]

theorem reads (h : (c.tree.without gone []).shownBy n = true) :
    ReadsUnless (c.Torn gone) (Config.read d (depth + 3) path n) (c.without gone) := by
  rw [← applied_rows]
  refine (c.lists.reads ?_ h).congr (by simp [rows, Torn])
  simp only [rows, List.forall_mem_cons, List.not_mem_nil, false_implies, implies_true, and_true]
  exact ⟨⟨_, rfl, fun _ _ h => (DatabaseConfig.reads h).bind_pure⟩,
    ⟨_, rfl, fun _ _ h => (StoreConfig.reads h).bind_pure⟩,
    ⟨_, rfl, fun _ _ h => (ToolConfig.reads h).bind_pure⟩,
    ⟨_, rfl, fun _ _ h => (ToolConfig.reads h).bind_pure⟩,
    ⟨_, rfl, fun _ _ h => (StagingConfig.reads h).bind_pure⟩⟩

/-- The setting, or its whole section, is gone. -/
def Setting.isGone (s : Setting) (gone : List String → Bool) : Bool :=
  gone [s.part] || gone [s.part, s.key]

theorem get_without (s : Setting) : (c.without gone).get s =
    if s.isGone gone then ({} : Config).get s else c.get s := by
  cases hpart : gone [s.part] <;> cases hkey : gone [s.part, s.key] <;> cases s <;>
    simp_all [Setting.isGone, Setting.part, Setting.key, get, without, DatabaseConfig.without,
      StoreConfig.without, ToolConfig.without, StagingConfig.without]

theorem ofDocument_of_reads {e : Config} (h : Reads (Config.read d depthLimit .root d.root) e)
    (hwhole : d.interruption = none) (hsingle : d.more = false) : ofDocument d = .ok e := by
  rw [ofDocument, h 0]
  simp [hwhole, hsingle]

theorem ofDocument_of_fails (h : Fails (Config.read d depthLimit .root d.root)) :
    ∃ fault, ofDocument d = .error fault := by
  obtain ⟨fault, hfault⟩ := h 0
  exact ⟨fault, by rw [ofDocument, hfault]⟩

end Config

end Left

/-- The document shows the tree, and is whole and the only one. -/
def Yaml.Document.Holds (d : Document) (t : Tree) : Prop :=
  t.shownBy d.root = true ∧ d.interruption = none ∧ d.more = false

instance {d : Document} {t : Tree} : Decidable (d.Holds t) :=
  inferInstanceAs (Decidable (_ ∧ _ ∧ _))

theorem Yaml.Document.exists_holds (t : Tree) : ∃ d : Document, d.Holds t :=
  ⟨⟨t.node, [], 0, none, false⟩, t.shownBy_node, rfl, rfl⟩

/-- What is left of a configuration is read with defaults in the gaps, unless a tagged value has
been torn. -/
theorem partial_configuration_read {c : Config} {gone : List String → Bool} {d : Document}
    (h : d.Holds (c.tree.without gone [])) :
    (¬ c.Torn gone → ∃ e, Config.ofDocument d = .ok e ∧
      ∀ s, e.get s = if s.isGone gone then ({} : Config).get s else c.get s) ∧
    (c.Torn gone → ∃ fault, Config.ofDocument d = .error fault) ∧
    ((∀ place, gone place = false) → Config.ofDocument d = .ok c) := by
  obtain ⟨hshown, hwhole, hsingle⟩ := h
  have hread : ReadsUnless (c.Torn gone) (Config.read d depthLimit .root d.root) (c.without gone) :=
    Config.reads hshown
  have hok : ¬ c.Torn gone → Config.ofDocument d = .ok (c.without gone) :=
    fun hsound => Config.ofDocument_of_reads (hread.1 hsound) hwhole hsingle
  refine ⟨fun hsound => ⟨_, hok hsound, Config.get_without⟩,
    fun htorn => Config.ofDocument_of_fails (hread.2 htorn), fun hnone => ?_⟩
  have hsound : ¬ c.Torn gone := by
    simp [Config.Torn, DatabaseConfig.Torn, StoreConfig.Torn, SecretSource.Torn, Backend.Torn,
      hnone]
  have hsame : c.without gone = c := Config.eq_of_get fun s => by
    simp [Config.get_without, Config.Setting.isGone, hnone]
  rw [hok hsound, hsame]

/-- A document with gaps in and between its sections. -/
def gappedDocument : Document := .ofText
  "database:\n  host: db1\n  password: \n    from: file\n    path: /pw\nstaging:\n  retain: true"

def tornDocument : Document := .ofText "database:\n  host: db1\n  password:\n    from: file\n"

def fullConfig : Config where
  database := { host := "db1", name := "app", username := "admin", password := .file "/pw" }
  store := { bucket := "archives", backend := .directory "/backups" }
  restore := { program := "docker", prefixArgs := ["exec", "pg", "pg_restore"] }
  staging := { retain := true }

theorem partial_configuration_read_gapped :
    let gaps : List (List String) := [["database", "name"], ["database", "username"],
      ["store"], ["dump"], ["restore"], ["staging", "dir"]]
    let tears : List (List String) := [["database", "name"], ["database", "username"],
      ["database", "password", "path"], ["store"], ["dump"], ["restore"], ["staging"]]
    gappedDocument.Holds (fullConfig.tree.without gaps.contains []) ∧
      tornDocument.Holds (fullConfig.tree.without tears.contains []) ∧
      (∃ e, Config.ofDocument gappedDocument = .ok e ∧ e.get .host = "db1" ∧ e.get .name = "" ∧
        e.get .username = "backup" ∧ e.get .password = .file "/pw" ∧ e.get .backend = .gcs) ∧
      ∃ fault, Config.ofDocument tornDocument = .error fault := by
  intro gaps tears
  have hgapped : gappedDocument.Holds (fullConfig.tree.without gaps.contains []) := by
    decide +kernel
  have htorn : tornDocument.Holds (fullConfig.tree.without tears.contains []) := by
    decide +kernel
  have hsound : ¬ fullConfig.Torn gaps.contains := by
    simp [Config.Torn, DatabaseConfig.Torn, StoreConfig.Torn, SecretSource.Torn, gaps]
  obtain ⟨e, he, hget⟩ := (partial_configuration_read hgapped).1 hsound
  refine ⟨hgapped, htorn, ⟨e, he, hget .host, hget .name, hget .username, hget .password,
    hget .backend⟩, (partial_configuration_read htorn).2.1 ?_⟩
  exact .inl ⟨rfl, rfl, ("path", "/pw"), by simp [fullConfig, SecretSource.texts], rfl⟩

end DumpVault
