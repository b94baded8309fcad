import DumpVault.Proofs.Agreement

/-!
# Settings

A configuration is the sum of its settings. Each of them has a place of its own in a document, a key
within a section. It has the one value that is read there, and its default only where the document
does not have that place.
-/
namespace DumpVault
open Yaml Decode

namespace Config

inductive Setting
  | host | name | username | password
  | bucket | credentialsPath | backend
  | dumpProgram | dumpPrefixArgs
  | restoreProgram | restorePrefixArgs
  | stagingDir | retain
  deriving DecidableEq

namespace Setting

abbrev Value : Setting → Type
  | host | name | username | bucket | dumpProgram | restoreProgram => String
  | password => SecretSource
  | credentialsPath | stagingDir => Option String
  | backend => Backend
  | dumpPrefixArgs | restorePrefixArgs => List String
  | retain => Bool

/-- The section of a document in which the setting stands. -/
def part : Setting → String
  | host | name | username | password => "database"
  | bucket | credentialsPath | backend => "store"
  | dumpProgram | dumpPrefixArgs => "dump"
  | restoreProgram | restorePrefixArgs => "restore"
  | stagingDir | retain => "staging"

def key : Setting → String
  | host => "host"
  | name => "name"
  | username => "username"
  | password => "password"
  | bucket => "bucket"
  | credentialsPath => "credentials_path"
  | backend => "backend"
  | dumpProgram | restoreProgram => "program"
  | dumpPrefixArgs | restorePrefixArgs => "prefix_args"
  | stagingDir => "dir"
  | retain => "retain"

end Setting

def get (c : Config) : (s : Setting) → s.Value
  | .host => c.database.host
  | .name => c.database.name
  | .username => c.database.username
  | .password => c.database.password
  | .bucket => c.store.bucket
  | .credentialsPath => c.store.credentialsPath
  | .backend => c.store.backend
  | .dumpProgram => c.dump.program
  | .dumpPrefixArgs => c.dump.prefixArgs
  | .restoreProgram => c.restore.program
  | .restorePrefixArgs => c.restore.prefixArgs
  | .stagingDir => c.staging.dir
  | .retain => c.staging.retain

/-- A configuration has nothing beside its settings. -/
theorem eq_of_get {c d : Config} (h : ∀ s, c.get s = d.get s) : c = d := by
  obtain ⟨⟨_, _, _, _⟩, ⟨_, _, _⟩, ⟨_, _⟩, ⟨_, _⟩, _, _⟩ := c
  obtain ⟨⟨_, _, _, _⟩, ⟨_, _, _⟩, ⟨_, _⟩, ⟨_, _⟩, _, _⟩ := d
  obtain rfl := h .host
  obtain rfl := h .name
  obtain rfl := h .username
  obtain rfl := h .password
  obtain rfl := h .bucket
  obtain rfl := h .credentialsPath
  obtain rfl := h .backend
  obtain rfl := h .dumpProgram
  obtain rfl := h .dumpPrefixArgs
  obtain rfl := h .restoreProgram
  obtain rfl := h .restorePrefixArgs
  obtain rfl := h .stagingDir
  obtain rfl := h .retain
  rfl

/-- How the setting's value is read. -/
def Setting.read (d : Document) : (s : Setting) → Nat → Path → Node → Decode s.Value
  | .host | .name | .username | .bucket | .dumpProgram | .restoreProgram =>
    fun _ path n => text d "a string" path n
  | .password => SecretSource.read d
  | .credentialsPath | .stagingDir => fun _ path n => option d n (text d "path string" path)
  | .backend => Backend.read d
  | .dumpPrefixArgs | .restorePrefixArgs =>
    fun depth path n => list d path depth (fun _ path n => text d "a string" path n) n
  | .retain => fun _ path n => bool d path n

/-- The place of the setting in a document with the configuration at `n`. -/
def Setting.At (d : Document) (n : Node) (s : Setting) (v : Node) : Prop :=
  ∃ part, d.Under n s.part part ∧ d.Under part s.key v

/-- The value of a setting is its default when the document does not have the setting's place, or what
is read at the only place that it has. -/
def Origin (d : Document) (n : Node) (s : Setting) : s.Value → Prop :=
  Drawn (s.At d n) (s.read d) (({} : Config).get s)

/-- The document has the setting's place. -/
def Mentions (d : Document) (s : Setting) : Prop := ∃ v, s.At d d.root v

section Read
variable {d : Document} {depth : Nat} {path : Path} {n : Node} {c : Config} {s : Setting}

theorem Setting.agree_read (s : Setting) {depth' : Nat} {path' : Path} :
    Agree (s.read d depth path n) (s.read d depth' path' n) := by
  cases s with
  | host | name | username | bucket | dumpProgram | restoreProgram => exact agree_text
  | password => exact SecretSource.agree_read
  | credentialsPath | stagingDir => exact agree_option fun _ => agree_text
  | backend => exact Backend.agree_read
  | dumpPrefixArgs | restorePrefixArgs => exact agree_list fun _ _ _ _ _ => agree_text
  | retain => exact agree_bool

theorem Origin.unique {a b : s.Value} (ha : Origin d n s a) (hb : Origin d n s b) : a = b := by
  refine Drawn.unique (fun depth path depth' path' v => ?_) ha hb
  exact s.agree_read

/-- A setting comes from its section, and in the section from its own key. -/
theorem origin_of_drawn (s : Setting) {σ : Type} {read : Nat → Path → Node → Decode σ} {default x : σ}
    (get : σ → s.Value) (hdefault : get default = ({} : Config).get s)
    (hpart : Drawn (d.Under n s.part) read default x)
    (hkey : ∀ {depth path part}, Gives (read depth path part) x →
      Drawn (d.Under part s.key) (s.read d) (get default) (get x)) : Origin d n s (get x) := by
  rw [Origin, ← hdefault]
  cases hpart with
  | absent none => exact .absent fun v ⟨part, hpart, _⟩ => none part hpart
  | @entry part _ only depth path hread =>
    refine (hkey hread).congr fun v => ⟨?_, fun hv => ⟨part, (only part).mpr rfl, hv⟩⟩
    rintro ⟨part', hpart', hv⟩
    rwa [← (only part').mp hpart']

theorem origin_of_read (h : Gives (Config.read d depth path n) c) (s : Setting) :
    Origin d n s (c.get s) := by
  have hdatabase : Drawn (d.Under n "database") (DatabaseConfig.read d) {} c.database :=
    h.field Config.database (.own (.other (.other (.other (.other .nil)))))
  have hstore : Drawn (d.Under n "store") (StoreConfig.read d) {} c.store :=
    h.field Config.store (.other (.own (.other (.other (.other .nil)))))
  have hdump : Drawn (d.Under n "dump") (ToolConfig.read d) {} c.dump :=
    h.field Config.dump (.other (.other (.own (.other (.other .nil)))))
  have hrestore : Drawn (d.Under n "restore") (ToolConfig.read d) {} c.restore :=
    h.field Config.restore (.other (.other (.other (.own (.other .nil)))))
  have hstaging : Drawn (d.Under n "staging") (StagingConfig.read d) {} c.staging :=
    h.field Config.staging (.other (.other (.other (.other (.own .nil)))))
  cases s with
  | host =>
    exact origin_of_drawn .host DatabaseConfig.host rfl hdatabase fun hx =>
      hx.field DatabaseConfig.host (.own (.other (.other (.other .nil))))
  | name =>
    exact origin_of_drawn .name DatabaseConfig.name rfl hdatabase fun hx =>
      hx.field DatabaseConfig.name (.other (.own (.other (.other .nil))))
  | username =>
    exact origin_of_drawn .username DatabaseConfig.username rfl hdatabase fun hx =>
      hx.field DatabaseConfig.username (.other (.other (.own (.other .nil))))
  | password =>
    exact origin_of_drawn .password DatabaseConfig.password rfl hdatabase fun hx =>
      hx.field DatabaseConfig.password (.other (.other (.other (.own .nil))))
  | bucket =>
    exact origin_of_drawn .bucket StoreConfig.bucket rfl hstore fun hx =>
      hx.field StoreConfig.bucket (.own (.other (.other .nil)))
  | credentialsPath =>
    exact origin_of_drawn .credentialsPath StoreConfig.credentialsPath rfl hstore fun hx =>
      hx.field StoreConfig.credentialsPath (.other (.own (.other .nil)))
  | backend =>
    exact origin_of_drawn .backend StoreConfig.backend rfl hstore fun hx =>
      hx.field StoreConfig.backend (.other (.other (.own .nil)))
  | dumpProgram =>
    exact origin_of_drawn .dumpProgram ToolConfig.program rfl hdump fun hx =>
      hx.field ToolConfig.program (.own (.other .nil))
  | dumpPrefixArgs =>
    exact origin_of_drawn .dumpPrefixArgs ToolConfig.prefixArgs rfl hdump fun hx =>
      hx.field ToolConfig.prefixArgs (.other (.own .nil))
  | restoreProgram =>
    exact origin_of_drawn .restoreProgram ToolConfig.program rfl hrestore fun hx =>
      hx.field ToolConfig.program (.own (.other .nil))
  | restorePrefixArgs =>
    exact origin_of_drawn .restorePrefixArgs ToolConfig.prefixArgs rfl hrestore fun hx =>
      hx.field ToolConfig.prefixArgs (.other (.own .nil))
  | stagingDir =>
    exact origin_of_drawn .stagingDir StagingConfig.dir rfl hstaging fun hx =>
      hx.field StagingConfig.dir (.own (.other .nil))
  | retain =>
    exact origin_of_drawn .retain StagingConfig.retain rfl hstaging fun hx =>
      hx.field StagingConfig.retain (.other (.own .nil))

theorem read_of_ofDocument (h : ofDocument d = .ok c) :
    Gives (Config.read d depthLimit .root d.root) c := by
  rw [ofDocument] at h
  cases hread : Config.read d depthLimit .root d.root 0 with
  | error fault =>
    rw [hread] at h
    cases h
  | ok r =>
    rw [hread] at h
    dsimp only at h
    split at h
    · cases h
    · split at h <;> cases h
      exact ⟨0, r.2, hread⟩

/-- The value of a setting is the one that comes from the document. -/
theorem origin_iff (h : ofDocument d = .ok c) (s : Setting) {value : s.Value} :
    Origin d d.root s value ↔ value = c.get s := by
  have horigin := origin_of_read (read_of_ofDocument h) s
  constructor
  · exact fun hvalue => hvalue.unique horigin
  · rintro rfl
    exact horigin

theorem get_of_not_mentioned (h : ofDocument d = .ok c) (hs : ¬ Mentions d s) :
    c.get s = ({} : Config).get s :=
  ((origin_iff h s).mp (.absent fun v hv => hs ⟨v, hv⟩)).symm

theorem gives_of_at {v : Node} (h : ofDocument d = .ok c) (hv : s.At d d.root v) :
    ∃ depth path, Gives (s.read d depth path v) (c.get s) := by
  generalize hvalue : c.get s = value
  cases (origin_iff h s).mpr hvalue.symm with
  | absent none => exact absurd hv (none v)
  | entry only depth path read =>
    obtain rfl := (only v).mp hv
    exact ⟨depth, path, read⟩

end Read
end Config
end DumpVault
