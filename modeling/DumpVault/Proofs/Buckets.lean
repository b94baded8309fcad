import DumpVault.Proofs.Durability
import DumpVault.Proofs.Sparing

/-!
# Buckets within one root

The directory of a bucket is named by the path of the root with the bucket's name behind it. The
checks of a configuration keep slashes out of the name, but not the names `.` and `..`: these lead to
the root itself and to the directory above it. All other buckets lie side by side in the root, and
whatever is done through one of them is not felt in any other.
-/
namespace DumpVault
open Prog World

/-- A name that leads into the root. -/
def StoreConfig.IsProper (s : StoreConfig) : Prop := s.bucket ≠ "." ∧ s.bucket ≠ ".."

def StoreConfig.place (cwd : Location) (root : String) (s : StoreConfig) : Location :=
  Location.named cwd (joinPath root s.bucket)

variable {cwd : Location} {root name : String} {s s' : StoreConfig}

theorem requireText_ok {field value : String} (h : requireText field value = .ok ()) :
    ¬ Text.AllBlank value := by
  rw [requireText] at h
  split at h
  · cases h
  · assumption

/-- A bucket that passes the checks has a name without slashes. -/
theorem StoreConfig.name_of_valid (h : s.validate = .ok ()) :
    s.bucket ≠ "" ∧ '/' ∉ s.bucket.toList := by
  rw [StoreConfig.validate] at h
  cases hblank : requireText "store.bucket" s.bucket with
  | error fault =>
    rw [hblank] at h
    cases h
  | ok =>
    rw [hblank] at h
    simp only [Bind.bind, Except.bind] at h
    split at h
    · cases h
    · next hslash =>
      refine ⟨fun hempty => requireText_ok hblank fun c hc => ?_, by simpa using hslash⟩
      rw [hempty] at hc
      exact absurd hc List.not_mem_nil

theorem names_append_slash (path name : String) :
    (PathText.ofString (path ++ "/" ++ name)).names =
      (PathText.ofString path).names ++ (PathText.ofString name).names := by
  simp only [PathText.ofString, slashParts_append_slash, List.filter_append]

theorem names_slash (path : String) :
    (PathText.ofString (path ++ "/")).names = (PathText.ofString path).names := by
  have h := names_append_slash path ""
  rw [String.append_empty] at h
  rw [h]
  simp [PathText.ofString, slashParts]

theorem absolute_append {path : String} (hpath : path ≠ "") (more : String) :
    (PathText.ofString (path ++ more)).absolute = (PathText.ofString path).absolute := by
  simp only [PathText.ofString, String.toList_append]
  cases hchars : path.toList with
  | nil => exact absurd (String.toList_inj.mp hchars) hpath
  | cons c cs => rfl

theorem ofString_joinPath (hslash : '/' ∉ name.toList) :
    (PathText.ofString (joinPath root name)).names =
        (PathText.ofString root).names ++ (PathText.ofString name).names ∧
      (PathText.ofString (joinPath root name)).absolute = (PathText.ofString root).absolute := by
  have hrelative : (name.toList.head? == some '/') = false := by
    cases hname : name.toList with
    | nil => rfl
    | cons c cs =>
      rw [hname] at hslash
      have hc : c ≠ '/' := fun hc => hslash (hc ▸ List.mem_cons_self)
      simpa using hc
  rw [joinPath, hrelative]
  simp only [Bool.false_eq_true, if_false]
  split
  · next hroot =>
    rcases Bool.or_eq_true_iff.mp hroot with hroot | hroot
    · obtain rfl : root = "" := by simpa using hroot
      rw [String.empty_append]
      refine ⟨by simp [PathText.ofString, slashParts], ?_⟩
      simp only [PathText.ofString, hrelative]
      rfl
    · obtain ⟨cs, hcs⟩ := List.getLast?_eq_some_iff.mp (by simpa using hroot)
      obtain rfl : root = String.ofList cs ++ "/" := by
        apply String.toList_inj.mp
        simp [hcs]
      refine ⟨?_, absolute_append (fun hnil => ?_) name⟩
      · rw [names_append_slash, names_slash]
      · simpa using congrArg String.toList hnil
  · next hroot =>
    rw [Bool.or_eq_true, not_or] at hroot
    have hne : root ≠ "" := by simpa using hroot.1
    rw [String.append_assoc]
    refine ⟨?_, absolute_append hne _⟩
    rw [← String.append_assoc, names_append_slash]

/-- The dot names lead to the root and above it, every other name into the root. -/
theorem StoreConfig.place_eq (h : s.validate = .ok ()) :
    s.place cwd root =
      if s.bucket = "." then Location.named cwd root
      else if s.bucket = ".." then (Location.named cwd root).dropLast
      else Location.named cwd root ++ [s.bucket] := by
  obtain ⟨hempty, hslash⟩ := s.name_of_valid h
  have hplace : s.place cwd root =
      (Location.named cwd root).follow (PathText.ofString s.bucket).names := by
    obtain ⟨hnames, habsolute⟩ := ofString_joinPath hslash
    rw [place, Location.named, hnames, habsolute, Location.follow_append]
    rfl
  rw [hplace]
  simp only [PathText.ofString, slashParts_of_noSlash hslash, List.filter_cons, List.filter_nil]
  by_cases hself : s.bucket = "."
  · simp [hself]
  · by_cases hup : s.bucket = ".."
    · simp [hup, Location.follow_cons]
    · simp [hself, hup, hempty, Location.follow_cons]

/-- A bucket's directory lies directly in the root exactly when its name is proper. -/
theorem StoreConfig.place_direct_iff (h : s.validate = .ok ()) :
    s.place cwd root = Location.named cwd root ++ [s.bucket] ↔ s.IsProper := by
  rw [place_eq h, IsProper]
  constructor
  · intro hplace
    refine ⟨fun hself => ?_, fun hup => ?_⟩
    · rw [if_pos hself] at hplace
      have := congrArg List.length hplace
      simp at this
    · rw [if_neg (by rw [hup]; decide), if_pos hup] at hplace
      have := congrArg List.length hplace
      simp at this
  · rintro ⟨hself, hup⟩
    rw [if_neg hself, if_neg hup]

def Location.Apart (l m : Location) : Prop := ¬ l <+: m ∧ ¬ m <+: l

/-- Different buckets are apart exactly when both have proper names. -/
theorem StoreConfig.apart_iff (h : s.validate = .ok ()) (h' : s'.validate = .ok ())
    (hne : s.bucket ≠ s'.bucket) :
    Location.Apart (s.place cwd root) (s'.place cwd root) ↔ s.IsProper ∧ s'.IsProper := by
  have hdots : ∀ {s s' : StoreConfig}, s.validate = .ok () → s'.validate = .ok () →
      s.bucket ≠ s'.bucket → ¬ s.IsProper → s.place cwd root <+: s'.place cwd root ∨
        s'.place cwd root <+: s.place cwd root := by
    intro s s' h h' hne hdot
    have hroot : (Location.named cwd root).dropLast <+: Location.named cwd root :=
      List.dropLast_prefix _
    rw [place_eq h, place_eq h']
    by_cases hself : s.bucket = "."
    · by_cases hup' : s'.bucket = ".."
      · right
        simpa [hself, hup'] using hroot
      · left
        have hself' : s'.bucket ≠ "." := fun heq => hne (hself.trans heq.symm)
        simp [hself, hself', hup']
    · by_cases hup : s.bucket = ".."
      · have hup' : s'.bucket ≠ ".." := fun heq => hne (hup.trans heq.symm)
        left
        by_cases hself' : s'.bucket = "."
        · simpa [hup, hself'] using hroot
        · simpa [hup, hself', hup'] using hroot.trans (List.prefix_append _ _)
      · exact absurd ⟨hself, hup⟩ hdot
  constructor
  · rintro ⟨hleft, hright⟩
    refine ⟨Classical.byContradiction fun hdot => ?_, Classical.byContradiction fun hdot => ?_⟩
    · rcases hdots h h' hne hdot with hpre | hpre
      · exact hleft hpre
      · exact hright hpre
    · rcases hdots h' h hne.symm hdot with hpre | hpre
      · exact hright hpre
      · exact hleft hpre
  · rintro ⟨hs, hs'⟩
    rw [(place_direct_iff h).mpr hs, (place_direct_iff h').mpr hs', Location.Apart]
    simp [List.prefix_append_right_inj, hne, hne.symm]

/-- Writes chunks in turn, until one is not taken in. -/
def writeAll (wr : Writer) : List ByteArray → Prog Bool
  | [] => return true
  | chunk :: chunks => do
    match ← Prog.ask (.write wr chunk) with
    | .accepted => writeAll wr chunks
    | _ => return false

def endWriter (wr : Writer) (discard : Bool) : Prog (Except IoFault Unit) :=
  if discard then Prog.ask (.abort wr) else Prog.ask (.finalize wr)

/-- Puts a blob under a key, or discards what has been put in. -/
def putBlob (key : Key) (chunks : List ByteArray) (discard : Bool) : Prog (Except Fault Bool) := do
  match ← Prog.ask (.openWriter key) with
  | .error fault => return .error fault
  | .ok wr =>
    if ← writeAll wr chunks then
      return .ok (← endWriter wr discard).isOk
    else return .ok false

theorem only_writeAll (wr : Writer) (chunks : List ByteArray) :
    (writeAll wr chunks).Only Call.isOfStore := by
  induction chunks with
  | nil => exact only_pure _
  | cons chunk chunks ih =>
    refine only_ask_bind trivial fun taken => ?_
    cases taken with
    | accepted => exact ih
    | failed | interrupted => exact only_pure _

theorem only_putBlob (key : Key) (chunks : List ByteArray) (discard : Bool) :
    (putBlob key chunks discard).Only Call.isOfStore := by
  refine only_ask_bind trivial fun opened => ?_
  cases opened with
  | error fault => exact only_pure _
  | ok wr =>
    have hend : (endWriter wr discard).Only Call.isOfStore := by
      cases discard with
      | false => exact only_ask trivial
      | true => exact only_ask trivial
    refine only_bind (only_writeAll wr chunks) fun written => ?_
    cases written with
    | false => exact only_pure _
    | true => exact only_bind hend fun _ => only_pure _

/-- A world with the stores that have been opened in it. -/
structure Desk (ι : Type) where
  world : World
  vaults : ι → Option Vault

variable {ι : Type} [DecidableEq ι]

namespace Desk

def files (d : Desk ι) : FileTree := d.world.host.files

def focus (d : Desk ι) (v : Vault) : World :=
  { d.world with host := { d.world.host with vault := v } }

def leave (d : Desk ι) (i : ι) (w : World) : Desk ι :=
  ⟨w, fun j => if j = i then some w.host.vault else d.vaults j⟩

end Desk

/-- Something is done through the bucket of one configuration. -/
inductive Deals (S : Setting) (s : ι → StoreConfig) : Desk ι → ι → Desk ι → Prop
  | connect {d : Desk ι} {i : ι} {w : World}
      (h : d.world.Answers S (.connect (s i)) (.ok ()) w) : Deals S s d i (d.leave i w)
  | refused {d : Desk ι} {i : ι} {fault : BlobFault} {w : World}
      (h : d.world.Answers S (.connect (s i)) (.error fault) w) : Deals S s d i ⟨w, d.vaults⟩
  | put {d : Desk ι} {i : ι} {v : Vault} {key : Key} {chunks : List ByteArray} {discard : Bool}
      {r : Except Fault Bool} {w : World} (hv : d.vaults i = some v)
      (h : Runs S (d.focus v) (putBlob key chunks discard) r w) : Deals S s d i (d.leave i w)
  | operate {d : Desk ι} {i : ι} {v : Vault} {e : Event} {w : World} (hv : d.vaults i = some v)
      (h : Happens S (d.focus v) e w) : Deals S s d i (d.leave i w)

/-- Things are done one after the other, each through any of the buckets. -/
inductive Dealings (S : Setting) (s : ι → StoreConfig) : Desk ι → Desk ι → Prop
  | nil (d : Desk ι) : Dealings S s d d
  | snoc {d d₁ d₂ : Desk ι} {i : ι} (h : Dealings S s d d₁) (hlast : Deals S s d₁ i d₂) :
      Dealings S s d d₂

variable {S : Setting} {s : ι → StoreConfig} {d d' : Desk ι}

/-- Every store that has been opened stays in the directory of its bucket. -/
structure Desk.IsSettled (cwd : Location) (root : String) (s : ι → StoreConfig) (d : Desk ι) :
    Prop where
  home : d.world.host.cwd = cwd
  bound : ∀ i v, d.vaults i = some v → v.IsBound ((s i).place cwd root)

theorem connect_refused {c : StoreConfig} {fault : BlobFault} {w w' : World}
    (hbackend : c.backend = .directory root)
    (h : w.Answers S (.connect c) (.error fault) w') : w' = w := by
  rcases h with ⟨hreply, rfl⟩ | ⟨_, rfl⟩
  · have hhost : (w.host.connect c).2 = w.host := connect_error hbackend hreply.symm
    simp only [World.after, Host.answer, hhost]
  · rfl

theorem connect_served {c : StoreConfig} {w w' : World} (hcwd : w.host.cwd.IsClean)
    (hbackend : c.backend = .directory root) (h : w.Answers S (.connect c) (.ok ()) w') :
    w'.host.cwd = w.host.cwd ∧ w'.host.vault.IsBound (c.place w.host.cwd root) ∧
      ∀ l, w'.host.files.at? l = w.host.files.at? l ∨
        (w.host.files.at? l = none ∧ w'.host.files.at? l = some .directory) := by
  rcases h with ⟨hreply, rfl⟩ | ⟨⟨_, hfault⟩, _⟩
  · have hopen : w.host.connect c = (.ok (), (w.host.connect c).2) := Prod.ext hreply.symm rfl
    obtain ⟨files, hmake, hhost⟩ := connect_directory hbackend hopen
    have hafter : (w.after (.connect c)).host = (w.host.connect c).2 := rfl
    rw [hafter, hhost]
    refine ⟨rfl, ⟨_, rfl, rfl, Location.isClean_named hcwd _, fun _ he => ?_⟩,
      FileTree.makeDirectories_ok hmake⟩
    exact absurd he List.not_mem_nil
  · cases hfault

theorem operation_spares {w w' : World} {base : Location} {e : Event}
    (hv : w.host.vault.IsBound base) (h : Happens S w e w') : Spares S base w w' := by
  obtain ⟨o, r⟩ := e
  cases ho : o.reads with
  | true => exact spares_of_only hv ((only_of_reads ho _).mono fun _ => isSparing_of_calm) h
  | false =>
    cases o with
    | archive config =>
      obtain ⟨a, w₁, hconfig, hrun⟩ := runs_bind.mp h
      have hfirst :=
        spares_of_only hv ((only_ofConfig _ config).mono fun _ => isSparing_of_calm) hconfig
      exact hfirst.trans (archive_spares hfirst.bound hrun)
    | restore | list | lookup | fetch => cases ho

theorem Desk.IsSettled.leave {i : ι} {w : World} (hd : d.IsSettled cwd root s)
    (hcwd : w.host.cwd = cwd) (hbound : w.host.vault.IsBound ((s i).place cwd root)) :
    (d.leave i w).IsSettled cwd root s := by
  refine ⟨hcwd, fun j v hv => ?_⟩
  simp only [Desk.leave] at hv
  split at hv
  · next hj =>
    rw [hj, ← Option.some.inj hv]
    exact hbound
  · exact hd.bound j v hv

/-- What is done through a bucket leaves all stores settled and spares what lies around the bucket's
directory. -/
theorem deals_spare {i : ι} (hcwd : cwd.IsClean) (hbackend : ∀ i, (s i).backend = .directory root)
    (hd : d.IsSettled cwd root s) (h : Deals S s d i d') : d'.IsSettled cwd root s ∧
      ∀ l, S.kept l → ¬ S.staging l → ¬ (s i).place cwd root <+: l →
        d'.files.at? l = d.files.at? l ∨
          (d.files.at? l = none ∧ d'.files.at? l = some .directory) := by
  have hrun : ∀ {v : Vault} {w : World}, d.vaults i = some v →
      ((d.focus v).host.vault.IsBound ((s i).place cwd root) →
        Spares S ((s i).place cwd root) (d.focus v) w) →
      (d.leave i w).IsSettled cwd root s ∧
        ∀ l, S.kept l → ¬ S.staging l → ¬ (s i).place cwd root <+: l →
          w.host.files.at? l = d.files.at? l ∨
            (d.files.at? l = none ∧ w.host.files.at? l = some .directory) := by
    intro v w hv hspares
    have hspares := hspares (hd.bound i v hv)
    exact ⟨hd.leave (hspares.cwd.trans hd.home) hspares.bound, hspares.files⟩
  cases h with
  | put hv h =>
    exact hrun hv fun hbound =>
      spares_of_only hbound ((only_putBlob _ _ _).mono fun _ => isSparing_of_store) h
  | operate hv h => exact hrun hv fun hbound => operation_spares hbound h
  | refused h => exact (connect_refused (hbackend i) h).symm ▸ ⟨hd, fun _ _ _ _ => .inl rfl⟩
  | connect h =>
    obtain ⟨hcwd', hbound, hfiles⟩ := connect_served (hd.home ▸ hcwd) (hbackend i) h
    rw [hd.home] at hcwd' hbound
    exact ⟨hd.leave hcwd' hbound, fun l _ _ _ => hfiles l⟩

/-- What holds between buckets of one root, whatever has been done through them. -/
structure Desk.Isolated (cwd : Location) (root : String) (s : ι → StoreConfig) (d : Desk ι) :
    Prop where
  base : ∀ i v, d.vaults i = some v → v.base? = some ((s i).place cwd root)
  direct : ∀ i, (s i).place cwd root = Location.named cwd root ++ [(s i).bucket] ↔ (s i).IsProper
  apart : ∀ i j, i ≠ j → (Location.Apart ((s i).place cwd root) ((s j).place cwd root) ↔
    (s i).IsProper ∧ (s j).IsProper)
  /-- Outside of the bucket's directory no file comes, changes or goes; what utilities do and the
  staging files of dumps are another matter. -/
  frame : ∀ (S : Setting) i d', Deals S s d i d' → ∀ l, S.kept l → ¬ S.staging l →
    ¬ (s i).place cwd root <+: l → d'.files.at? l = d.files.at? l ∨
      (d.files.at? l = none ∧ d'.files.at? l = some .directory)
  /-- The calls of the store change nothing at all out there, the way to the directory apart. -/
  calls : ∀ (S : Setting) i v, d.vaults i = some v → ∀ {α : Type} (p : Prog α) a w,
    p.Only Call.isOfStore → Runs S (d.focus v) p a w →
      FileTree.ChangedWithin ((s i).place cwd root) d.files w.host.files
  /-- No blob of another bucket is lost or changed. -/
  blobs : ∀ (S : Setting) i j d' v, i ≠ j → (s i).IsProper → (s j).IsProper →
    Deals S s d i d' → d.vaults j = some v →
    (∀ l, v.Territory l → S.kept l ∧ ¬ S.staging l) →
    d'.vaults j = some v ∧ ∀ p content, Location.IsClean p.segments →
      v.Stores d.files p content → v.Stores d'.files p content
  /-- Through the store a run sees nothing but the part of the files near the bucket's directory. -/
  unseen : ∀ i v, d.vaults i = some v → ∀ {α : Type} (p : Prog α), p.Only Call.isOfStore →
    ((d.focus v).host.perform p).1 =
      (((d.focus v).host.part ((s i).place cwd root)).perform p).1
  /-- No other bucket has anything in that part. -/
  hidden : ∀ i j, i ≠ j → (s i).IsProper → (s j).IsProper → ∀ l, (s j).place cwd root <+: l →
    ¬ (s i).place cwd root <+: l ∧ (d.files.part ((s i).place cwd root)).at? l = none

theorem not_prefix_of_apart {l m n : Location} (h : Location.Apart l m) (hn : m <+: n) :
    ¬ l <+: n := by
  intro hl
  rcases List.prefix_or_prefix_of_prefix hl hn with hpre | hpre
  · exact h.1 hpre
  · exact h.2 hpre

theorem isNear_of_apart {l m n : Location} (h : Location.Apart l m) (hn : m <+: n) :
    Location.isNear l n = false := by
  rw [← Bool.not_eq_true, FileTree.isNear_iff, not_or]
  exact ⟨fun hnl => h.2 (hn.trans hnl), not_prefix_of_apart h hn⟩

theorem Vault.IsBound.base?_eq {v : Vault} {base : Location} (h : v.IsBound base) :
    v.base? = some base := by
  obtain ⟨bucket, storage⟩ := v
  obtain ⟨d, hstorage, rfl, _⟩ := h
  obtain rfl : storage = .directory d := hstorage
  rfl

theorem Deals.vaults_ne {i j : ι} (h : Deals S s d i d') (hj : j ≠ i) :
    d'.vaults j = d.vaults j := by
  cases h with
  | connect | put | operate => simp only [Desk.leave, if_neg hj]
  | refused => rfl

theorem Vault.IsBound.stores_of_kept {v : Vault} {base : Location} {t t' : FileTree}
    {p : StorePath} {content : ByteArray} (h : v.IsBound base) (hp : Location.IsClean p.segments)
    (hstored : v.Stores t p content)
    (hkept : ∀ l e, l <+: base ++ p.segments → t.at? l = some e → t'.at? l = some e) :
    v.Stores t' p content := by
  obtain ⟨bucket, storage⟩ := v
  obtain ⟨d, hstorage, rfl, hd⟩ := h
  obtain rfl : storage = .directory d := hstorage
  exact DirectoryStore.get_of_kept hd.clean hp rfl hstored hkept

theorem Dealings.settled {w : World} (hcwd : w.host.cwd.IsClean)
    (hbackend : ∀ i, (s i).backend = .directory root)
    (h : Dealings S s ⟨w, fun _ => none⟩ d) : d.IsSettled w.host.cwd root s := by
  induction h with
  | nil => exact ⟨rfl, fun i v hv => (by cases hv)⟩
  | snoc _ hlast ih => exact (deals_spare hcwd hbackend ih hlast).1

/-- Of two buckets of one root, named differently, both lie directly in the root and apart from each
other exactly when neither is called by a dot name. Then nothing that is done through one of them, at
any point of a session on all of them, is felt in the other. -/
theorem buckets_isolated {w : World} (hcwd : w.host.cwd.IsClean)
    (hvalid : ∀ i, (s i).validate = .ok ()) (hbackend : ∀ i, (s i).backend = .directory root)
    (hdiffer : ∀ i j, i ≠ j → (s i).bucket ≠ (s j).bucket)
    (h : Dealings S s ⟨w, fun _ => none⟩ d) : d.Isolated w.host.cwd root s := by
  have hsettled := h.settled hcwd hbackend
  have hapart : ∀ i j, i ≠ j → (s i).IsProper → (s j).IsProper →
      Location.Apart ((s i).place w.host.cwd root) ((s j).place w.host.cwd root) :=
    fun i j hij hi hj =>
      (StoreConfig.apart_iff (hvalid i) (hvalid j) (hdiffer i j hij)).mpr ⟨hi, hj⟩
  refine ⟨?_, ?_, ?_, ?_, ?_, ?_, ?_, ?_⟩
  · intro i v hv
    exact (hsettled.bound i v hv).base?_eq
  · intro i
    exact StoreConfig.place_direct_iff (hvalid i)
  · intro i j hij
    exact StoreConfig.apart_iff (hvalid i) (hvalid j) (hdiffer i j hij)
  · intro T i d' hdeals
    exact (deals_spare hcwd hbackend hsettled hdeals).2
  · intro T i v hv α p a u hp hrun
    have hbound : (d.focus v).host.vault.IsBound ((s i).place w.host.cwd root) :=
      hsettled.bound i v hv
    exact changedWithin_of_only (w := d.focus v) hbound hp hrun
  · intro T i j d' v hij hi hj hdeals hv hterritory
    have hbound := hsettled.bound j v hv
    refine ⟨(hdeals.vaults_ne hij.symm).trans hv, fun p content hp hstored => ?_⟩
    refine hbound.stores_of_kept hp hstored fun l e hl he => ?_
    have hnear : v.Territory l :=
      ⟨_, hbound.base?_eq, List.prefix_or_prefix_of_prefix hl (List.prefix_append _ _)⟩
    obtain ⟨hkept, hstaging⟩ := hterritory l hnear
    have hout : ¬ (s i).place w.host.cwd root <+: l := fun hin =>
      not_prefix_of_apart (hapart i j hij hi hj) (List.prefix_append _ _) (hin.trans hl)
    rcases (deals_spare hcwd hbackend hsettled hdeals).2 l hkept hstaging hout with heq | ⟨hnone, _⟩
    · rw [heq, he]
    · rw [he] at hnone
      cases hnone
  · intro i v hv α p hp
    have hbound : (d.focus v).host.vault.IsBound ((s i).place w.host.cwd root) :=
      hsettled.bound i v hv
    rw [Host.perform_part hbound hp]
  · intro i j hij hi hj l hl
    have hij' := hapart i j hij hi hj
    exact ⟨not_prefix_of_apart hij' hl, FileTree.at?_part_of_far (isNear_of_apart hij' hl)⟩

def bare : Host := { files := .empty, cwd := [], environment := .empty }

def bucketOf (bucket : String) : StoreConfig := { bucket, backend := .directory "/store" }

def sideBySide : Bool → StoreConfig
  | true => bucketOf "archives"
  | false => bucketOf "reports"

def oneOpened : Desk Bool :=
  Desk.leave ⟨⟨bare, {}⟩, fun _ => none⟩ true (World.after ⟨bare, {}⟩ (.connect (bucketOf "archives")))

def onePut : Desk Bool :=
  oneOpened.leave true ((putBlob (.mint .epoch) [⟨#[120]⟩] false).run (rehearse .empty)
    (oneOpened.focus oneOpened.world.host.vault)).2

def bothOpened : Desk Bool :=
  onePut.leave false (onePut.world.after (.connect (bucketOf "reports")))

theorem dealings_bothOpened : Dealings aside sideBySide ⟨⟨bare, {}⟩, fun _ => none⟩ bothOpened := by
  have hconnect : Deals aside sideBySide ⟨⟨bare, {}⟩, fun _ => none⟩ true oneOpened :=
    .connect (.inl ⟨by decide +kernel, rfl⟩)
  have hput : Deals aside sideBySide oneOpened true onePut :=
    .put rfl (runs_run (rehearse .empty) (rehearse_answers _) _ _)
  have hother : Deals aside sideBySide onePut false bothOpened :=
    .connect (.inl ⟨by decide +kernel, rfl⟩)
  exact .snoc (.snoc (.snoc (.nil _) hconnect) hput) hother

theorem buckets_isolated_side_by_side :
    (bothOpened.vaults true).isSome ∧ (bothOpened.vaults false).isSome ∧
      bothOpened.files.content? ["store", "archives", (Key.mint .epoch).text] = some ⟨#[120]⟩ ∧
      bothOpened.Isolated [] "/store" sideBySide := by
  refine ⟨rfl, rfl, by decide +kernel, buckets_isolated (w := ⟨bare, {}⟩) ?_ ?_ ?_ ?_ dealings_bothOpened⟩
  · exact fun _ hs => absurd hs List.not_mem_nil
  · intro i
    cases i <;> decide +kernel
  · intro i
    cases i <;> rfl
  · intro i j hij
    cases i <;> cases j <;> first | exact absurd rfl hij | decide

/-- The bucket `.` passes the checks and lists what has been stored in another bucket. -/
theorem dot_lists_others : (bucketOf ".").validate = .ok () ∧ (bucketOf "reports").validate = .ok () ∧
    (bucketOf ".").place [] "/store" = ["store"] ∧
    (bucketOf "reports").place [] "/store" = ["store", "reports"] ∧
    (((((bare.connect (bucketOf "reports")).2.perform
      (putBlob ⟨"k", by decide⟩ [⟨#[120]⟩] false)).2.connect (bucketOf ".")).2.perform
      Restorer.available).1 = .ok [⟨"reports/k", by decide⟩]) := by
  refine ⟨by decide +kernel, by decide +kernel, by decide +kernel, by decide +kernel, ?_⟩
  decide +kernel

end DumpVault
