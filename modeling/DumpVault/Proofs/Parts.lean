import DumpVault.Proofs.Orderly
import DumpVault.Proofs.World
import Mathlib.Data.Nat.Find

/-!
# The part of a machine that a store sees

A store in a directory depends on the places that lead to its directory and on those below it. Cut
down to these places, a tree answers every operation of the store in the same way, and cutting down
before or after the operation makes no difference. So nothing outside can be seen through the store.
-/
namespace DumpVault

/-- A place that leads to `base` or lies there or below. -/
def Location.isNear (base l : Location) : Bool := l.isPrefixOf base || base.isPrefixOf l

namespace FileTree

variable {t t' : FileTree} {base l m : Location} {e : Entry}

theorem isNear_iff : Location.isNear base l = true ↔ l <+: base ∨ base <+: l := by
  simp [Location.isNear]

theorem isNear_mono (hl : Location.isNear base l = true) (hm : m <+: l) :
    Location.isNear base m = true := by
  rw [isNear_iff] at hl ⊢
  rcases hl with hl | hl
  · exact .inl (hm.trans hl)
  · exact List.prefix_or_prefix_of_prefix hm hl

def part (base : Location) (t : FileTree) : FileTree :=
  ⟨t.entries.filter fun x => Location.isNear base x.1⟩

theorem at?_part (hl : Location.isNear base l = true) : (t.part base).at? l = t.at? l := by
  unfold at? part
  split
  · rfl
  · congr 1
    rw [List.find?_filter]
    congr 1
    funext x
    by_cases hx : x.1 = l
    · simp [hx, hl]
    · simp [hx]

theorem at?_part_of_far (hl : Location.isNear base l = false) : (t.part base).at? l = none := by
  have hne : l ≠ [] := by
    rintro rfl
    simp [Location.isNear] at hl
  have hempty : l.isEmpty = false := by simpa using hne
  rw [at?, hempty, part, List.find?_filter, List.find?_eq_none.mpr]
  · rfl
  · rintro x _ hx
    simp only [beq_iff_eq, decide_eq_true_eq] at hx
    rw [hx.2, hl] at hx
    cases hx.1

theorem content?_part (hl : Location.isNear base l = true) :
    (t.part base).content? l = t.content? l := by
  rw [content?, at?_part hl, content?]

theorem part_erase (base l : Location) (t : FileTree) :
    (t.part base).erase l = (t.erase l).part base := by
  simp only [erase, part, List.filter_filter, Bool.and_comm]

theorem part_put (hl : Location.isNear base l = true) :
    (t.part base).put l e = (t.put l e).part base := by
  have hrest := part_erase base l t
  simp only [erase, part, FileTree.mk.injEq] at hrest
  simp only [put, part, List.filter_cons, hl, if_true, hrest]

theorem part_dropFile (hl : Location.isNear base l = true) :
    (t.part base).dropFile l = (t.dropFile l).part base := by
  rw [dropFile, content?_part hl, dropFile]
  split
  · exact part_erase base l t
  · rfl

theorem part_renameFile {source target : Location} (hs : Location.isNear base source = true)
    (ht : Location.isNear base target = true) :
    (t.part base).renameFile source target = (t.renameFile source target).map (part base) := by
  rw [renameFile, at?_part hs, at?_part ht, renameFile]
  split
  · rw [part_erase, part_put ht]
    rfl
  · rw [part_erase, part_put ht]
    rfl
  all_goals rfl

theorem mem_entries_of_at? (hne : l ≠ []) (h : t.at? l ≠ none) : l ∈ t.entries.map (·.1) := by
  have hempty : l.isEmpty = false := by simpa using hne
  rw [at?, hempty] at h
  simp only [Bool.false_eq_true, if_false, ne_eq, Option.map_eq_none_iff,
    List.find?_eq_none, not_forall] at h
  obtain ⟨x, hx, hl⟩ := h
  exact List.mem_map.mpr ⟨x, hx, by simpa using hl⟩

theorem walk_part {names : List String} (hnames : Location.IsClean names)
    (h : Location.isNear base (l ++ names) = true) : (t.part base).walk l names = t.walk l names := by
  induction names generalizing l with
  | nil => rfl
  | cons name names ih =>
    have hdown : (name == "..") = false := by simpa using (hnames name List.mem_cons_self).notUp
    have hnear : Location.isNear base ((l ++ [name]) ++ names) = true := by simpa using h
    have hrest := ih (fun s hs => hnames s (List.mem_cons_of_mem name hs)) hnear
    rw [walk, at?_part (isNear_mono h (List.prefix_append l _)), walk, hdown]
    simp only [Bool.false_eq_true, if_false, hrest]

theorem resolve_part (hl : l.IsClean) (hne : l ≠ []) (hnear : Location.isNear base l = true) :
    (t.part base).resolve [] l.text = t.resolve [] l.text := by
  have hwalk := walk_part (t := t) (l := []) hl (by simpa using hnear)
  rw [resolve, resolve, ofString_text hl hne]
  simp only [Bool.false_eq_true, if_false, ite_self, hwalk]
  cases hw : t.walk [] l with
  | error fault => rfl
  | ok m =>
    obtain rfl : m = l := by
      rw [walk_eq hw, Location.follow_clean [] hl, List.nil_append]
    simp only [at?_part hnear]

theorem stat_part (hl : l.IsClean) (hne : l ≠ []) (hnear : Location.isNear base l = true) :
    (t.part base).stat [] l.text = t.stat [] l.text := by
  rw [stat, stat, resolve_part hl hne hnear]
  cases hres : t.resolve [] l.text with
  | error fault => rfl
  | ok m =>
    obtain ⟨rfl, _⟩ := (resolve_text_ok_iff hl hne).mp hres
    simp only [bind, Except.bind, at?_part hnear]

theorem part_writeFile {content : ByteArray} (hl : l.IsClean) (hne : l ≠ [])
    (hnear : Location.isNear base l = true) : (t.part base).writeFile [] l.text content =
      (t.writeFile [] l.text content).map (part base) := by
  rw [writeFile, writeFile, resolve_part hl hne hnear]
  cases hres : t.resolve [] l.text with
  | error fault => rfl
  | ok m =>
    obtain ⟨rfl, _⟩ := (resolve_text_ok_iff hl hne).mp hres
    simp only [bind, Except.bind, at?_part hnear]
    cases t.at? m with
    | none =>
      simp only [part_put hnear]
      split <;> rfl
    | some e =>
      cases e with
      | directory => rfl
      | file old =>
        simp only [part_put hnear]
        rfl

theorem part_makeDirectoriesFrom {names : List String} (hnames : Location.IsClean names)
    (h : Location.isNear base (l ++ names) = true) :
    (t.part base).makeDirectoriesFrom l names =
      (t.makeDirectoriesFrom l names).map (part base) := by
  induction names generalizing t l with
  | nil => rfl
  | cons name names ih =>
    have hdown : (name == "..") = false := by simpa using (hnames name List.mem_cons_self).notUp
    have hnear : Location.isNear base ((l ++ [name]) ++ names) = true := by simpa using h
    have hnext := isNear_mono hnear (List.prefix_append _ names)
    have hrest := fun s hs => hnames s (List.mem_cons_of_mem name hs)
    rw [makeDirectoriesFrom, makeDirectoriesFrom, hdown]
    simp only [Bool.false_eq_true, if_false, at?_part hnext]
    split
    · rfl
    · cases t.at? (l ++ [name]) with
      | none =>
        rw [part_put hnext]
        exact ih hrest hnear
      | some e =>
        cases e with
        | directory => exact ih hrest hnear
        | file old => rfl

theorem part_makeDirectories (hl : l.IsClean) (hnear : Location.isNear base l = true) :
    (t.part base).makeDirectories [] l.text = (t.makeDirectories [] l.text).map (part base) := by
  cases l with
  | nil => rfl
  | cons s l =>
    have hmake := part_makeDirectoriesFrom (t := t) (l := []) hl (by simpa using hnear)
    rw [makeDirectories, makeDirectories, ofString_text hl (List.cons_ne_nil s l)]
    simp only [Bool.false_eq_true, if_false, ite_self, hmake]
    split
    · rfl
    · split <;> rfl

theorem filesBelow_part : (t.part base).filesBelow base = t.filesBelow base := by
  rw [filesBelow, filesBelow, part, List.filterMap_filter]
  congr 1
  funext x
  obtain ⟨m, e⟩ := x
  by_cases hm : Location.isNear base m = true
  · simp [hm]
  · rw [if_neg hm]
    rw [isNear_iff, not_or] at hm
    cases e with
    | directory => rfl
    | file content =>
      refine (if_neg ?_).symm
      simp only [Bool.and_eq_true, decide_eq_true_eq, beq_iff_eq, not_and]
      rintro _ htake
      exact hm.2 (htake ▸ List.take_prefix _ m)

end FileTree

namespace DirectoryStore

variable {d d' : DirectoryStore} {t t' : FileTree} {p : StorePath} {w : Writer}
  {target : Location}

theorem natText_injective {m n : Nat} (h : Text.natText m = Text.natText n) : m = n := by
  have hdigits : Nat.toDigits 10 m = Nat.toDigits 10 n := by
    have h := congrArg String.toList h
    simpa [Text.natText, Text.digits] using h
  rw [← Nat.ofDigitChars_ten_toDigits (n := m), hdigits, Nat.ofDigitChars_ten_toDigits]

theorem stagedAt_injective {m n : Nat} (h : stagedAt target m = stagedAt target n) : m = n := by
  have hname := List.singleton_inj.mp (List.append_cancel_left h)
  refine natText_injective (String.toList_inj.mp ?_)
  have hchars := congrArg String.toList hname
  simp only [String.toList_append] at hchars
  exact List.append_cancel_left hchars

theorem exists_free (t : FileTree) (target : Location) :
    ∃ n ≤ t.entries.length, t.at? (stagedAt target (n + 1)) = none := by
  refine Classical.byContradiction fun hnone => ?_
  simp only [not_exists, not_and] at hnone
  -- more places than entries would be taken
  have hnodup : ((List.range (t.entries.length + 1)).map fun i => stagedAt target (i + 1)).Nodup := by
    refine List.Pairwise.map _ (fun i j hij heq => hij ?_) List.nodup_range
    have := stagedAt_injective heq
    omega
  have hsubset : ((List.range (t.entries.length + 1)).map fun i => stagedAt target (i + 1)) ⊆
      t.entries.map (·.1) := by
    intro l hl
    obtain ⟨i, hi, rfl⟩ := List.mem_map.mp hl
    have hlt := List.mem_range.mp hi
    exact FileTree.mem_entries_of_at? (stagedAt_ne_nil _ _) (hnone i (by omega))
  have hlength := hnodup.length_le_of_subset hsubset
  simp only [List.length_map, List.length_range] at hlength
  omega

theorem freeStaged_of_taken {fuel number n : Nat} (hn : number ≤ n) (hfuel : n ≤ number + fuel)
    (htaken : ∀ m, number ≤ m → m < n → t.at? (stagedAt target m) ≠ none)
    (hfree : t.at? (stagedAt target n) = none) :
    freeStaged t target fuel number = stagedAt target n := by
  induction fuel generalizing number with
  | zero =>
    obtain rfl : number = n := by omega
    rfl
  | succ fuel ih =>
    rw [freeStaged]
    by_cases hnumber : number = n
    · subst hnumber
      rw [hfree]
    · have hsome := htaken number (Nat.le_refl _) (by omega)
      split
      · next hnone => exact absurd hnone hsome
      · exact ih (by omega) (by omega) fun m hm => htaken m (by omega)

/-- The search stops at the first free number, wherever its bound is. -/
theorem freeStaged_eq_least (t : FileTree) (target : Location) : ∃ n,
    freeStaged t target t.entries.length 1 = stagedAt target (n + 1) ∧
      t.at? (stagedAt target (n + 1)) = none ∧
      ∀ m < n, t.at? (stagedAt target (m + 1)) ≠ none := by
  classical
  obtain ⟨bound, hbound, hfree⟩ := exists_free t target
  have hsome : ∃ n, t.at? (stagedAt target (n + 1)) = none := ⟨bound, hfree⟩
  have hleast : ∀ m < Nat.find hsome, t.at? (stagedAt target (m + 1)) ≠ none :=
    fun m hm => Nat.find_min hsome hm
  have hle : Nat.find hsome ≤ bound := Nat.find_min' hsome hfree
  refine ⟨Nat.find hsome, ?_, Nat.find_spec hsome, hleast⟩
  refine freeStaged_of_taken (by omega) (by omega) (fun m hm hlt => ?_) (Nat.find_spec hsome)
  obtain ⟨k, rfl⟩ : ∃ k, m = k + 1 := ⟨m - 1, by omega⟩
  exact hleast k (by omega)

theorem freeStaged_congr (h : ∀ n, t'.at? (stagedAt target n) = t.at? (stagedAt target n)) :
    freeStaged t' target t'.entries.length 1 = freeStaged t target t.entries.length 1 := by
  obtain ⟨n, hn, hfree, hleast⟩ := freeStaged_eq_least t target
  obtain ⟨n', hn', hfree', hleast'⟩ := freeStaged_eq_least t' target
  have hle : n ≤ n' := by
    refine Nat.le_of_not_lt fun hlt => hleast n' hlt ?_
    rw [← h, hfree']
  have hle' : n' ≤ n := by
    refine Nat.le_of_not_lt fun hlt => hleast' n hlt ?_
    rw [h, hfree]
  rw [hn, hn', Nat.le_antisymm hle hle']

theorem isNear_stagedAt (h : d.locate p = .ok target) (number : Nat) :
    Location.isNear d.base (stagedAt target number) = true :=
  FileTree.isNear_iff.mpr (.inr (base_prefix_stagedAt h number))

theorem isNear_append (base names : Location) : Location.isNear base (base ++ names) = true :=
  FileTree.isNear_iff.mpr (.inr (List.prefix_append _ _))

theorem get_part (hb : d.base.IsClean) (hp : Location.IsClean p.segments) :
    d.get (t.part d.base) p = d.get t p := by
  rw [get, get]
  cases hloc : d.locate p with
  | error fault => rfl
  | ok l =>
    obtain ⟨hclean, hne⟩ := isClean_of_locate hb hp hloc
    have hnear : Location.isNear d.base l = true := by
      obtain ⟨_, rfl⟩ := locate_ok_iff.mp hloc
      exact isNear_append _ _
    simp only [bind, Except.bind, FileTree.stat_part hclean hne hnear]

theorem part_createStaged (hclean : target.IsClean) (hne : target ≠ [])
    (hloc : d.locate p = .ok target) : createStaged (t.part d.base) target =
      (createStaged t target).map fun x => (x.1.part d.base, x.2) := by
  have hagree : ∀ n, (t.part d.base).at? (stagedAt target n) = t.at? (stagedAt target n) :=
    fun n => FileTree.at?_part (isNear_stagedAt hloc n)
  have hfree := freeStaged_congr hagree
  obtain ⟨number, hnumber⟩ := freeStaged_eq t target t.entries.length 1
  have hstaged := isClean_stagedAt hclean hne number
  have hnil := stagedAt_ne_nil target number
  have hnear := isNear_stagedAt hloc number
  have hdir := FileTree.isNear_mono hnear (List.dropLast_prefix _)
  rw [createStaged, createStaged, hfree, hnumber]
  simp only [FileTree.part_writeFile hstaged hnil hnear,
    FileTree.part_makeDirectories hstaged.dropLast hdir]
  cases t.writeFile [] (stagedAt target number).text .empty with
  | ok u => rfl
  | error fault =>
    cases fault with
    | os code =>
      simp only [Except.map]
      split
      · cases t.makeDirectories [] (Location.text (stagedAt target number).dropLast) with
        | error fault => rfl
        | ok u =>
          simp only [FileTree.part_writeFile hstaged hnil hnear]
          cases u.writeFile [] (stagedAt target number).text .empty <;> rfl
      · rfl
    | _ => rfl

theorem part_openWriter (hb : d.base.IsClean) (hp : Location.IsClean p.segments) :
    d.openWriter (t.part d.base) p =
      (d.openWriter t p).map fun x => (x.1, x.2.1, x.2.2.part d.base) := by
  rw [openWriter, openWriter]
  cases hloc : d.locate p with
  | error fault => rfl
  | ok target =>
    obtain ⟨hclean, hne⟩ := isClean_of_locate hb hp hloc
    simp only [bind, Except.bind, part_createStaged hclean hne hloc]
    cases createStaged t target <;> rfl

theorem IsBound.below_base (h : d.IsBound) {b : StagedBlob}
    (hlookup : d.writers.lookup w.id = some b) : d.base <+: b.staged ∧ d.base <+: b.target := by
  obtain ⟨p, number, _, _, htarget, hstaged, _⟩ :=
    (h.writers _ (mem_of_lookup hlookup)).staged_eq
  rw [htarget, hstaged]
  exact ⟨List.prefix_append _ _, List.prefix_append _ _⟩

theorem IsBound.isNear (h : d.IsBound) {b : StagedBlob} (hlookup : d.writers.lookup w.id = some b) :
    Location.isNear d.base b.staged = true ∧ Location.isNear d.base b.target = true := by
  obtain ⟨hstaged, htarget⟩ := h.below_base hlookup
  exact ⟨FileTree.isNear_iff.mpr (.inr hstaged), FileTree.isNear_iff.mpr (.inr htarget)⟩

theorem part_write (h : d.IsBound) (chunk : ByteArray) :
    d.write (t.part d.base) w chunk = (d.write t w chunk).part d.base := by
  rw [write, write]
  split
  · rfl
  · next b hlookup =>
    obtain ⟨hnear, _⟩ := h.isNear hlookup
    rw [FileTree.content?_part hnear]
    split
    · exact FileTree.part_put hnear
    · rfl

theorem part_abort (h : d.IsBound) :
    d.abort (t.part d.base) w = ((d.abort t w).1, (d.abort t w).2.part d.base) := by
  rw [abort, abort]
  split
  · rfl
  · next b hlookup => rw [FileTree.part_dropFile (h.isNear hlookup).1]

theorem part_finalize (h : d.IsBound) : d.finalize (t.part d.base) w =
    ((d.finalize t w).1, (d.finalize t w).2.1, (d.finalize t w).2.2.part d.base) := by
  rw [finalize, finalize]
  split
  · rfl
  · next b hlookup =>
    obtain ⟨hstaged, htarget⟩ := h.isNear hlookup
    rw [FileTree.part_renameFile hstaged htarget]
    cases t.renameFile b.staged b.target <;> rfl

theorem changedWithin_write (h : d.IsBound) (t : FileTree) (w : Writer) (chunk : ByteArray) :
    FileTree.ChangedWithin d.base t (d.write t w chunk) := by
  rw [write]
  split
  · exact .refl _ _
  · next b hlookup =>
    split
    · exact FileTree.changedWithin_put _ _ (h.below_base hlookup).1
    · exact .refl _ _

theorem changedWithin_abort (h : d.IsBound) (t : FileTree) (w : Writer) :
    FileTree.ChangedWithin d.base t (d.abort t w).2 := by
  rw [abort]
  split
  · exact .refl _ _
  · next b hlookup =>
    rw [FileTree.dropFile]
    split
    · exact FileTree.changedWithin_erase _ (h.below_base hlookup).1
    · exact .refl _ _

theorem changedWithin_finalize (h : d.IsBound) (t : FileTree) (w : Writer) :
    FileTree.ChangedWithin d.base t (d.finalize t w).2.2 := by
  rw [finalize]
  split
  · exact .refl _ _
  · next b hlookup =>
    obtain ⟨hstaged, htarget⟩ := h.below_base hlookup
    split
    · next u hmove =>
      obtain ⟨content, _, _, rfl⟩ := FileTree.renameFile_ok hmove
      exact (FileTree.changedWithin_erase _ hstaged).trans
        (FileTree.changedWithin_put _ _ htarget)
    · exact .refl _ _

theorem paths_part : d.paths (t.part d.base) = d.paths t := by
  rw [paths, FileTree.filesBelow_part, paths]

end DirectoryStore

/-- A store in a directory, all of whose writers stay there. -/
def Vault.IsBound (v : Vault) (base : Location) : Prop :=
  ∃ d, v.storage = .directory d ∧ d.base = base ∧ d.IsBound

/-- A store takes in and gives out blobs by these calls; the others here touch no file. -/
def Call.isOfStore : Call → Prop
  | .log _ | .isCancelled | .pause | .stall | .now | .temporaryDir | .print _ | .exists _
  | .openWriter _ | .write _ _ | .finalize _ | .abort _ | .openReader _ | .list => True
  | _ => False

namespace Host

variable {base : Location} {h : Host}

def part (base : Location) (h : Host) : Host := { h with files := h.files.part base }

/-- Cut down to the part that its store sees, a machine answers alike. -/
theorem answer_part (hv : h.vault.IsBound base) {c : Call} (hc : c.isOfStore) :
    (h.part base).answer c = ((h.answer c).1, (h.answer c).2.part base) := by
  obtain ⟨d, hstorage, rfl, hd⟩ := hv
  obtain ⟨files, cwd, environment, clock, ⟨bucket, storage⟩, isCancelled, cancelOn, lines, printed,
    child, staging⟩ := h
  obtain rfl : storage = .directory d := hstorage
  have hkey : ∀ k, d.get (files.part d.base) (.ofKey k) = d.get files (.ofKey k) :=
    fun k => DirectoryStore.get_part hd.clean (StorePath.isClean_ofKey k)
  cases c with
  | log | isCancelled | pause | stall | now | temporaryDir | print => rfl
  | password | createStaging | openFile | readFile | removeFile | connect | spawn | offer
  | closeInput | wait | kill | reap => exact hc.elim
  | «exists» k =>
    simp only [answer, part, Vault.contains, hkey]
    rfl
  | openReader k =>
    simp only [answer, part, Vault.openReader, hkey]
    rfl
  | list =>
    simp only [answer, part, Vault.list, DirectoryStore.paths_part]
    rfl
  | openWriter k =>
    have hopen := DirectoryStore.part_openWriter (t := files) hd.clean (StorePath.isClean_ofKey k)
    simp only [answer, part, Vault.openWriter, hopen]
    cases d.openWriter files (.ofKey k) <;> rfl
  | write w chunk =>
    simp only [answer, part, Vault.write, DirectoryStore.part_write hd]
    rfl
  | finalize w =>
    simp only [answer, part, Vault.finalize, DirectoryStore.part_finalize hd]
    rfl
  | abort w =>
    simp only [answer, part, Vault.abort, DirectoryStore.part_abort hd]
    rfl

/-- Whatever a store is called for, it stays in its directory and changes files there only. -/
theorem answer_within (hv : h.vault.IsBound base) {c : Call} (hc : c.isOfStore) :
    (h.answer c).2.vault.IsBound base ∧ (h.answer c).2.cwd = h.cwd ∧
      FileTree.ChangedWithin base h.files (h.answer c).2.files := by
  obtain ⟨d, hstorage, rfl, hd⟩ := hv
  obtain ⟨files, cwd, environment, clock, ⟨bucket, storage⟩, isCancelled, cancelOn, lines, printed,
    child, staging⟩ := h
  obtain rfl : storage = .directory d := hstorage
  cases c with
  | log | isCancelled | pause | stall | now | temporaryDir | print | «exists» | openReader | list =>
    exact ⟨⟨d, rfl, rfl, hd⟩, rfl, .refl _ _⟩
  | password | createStaging | openFile | readFile | removeFile | connect | spawn | offer
  | closeInput | wait | kill | reap => exact hc.elim
  | openWriter k =>
    simp only [answer, Vault.openWriter]
    cases hopen : d.openWriter files (.ofKey k) with
    | error fault => exact ⟨⟨d, rfl, rfl, hd⟩, rfl, .refl _ _⟩
    | ok opened =>
      obtain ⟨w, d', files'⟩ := opened
      obtain ⟨hbase, _, hwithin, _⟩ :=
        DirectoryStore.openWriter_ok hd.clean (StorePath.isClean_ofKey k) hopen
      exact ⟨⟨d', rfl, hbase, hd.openWriter (StorePath.isLegal_ofKey k) hopen⟩, rfl, hwithin⟩
  | write w chunk =>
    exact ⟨⟨d, rfl, rfl, hd⟩, rfl, DirectoryStore.changedWithin_write hd files w chunk⟩
  | finalize w =>
    exact ⟨⟨_, rfl, DirectoryStore.base_finalize d files w, hd.finalize files w⟩, rfl,
      DirectoryStore.changedWithin_finalize hd files w⟩
  | abort w =>
    exact ⟨⟨_, rfl, DirectoryStore.base_abort d files w, hd.abort files w⟩, rfl,
      DirectoryStore.changedWithin_abort hd files w⟩

/-- A run that reaches files through its store only comes to the same end on a machine that is cut
down to what the store sees. -/
theorem perform_part {α : Type} {p : Prog α} (hv : h.vault.IsBound base)
    (hp : p.Only Call.isOfStore) :
    (h.part base).perform p = ((h.perform p).1, (h.perform p).2.part base) := by
  induction p generalizing h with
  | pure a => rfl
  | call c next ih =>
    have hanswer := answer_part hv hp.1
    have hrest := ih (h.answer c).1 (answer_within hv hp.1).1 (hp.2 _)
    simp only [perform, Prog.run] at hrest ⊢
    rw [hanswer]
    exact hrest

end Host
end DumpVault
