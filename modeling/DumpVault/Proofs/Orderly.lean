import DumpVault.Proofs.Vaults

/-!
# Orderly stores

A path that other tools may use is made of names without control characters. In an orderly store
every blob lies at such a path and every file of its directory can be reached. Writers keep a store
orderly, and an orderly store lists just the paths at which it stores something.
-/
namespace DumpVault

/-- A path that a blob may be put under without a key. -/
structure StorePath.IsLegal (p : StorePath) : Prop where
  clean : Location.IsClean p.segments
  printable : ∀ s ∈ p.segments, s.toList.any DirectoryStore.isControl = false

theorem StorePath.isControl_of_isPlainChar {c : Char} (h : isPlainChar c = true) :
    DirectoryStore.isControl c = false := by
  simp only [isPlainChar, Bool.and_eq_true, decide_eq_true_eq] at h
  simp only [DirectoryStore.isControl, Bool.or_eq_false_iff, decide_eq_false_iff_not,
    beq_eq_false_iff_ne]
  omega

theorem StorePath.isLegal_ofKey (k : Key) : (StorePath.ofKey k).IsLegal := by
  refine ⟨isClean_ofKey k, fun s hs => List.any_eq_false.mpr fun c hc => ?_⟩
  rcases plain_of_mem_ofKey hs hc with rfl | hplain
  · decide
  · simp [isControl_of_isPlainChar hplain]

theorem Key.ofText?_eq_some_iff {k : Key} {s : String} : Key.ofText? s = some k ↔ k.text = s := by
  constructor
  · intro h
    rw [Key.ofText?] at h
    split at h
    · cases h
    · rw [← Option.some.inj h]
  · rintro rfl
    exact Key.ofText?_text k

namespace FileTree

variable {t t' : FileTree} {l base names : Location} {e : Entry} {content : ByteArray}

def IsSingle (t : FileTree) : Prop := (t.entries.map (·.1)).Nodup

theorem IsSingle.erase (h : t.IsSingle) (l : Location) : (t.erase l).IsSingle :=
  h.sublist (List.filter_sublist.map _)

theorem IsSingle.put (h : t.IsSingle) (l : Location) (e : Entry) : (t.put l e).IsSingle := by
  have hfree : l ∉ (t.entries.filter fun x => x.1 != l).map (·.1) := by
    simp
  exact List.nodup_cons.mpr ⟨hfree, h.erase l⟩

theorem IsSingle.dropFile (h : t.IsSingle) (l : Location) : (t.dropFile l).IsSingle := by
  rw [FileTree.dropFile]
  split
  · exact h.erase l
  · exact h

theorem IsSingle.makeDirectoriesFrom {names : List String} (h : t.IsSingle)
    (hmake : t.makeDirectoriesFrom l names = .ok t') : t'.IsSingle := by
  induction names generalizing t l with
  | nil => exact Except.ok.inj hmake ▸ h
  | cons name names ih =>
    rw [FileTree.makeDirectoriesFrom] at hmake
    split at hmake
    · cases hmake
    · simp only at hmake
      split at hmake
      · exact ih h hmake
      · cases hmake
      · exact ih (h.put _ _) hmake

theorem IsSingle.makeDirectories {cwd : Location} {path : String} (h : t.IsSingle)
    (hmake : t.makeDirectories cwd path = .ok t') : t'.IsSingle := by
  simp only [FileTree.makeDirectories] at hmake
  split at hmake
  · cases hmake
  · split at hmake
    · exact Except.ok.inj hmake ▸ h
    · split at hmake
      · cases hmake
      · exact h.makeDirectoriesFrom hmake

theorem IsSingle.writeFile {cwd : Location} {path : String} {bytes : ByteArray} (h : t.IsSingle)
    (hwrite : t.writeFile cwd path bytes = .ok t') : t'.IsSingle := by
  rw [FileTree.writeFile] at hwrite
  cases hres : t.resolve cwd path with
  | error fault =>
    rw [hres] at hwrite
    cases hwrite
  | ok l =>
    rw [hres] at hwrite
    simp only [bind, Except.bind] at hwrite
    split at hwrite
    · cases hwrite
    · exact Except.ok.inj hwrite ▸ h.put _ _
    · split at hwrite
      · cases hwrite
      · exact Except.ok.inj hwrite ▸ h.put _ _

theorem IsSingle.removeFile {cwd : Location} {path : String} (h : t.IsSingle)
    (hremove : t.removeFile cwd path = .ok t') : t'.IsSingle := by
  rw [FileTree.removeFile] at hremove
  cases hstat : t.stat cwd path with
  | error fault =>
    rw [hstat] at hremove
    cases hremove
  | ok found =>
    obtain ⟨l, e⟩ := found
    rw [hstat] at hremove
    cases e with
    | directory => cases hremove
    | file content => exact Except.ok.inj hremove ▸ h.erase l

theorem IsSingle.mem_entries_iff (h : t.IsSingle) (hl : l ≠ []) :
    (l, e) ∈ t.entries ↔ t.at? l = some e := by
  have hempty : l.isEmpty = false := by simpa using hl
  obtain ⟨entries⟩ := t
  simp only [IsSingle, at?, hempty, Bool.false_eq_true, if_false] at h ⊢
  induction entries with
  | nil => simp
  | cons x entries ih =>
    obtain ⟨m, old⟩ := x
    obtain ⟨hfresh, hrest⟩ := List.nodup_cons.mp h
    by_cases hm : m = l
    · subst hm
      have hnone : (m, e) ∉ entries := fun hmem => hfresh (List.mem_map.mpr ⟨_, hmem, rfl⟩)
      simp [hnone, eq_comm]
    · have hne : l ≠ m := fun hlm => hm hlm.symm
      simp [hm, hne, ih hrest]

theorem mem_filesBelow (h : t.IsSingle) : (names, content) ∈ t.filesBelow base ↔
    names ≠ [] ∧ t.at? (base ++ names) = some (.file content) := by
  rw [filesBelow, List.mem_filterMap]
  constructor
  · rintro ⟨⟨m, e⟩, hmem, hfound⟩
    cases e with
    | directory => cases hfound
    | file old =>
      simp only at hfound
      split at hfound
      · next hbelow =>
        simp only [Bool.and_eq_true, decide_eq_true_eq, beq_iff_eq] at hbelow
        obtain ⟨rfl, rfl⟩ := Prod.mk.inj (Option.some.inj hfound)
        have hm := List.take_append_drop base.length m
        rw [hbelow.2] at hm
        have hne : m ≠ [] := by
          rintro rfl
          simp at hbelow
        refine ⟨?_, ?_⟩
        · intro hnil
          have := List.drop_eq_nil_iff.mp hnil
          omega
        · rw [hm]
          exact (h.mem_entries_iff hne).mp hmem
      · cases hfound
  · rintro ⟨hne, hat⟩
    have hfull : base ++ names ≠ [] := fun hnil => hne (List.append_eq_nil_iff.mp hnil).2
    refine ⟨_, (h.mem_entries_iff hfull).mpr hat, ?_⟩
    have hlen : 0 < names.length := List.length_pos_iff.mpr hne
    simp [hlen]

/-- All files below `base` can be reached by legal paths from there. -/
structure IsTidy (t : FileTree) (base : Location) : Prop where
  single : t.IsSingle
  files : ∀ names content, names ≠ [] → t.at? (base ++ names) = some (.file content) →
    StorePath.IsLegal ⟨names⟩ ∧ t.Reached (base ++ names)

/-- A tree stays tidy as long as no directory is lost and every new file can be reached. -/
theorem IsTidy.step (h : t.IsTidy base) (hsingle : t'.IsSingle)
    (hkeep : ∀ m, t.at? m = some .directory → t'.at? m = some .directory)
    (hnew : ∀ names content, names ≠ [] → t'.at? (base ++ names) = some (.file content) →
      (∃ old, t.at? (base ++ names) = some (.file old)) ∨
        (StorePath.IsLegal ⟨names⟩ ∧ t'.Reached (base ++ names))) : t'.IsTidy base := by
  refine ⟨hsingle, fun names content hne hfile => ?_⟩
  rcases hnew names content hne hfile with ⟨old, hold⟩ | hfresh
  · obtain ⟨hlegal, hreached⟩ := h.files names old hne hold
    exact ⟨hlegal, hreached.mono fun m _ _ hdir => hkeep m hdir⟩
  · exact hfresh

theorem IsTidy.put (h : t.IsTidy base) (hdir : t.at? l ≠ some .directory) (hreached : t.Reached l)
    (hlegal : ∀ names, l = base ++ names → StorePath.IsLegal ⟨names⟩) (content : ByteArray) :
    (t.put l (.file content)).IsTidy base := by
  have hkeep : ∀ m, t.at? m = some .directory →
      (t.put l (.file content)).at? m = some .directory := by
    intro m hm
    have hml : m ≠ l := by
      rintro rfl
      exact hdir hm
    rw [at?_put_of_ne _ _ hml, hm]
  refine h.step (h.single.put l _) hkeep fun names new _ hnew => ?_
  by_cases hl : base ++ names = l
  · refine .inr ⟨hlegal names hl.symm, ?_⟩
    rw [hl]
    exact hreached.mono fun m _ _ hm => hkeep m hm
  · rw [at?_put_of_ne _ _ hl] at hnew
    exact .inl ⟨new, hnew⟩

theorem IsTidy.overwrite {old : ByteArray} (h : t.IsTidy base) (hold : t.at? l = some (.file old))
    (content : ByteArray) : (t.put l (.file content)).IsTidy base := by
  have hne : l ≠ [] := by
    rintro rfl
    cases hold
  refine h.step (h.single.put l _) (fun m hm => ?_) fun names new _ hnew => ?_
  · have hml : m ≠ l := by
      rintro rfl
      rw [hold] at hm
      cases hm
    rw [at?_put_of_ne _ _ hml, hm]
  · rw [at?_put _ _ _ hne] at hnew
    split at hnew
    · next hl => exact .inl ⟨old, hl ▸ hold⟩
    · exact .inl ⟨new, hnew⟩

theorem IsTidy.putDirectory (h : t.IsTidy base) (hfree : t.at? l = none) :
    (t.put l .directory).IsTidy base := by
  have hne : l ≠ [] := by
    rintro rfl
    cases hfree
  refine h.step (h.single.put l _) (fun m hm => ?_) fun names new _ hnew => ?_
  · rw [at?_put _ _ _ hne, hm, ite_self]
  · rw [at?_put _ _ _ hne] at hnew
    split at hnew
    · cases hnew
    · exact .inl ⟨new, hnew⟩

theorem at?_dropFile (t : FileTree) (l m : Location) : (t.dropFile l).at? m = t.at? m ∨
    (m = l ∧ (∃ content, t.at? l = some (.file content)) ∧ (t.dropFile l).at? m = none) := by
  cases hat : t.at? l with
  | none =>
    refine .inl ?_
    simp [dropFile, content?, hat]
  | some e =>
    cases e with
    | directory =>
      refine .inl ?_
      simp [dropFile, content?, hat]
    | file content =>
      have hne : l ≠ [] := by
        rintro rfl
        cases hat
      have hdrop : t.dropFile l = t.erase l := by simp [dropFile, content?, hat]
      rw [hdrop, at?_erase _ _ hne]
      split
      · next hm => exact .inr ⟨hm, ⟨content, rfl⟩, rfl⟩
      · exact .inl rfl

theorem IsTidy.dropFile (h : t.IsTidy base) (l : Location) : (t.dropFile l).IsTidy base := by
  refine h.step (h.single.dropFile l) (fun m hm => ?_) fun names new _ hnew => .inl ⟨new, ?_⟩
  · rcases at?_dropFile t l m with heq | ⟨rfl, ⟨content, hfile⟩, _⟩
    · rw [heq, hm]
    · rw [hfile] at hm
      cases hm
  · rcases at?_dropFile t l (base ++ names) with heq | ⟨_, _, hnone⟩
    · rw [← heq, hnew]
    · rw [hnone] at hnew
      cases hnew

end FileTree

namespace DirectoryStore

variable {d d' : DirectoryStore} {t t' : FileTree} {p : StorePath} {w : Writer} {b : StagedBlob}
  {target staged : Location}

theorem any_isControl_natText (n : Nat) : (Text.natText n).toList.any isControl = false := by
  rw [Text.natText, String.toList_ofList]
  refine List.any_eq_false.mpr fun c hc => ?_
  have hdigit := Nat.isDigit_of_mem_toDigits (by decide) (by decide) hc
  simp only [Char.isDigit, Bool.and_eq_true, decide_eq_true_eq, ge_iff_le, UInt32.le_iff_toNat_le]
    at hdigit
  simp only [isControl, Bool.or_eq_true, decide_eq_true_eq, beq_iff_eq, not_or, Char.toNat]
  change 48 ≤ c.val.toNat ∧ c.val.toNat ≤ 57 at hdigit
  omega

theorem stagedAt_append (base : Location) {segments : List String} (hne : segments ≠ [])
    (number : Nat) : stagedAt (base ++ segments) number = base ++ stagedAt segments number := by
  obtain ⟨dir, name, rfl⟩ := exists_concat hne
  rw [stagedAt_concat, ← List.append_assoc, stagedAt_concat, List.append_assoc]

theorem isLegal_stagedAt (hp : p.IsLegal) (hne : p.segments ≠ []) (number : Nat) :
    StorePath.IsLegal ⟨stagedAt p.segments number⟩ := by
  refine ⟨isClean_stagedAt hp.clean hne number, fun s hs => ?_⟩
  have hprintable := hp.printable
  obtain ⟨dir, name, hsegments⟩ := exists_concat hne
  rw [hsegments] at hs hprintable
  rw [stagedAt_concat] at hs
  rcases List.mem_append.mp hs with hs | hs
  · exact hprintable s (List.mem_append_left _ hs)
  · obtain rfl := List.mem_singleton.mp hs
    have hname := hprintable name (by simp)
    simp only [String.toList_append, List.any_append, hname, any_isControl_natText]
    decide

/-- An open writer fills a staged file of a blob with a legal path. -/
def Staging (d : DirectoryStore) (b : StagedBlob) : Prop :=
  ∃ p number, p.IsLegal ∧ d.locate p = .ok b.target ∧ b.staged = stagedAt b.target number

/-- A store all of whose writers stay in its directory. -/
structure IsBound (d : DirectoryStore) : Prop where
  clean : d.base.IsClean
  writers : ∀ e ∈ d.writers, d.Staging e.2

structure Orderly (d : DirectoryStore) (t : FileTree) : Prop extends d.IsBound where
  tidy : t.IsTidy d.base

theorem Staging.staged_eq (h : d.Staging b) : ∃ (p : StorePath) (number : Nat), p.IsLegal ∧
    p.segments ≠ [] ∧ b.target = d.base ++ p.segments ∧
    b.staged = d.base ++ stagedAt p.segments number ∧ b.staged = stagedAt b.target number := by
  obtain ⟨p, number, hp, hloc, hstaged⟩ := h
  have hne := segments_ne_nil hloc
  have htarget := (locate_ok_iff.mp hloc).2
  refine ⟨p, number, hp, hne, htarget, ?_, hstaged⟩
  rw [hstaged, htarget, stagedAt_append _ hne]

theorem mem_of_lookup {κ α : Type} [BEq κ] [LawfulBEq κ] {entries : List (κ × α)} {id : κ} {x : α}
    (h : entries.lookup id = some x) : (id, x) ∈ entries := by
  obtain ⟨before, after, hentries, _⟩ := List.lookup_eq_some_iff.mp h
  simp [hentries]

theorem IsBound.close (h : d.IsBound) (w : Writer) : (d.close w).IsBound :=
  ⟨h.clean, fun e he => h.writers e (List.mem_filter.mp he).1⟩

theorem IsBound.abort (h : d.IsBound) (t : FileTree) (w : Writer) : (d.abort t w).1.IsBound := by
  rw [DirectoryStore.abort]
  split
  · exact h
  · exact h.close w

theorem IsBound.finalize (h : d.IsBound) (t : FileTree) (w : Writer) :
    (d.finalize t w).2.1.IsBound := by
  rw [DirectoryStore.finalize]
  split
  · exact h
  · split
    · exact h.close w
    · exact h.close w

theorem isSingle_createStaged (h : t.IsSingle) (hnew : createStaged t target = .ok (t', staged)) :
    t'.IsSingle := by
  obtain ⟨u, hgrow, hwrite, _⟩ := createStaged_eq hnew
  have hu : u.IsSingle := by
    rcases hgrow with rfl | hmake
    · exact h
    · exact h.makeDirectories hmake
  exact hu.writeFile hwrite

theorem tidy_createStaged (h : d.Orderly t) (hp : p.IsLegal) (hloc : d.locate p = .ok target)
    (hnew : createStaged t target = .ok (t', staged)) : t'.IsTidy d.base := by
  have hne := segments_ne_nil hloc
  have htarget := (locate_ok_iff.mp hloc).2
  obtain ⟨hclean, hnil⟩ := isClean_of_locate h.clean hp.clean hloc
  obtain ⟨⟨number, rfl⟩, hreached, hnodir, hfile, hframe⟩ := createStaged_ok hclean hnil hnew
  refine h.tidy.step (isSingle_createStaged h.tidy.single hnew) (fun m hm => ?_)
    fun names content _ hnames => ?_
  · have hms : m ≠ stagedAt target number := by
      rintro rfl
      exact hnodir hm
    rcases hframe m hms with heq | ⟨hnone, _⟩
    · rw [heq, hm]
    · rw [hm] at hnone
      cases hnone
  · by_cases hms : d.base ++ names = stagedAt target number
    · refine .inr ⟨?_, hms ▸ hreached⟩
      rw [htarget, stagedAt_append _ hne] at hms
      rw [List.append_cancel_left hms]
      exact isLegal_stagedAt hp hne number
    · rcases hframe _ hms with heq | ⟨_, hdir, _⟩
      · exact .inl ⟨content, heq ▸ hnames⟩
      · rw [hdir] at hnames
        cases hnames

theorem IsBound.openWriter (h : d.IsBound) (hp : p.IsLegal)
    (hopen : d.openWriter t p = .ok (w, d', t')) : d'.IsBound := by
  obtain ⟨target, staged, hloc, hnew, _, rfl⟩ := openWriter_eq hopen
  obtain ⟨hclean, hnil⟩ := isClean_of_locate h.clean hp.clean hloc
  obtain ⟨⟨number, hstaged⟩, _⟩ := createStaged_ok hclean hnil hnew
  refine ⟨h.clean, fun e he => ?_⟩
  rcases List.mem_cons.mp he with rfl | he
  · exact ⟨p, number, hp, hloc, hstaged⟩
  · exact h.writers e he

theorem Orderly.openWriter (h : d.Orderly t) (hp : p.IsLegal)
    (hopen : d.openWriter t p = .ok (w, d', t')) : d'.Orderly t' ∧ d'.base = d.base := by
  have hbound := h.toIsBound.openWriter hp hopen
  obtain ⟨target, staged, hloc, hnew, _, rfl⟩ := openWriter_eq hopen
  have htidy := tidy_createStaged h hp hloc hnew
  exact ⟨⟨hbound, htidy⟩, rfl⟩

theorem Orderly.write (h : d.Orderly t) (w : Writer) (chunk : ByteArray) :
    d.Orderly (d.write t w chunk) := by
  refine ⟨h.toIsBound, ?_⟩
  rw [DirectoryStore.write]
  split
  · exact h.tidy
  · next b _ =>
    split
    · next old hold =>
      have hfile : t.at? b.staged = some (.file old) := by
        rw [FileTree.content?] at hold
        split at hold
        · next found hat => rw [hat, Option.some.inj hold]
        · cases hold
      exact h.tidy.overwrite hfile _
    · exact h.tidy

theorem Orderly.abort (h : d.Orderly t) (w : Writer) :
    (d.abort t w).1.Orderly (d.abort t w).2 := by
  refine ⟨h.toIsBound.abort t w, ?_⟩
  rw [DirectoryStore.abort]
  split
  · exact h.tidy
  · exact h.tidy.dropFile _

theorem Orderly.finalize (h : d.Orderly t) (w : Writer) :
    (d.finalize t w).2.1.Orderly (d.finalize t w).2.2 := by
  refine ⟨h.toIsBound.finalize t w, ?_⟩
  rw [DirectoryStore.finalize]
  split
  · exact h.tidy
  · next b hlookup =>
    split
    · next u hmove =>
      obtain ⟨content, hsource, hnodir, rfl⟩ := FileTree.renameFile_ok hmove
      obtain ⟨p, number, hp, hne, htarget, hstaged, hnumber⟩ :=
        (h.writers _ (mem_of_lookup hlookup)).staged_eq
      have hnames : stagedAt p.segments number ≠ [] := stagedAt_ne_nil _ _
      -- the staged file is gone first; what leads to it leads to the target
      have hdrop : t.erase b.staged = t.dropFile b.staged := by
        simp [FileTree.dropFile, FileTree.content?, hsource]
      have hreached : t.Reached b.target := by
        have htop : b.target ≠ [] := by
          rw [htarget]
          exact fun hnil => hne (List.append_eq_nil_iff.mp hnil).2
        have hfull : t.Reached (stagedAt b.target number) := by
          rw [← hnumber, hstaged]
          exact (h.tidy.files _ content hnames (hstaged ▸ hsource)).2
        exact reached_of_staged htop hfull
      have hother : ∀ m, m ≠ b.staged → (t.erase b.staged).at? m = t.at? m :=
        fun m hm => FileTree.at?_erase_of_ne _ hm
      rw [hdrop] at hother ⊢
      refine (h.tidy.dropFile _).put ?_ (hreached.mono fun m _ _ hdir => ?_) ?_ content
      · rcases FileTree.at?_dropFile t b.staged b.target with heq | ⟨_, _, hnone⟩
        · rw [heq]
          exact hnodir
        · simp [hnone]
      · rw [hother, hdir]
        rintro rfl
        rw [hsource] at hdir
        cases hdir
      · intro names hl
        rw [htarget] at hl
        rw [← List.append_cancel_left hl]
        exact hp
    · exact h.tidy

@[simp] theorem base_abort (d : DirectoryStore) (t : FileTree) (w : Writer) :
    (d.abort t w).1.base = d.base := by
  rw [DirectoryStore.abort]
  split <;> rfl

@[simp] theorem base_finalize (d : DirectoryStore) (t : FileTree) (w : Writer) :
    (d.finalize t w).2.1.base = d.base := by
  rw [DirectoryStore.finalize]
  split
  · rfl
  · split <;> rfl

theorem Orderly.put {content : ByteArray} (h : d.Orderly t) (hp : p.IsLegal)
    (hput : d.put t p content = .ok t') : t'.IsTidy d.base := by
  rw [DirectoryStore.put] at hput
  cases hopen : d.openWriter t p with
  | error fault =>
    rw [hopen] at hput
    cases hput
  | ok opened =>
    obtain ⟨w, d', u⟩ := opened
    rw [hopen] at hput
    obtain ⟨horderly, hbase⟩ := h.openWriter hp hopen
    have hend := ((horderly.write w content).finalize w).tidy
    rw [base_finalize, hbase] at hend
    simp only [bind, Except.bind] at hput
    generalize d'.finalize (d'.write u w content) w = ended at hput hend
    obtain ⟨r, d'', u'⟩ := ended
    cases r with
    | error fault => cases hput
    | ok =>
      obtain rfl := Except.ok.inj hput
      exact hend

theorem pathOf_legal (hp : p.IsLegal) : pathOf p.segments = .ok p := by
  have hnone : p.segments.find? (fun name => name.toList.any isControl) = none := by
    refine List.find?_eq_none.mpr fun s hs => ?_
    simp [hp.printable s hs]
  rw [pathOf, hnone]

theorem mapM_eq_ok {α β ε : Type} {f : α → Except ε β} {g : α → β} {xs : List α}
    (h : ∀ x ∈ xs, f x = .ok (g x)) : xs.mapM f = .ok (xs.map g) := by
  induction xs with
  | nil => rfl
  | cons x xs ih =>
    rw [List.mapM_cons, h x List.mem_cons_self, ih fun y hy => h y (List.mem_cons_of_mem x hy)]
    rfl

theorem Orderly.filesBelow (h : d.Orderly t) {x : Location × ByteArray}
    (hx : x ∈ t.filesBelow d.base) :
    StorePath.IsLegal ⟨x.1⟩ ∧ t.Reached (d.base ++ x.1) := by
  obtain ⟨hne, hfile⟩ := (FileTree.mem_filesBelow h.tidy.single).mp hx
  exact h.tidy.files x.1 x.2 hne hfile

theorem Orderly.paths_eq (h : d.Orderly t) : d.paths t =
    .ok (((t.filesBelow d.base).map fun x => ⟨x.1⟩).filter fun p =>
      !isStagedName (p.segments.getLastD "")) := by
  have hall : (t.filesBelow d.base).mapM (fun x => pathOf x.1) =
      .ok ((t.filesBelow d.base).map fun x => ⟨x.1⟩) :=
    mapM_eq_ok fun x hx => pathOf_legal (h.filesBelow hx).1
  exact congrArg (· >>= fun all => pure (all.filter fun p =>
    !isStagedName (p.segments.getLastD ""))) hall

/-- The paths of all blobs are the legal ones at which a blob is found. -/
theorem Orderly.paths (h : d.Orderly t) : ∃ paths, d.paths t = .ok paths ∧
    ∀ p, p ∈ paths ↔ p.IsLegal ∧ ∃ content, d.get t p = .ok content := by
  refine ⟨_, h.paths_eq, fun p => ?_⟩
  simp only [List.mem_filter, List.mem_map, Bool.not_eq_eq_eq_not, Bool.not_true]
  constructor
  · rintro ⟨⟨x, hx, rfl⟩, hname⟩
    obtain ⟨hlegal, hreached⟩ := h.filesBelow hx
    obtain ⟨hne, hfile⟩ := (FileTree.mem_filesBelow h.tidy.single).mp hx
    refine ⟨hlegal, x.2, (get_ok_iff h.clean hlegal.clean).mpr ⟨_, ?_, hreached, hfile⟩⟩
    refine locate_ok_iff.mpr ⟨⟨_, List.getLast?_eq_some_getLast hne, ?_⟩, rfl⟩
    rw [List.getLastD_eq_getLast?, List.getLast?_eq_some_getLast hne] at hname
    exact hname
  · rintro ⟨hlegal, content, hget⟩
    obtain ⟨l, hloc, _, hfile⟩ := (get_ok_iff h.clean hlegal.clean).mp hget
    obtain ⟨⟨name, hlast, hname⟩, rfl⟩ := locate_ok_iff.mp hloc
    refine ⟨⟨(p.segments, content), ?_, rfl⟩, ?_⟩
    · exact (FileTree.mem_filesBelow h.tidy.single).mpr ⟨segments_ne_nil hloc, hfile⟩
    · rw [List.getLastD_eq_getLast?, hlast]
      exact hname

end DirectoryStore

namespace MemoryStore

variable {m : MemoryStore} {p : StorePath}

structure Orderly (m : MemoryStore) : Prop where
  blobs : ∀ e ∈ m.blobs, e.1.IsLegal
  writers : ∀ e ∈ m.writers, e.2.path.IsLegal

theorem Orderly.openWriter (h : m.Orderly) (hp : p.IsLegal) : (m.openWriter p).2.Orderly := by
  refine ⟨h.blobs, fun e he => ?_⟩
  rcases List.mem_cons.mp he with rfl | he
  · exact hp
  · exact h.writers e he

theorem Orderly.write (h : m.Orderly) (w : Writer) (chunk : ByteArray) :
    (m.write w chunk).Orderly := by
  refine ⟨h.blobs, fun e he => ?_⟩
  obtain ⟨old, hold, rfl⟩ := List.mem_map.mp he
  have hpath := h.writers old hold
  obtain ⟨id, b⟩ := old
  by_cases hid : (id == w.id) = true
  · simpa [hid] using hpath
  · simpa [hid] using hpath

theorem Orderly.abort (h : m.Orderly) (w : Writer) : (m.abort w).Orderly :=
  ⟨h.blobs, fun e he => h.writers e (List.mem_filter.mp he).1⟩

theorem Orderly.put (h : m.Orderly) (hp : p.IsLegal) (content : ByteArray) :
    (m.put p content).Orderly := by
  refine ⟨fun e he => ?_, h.writers⟩
  rcases List.mem_cons.mp he with rfl | he
  · exact hp
  · exact h.blobs e (List.mem_filter.mp he).1

theorem Orderly.finalize (h : m.Orderly) (w : Writer) : (m.finalize w).Orderly := by
  rw [MemoryStore.finalize]
  split
  · exact h
  · next b hlookup =>
    exact (h.abort w).put (h.writers _ (DirectoryStore.mem_of_lookup hlookup)) _

theorem mem_paths_iff : p ∈ m.paths ↔ ∃ content, m.get? p = some content := by
  rw [← Option.isSome_iff_exists, get?, List.lookup_isSome_iff, paths, List.mem_map]
  simp only [beq_iff_eq, eq_comm (a := p)]

end MemoryStore

namespace Vault

variable {v : Vault} {t : FileTree} {k : Key} {w : Writer} {p : StorePath}

/-- A local store in which every blob lies at a legal path and can be reached there. -/
def Orderly (v : Vault) (t : FileTree) : Prop :=
  match v.storage with
  | .memory m => m.Orderly
  | .directory d => d.Orderly t
  | .cloud | .scripted _ => False

theorem Orderly.isLocal (h : v.Orderly t) : v.IsLocal := by
  obtain ⟨bucket, storage⟩ := v
  cases storage with
  | memory m => trivial
  | directory d => exact h.clean
  | cloud => exact h.elim
  | scripted s => exact h.elim

theorem Orderly.openWriter {a : Aftermath} (h : v.Orderly t)
    (hopen : v.openWriter t k = (.ok w, a)) : a.vault.Orderly a.files := by
  obtain ⟨bucket, storage⟩ := v
  cases storage with
  | memory m =>
    obtain ⟨_, rfl⟩ := Prod.mk.inj hopen
    exact MemoryStore.Orderly.openWriter h (StorePath.isLegal_ofKey k)
  | directory d =>
    simp only [Vault.openWriter] at hopen
    cases hd : d.openWriter t (.ofKey k) with
    | error fault =>
      rw [hd] at hopen
      cases (Prod.mk.inj hopen).1
    | ok opened =>
      obtain ⟨w', d', t'⟩ := opened
      rw [hd] at hopen
      obtain ⟨_, rfl⟩ := Prod.mk.inj hopen
      exact (DirectoryStore.Orderly.openWriter h (StorePath.isLegal_ofKey k) hd).1
  | cloud => exact h.elim
  | scripted s => exact h.elim

theorem Orderly.write (h : v.Orderly t) (w : Writer) (chunk : ByteArray) :
    (v.write t w chunk).2.vault.Orderly (v.write t w chunk).2.files := by
  obtain ⟨bucket, storage⟩ := v
  cases storage with
  | memory m => exact MemoryStore.Orderly.write h w chunk
  | directory d => exact DirectoryStore.Orderly.write h w chunk
  | cloud => exact h.elim
  | scripted s => exact h.elim

theorem Orderly.finalize (h : v.Orderly t) (staging : Location) (w : Writer) :
    (v.finalize t staging w).2.vault.Orderly (v.finalize t staging w).2.files := by
  obtain ⟨bucket, storage⟩ := v
  cases storage with
  | memory m => exact MemoryStore.Orderly.finalize h w
  | directory d => exact DirectoryStore.Orderly.finalize h w
  | cloud => exact h.elim
  | scripted s => exact h.elim

theorem Orderly.abort (h : v.Orderly t) (w : Writer) :
    (v.abort t w).2.vault.Orderly (v.abort t w).2.files := by
  obtain ⟨bucket, storage⟩ := v
  cases storage with
  | memory m => exact MemoryStore.Orderly.abort h w
  | directory d => exact DirectoryStore.Orderly.abort h w
  | cloud => exact h.elim
  | scripted s => exact h.elim

theorem Orderly.putRaw (h : v.Orderly t) (hp : p.IsLegal) (content : ByteArray) :
    (v.putRaw t p content).2.vault.Orderly (v.putRaw t p content).2.files := by
  obtain ⟨bucket, storage⟩ := v
  cases storage with
  | memory m => exact MemoryStore.Orderly.put h hp content
  | directory d =>
    simp only [Vault.putRaw]
    cases hput : d.put t p content with
    | error fault => exact h
    | ok t' => exact ⟨h.toIsBound, DirectoryStore.Orderly.put h hp hput⟩
  | cloud => exact h.elim
  | scripted s => exact h.elim

/-- Other tools may change the files around a store, as long as its directory stays tidy. -/
theorem Orderly.retree {t' : FileTree} (h : v.Orderly t)
    (htidy : ∀ base, v.base? = some base → t.IsTidy base → t'.IsTidy base) : v.Orderly t' := by
  obtain ⟨bucket, storage⟩ := v
  cases storage with
  | memory m => exact h
  | directory d => exact ⟨h.toIsBound, htidy d.base rfl h.tidy⟩
  | cloud => exact h.elim
  | scripted s => exact h.elim

theorem mem_keysOfPaths {paths : List StorePath} :
    k ∈ keysOfPaths paths ↔ ∃ p ∈ paths, k.text = p.text := by
  rw [keysOfPaths, Key.sorted, List.mem_mergeSort, List.mem_filterMap]
  exact exists_congr fun p => and_congr_right fun _ => Key.ofText?_eq_some_iff

/-- An orderly store lists the texts of the legal paths at which it stores something. -/
theorem Orderly.list (h : v.Orderly t) : ∃ keys, (v.list t).1 = .ok keys ∧ ∀ k, k ∈ keys ↔
    ∃ (p : StorePath) (content : ByteArray), p.IsLegal ∧ v.Stores t p content ∧
      k.text = p.text := by
  obtain ⟨bucket, storage⟩ := v
  cases storage with
  | memory m =>
    refine ⟨_, rfl, fun k => mem_keysOfPaths.trans (exists_congr fun p => ?_)⟩
    rw [MemoryStore.mem_paths_iff]
    constructor
    · rintro ⟨⟨content, hget⟩, htext⟩
      obtain ⟨e, he, rfl⟩ := List.mem_map.mp (MemoryStore.mem_paths_iff.mpr ⟨content, hget⟩)
      exact ⟨content, MemoryStore.Orderly.blobs h e he, hget, htext⟩
    · rintro ⟨content, _, hget, htext⟩
      exact ⟨⟨content, hget⟩, htext⟩
  | directory d =>
    obtain ⟨paths, hpaths, hmem⟩ := DirectoryStore.Orderly.paths h
    refine ⟨keysOfPaths paths, by simp only [Vault.list, hpaths], fun k => ?_⟩
    refine mem_keysOfPaths.trans (exists_congr fun p => ?_)
    rw [hmem]
    constructor
    · rintro ⟨⟨hlegal, content, hget⟩, htext⟩
      exact ⟨content, hlegal, hget, htext⟩
    · rintro ⟨content, hlegal, hget, htext⟩
      exact ⟨⟨hlegal, content, hget⟩, htext⟩
  | cloud => exact h.elim
  | scripted s => exact h.elim

end Vault
end DumpVault
