import DumpVault.Proofs.Pieces
import DumpVault.Proofs.Segments
import DumpVault.Proofs.Trees
import DumpVault.Store.Directory
import Mathlib.Data.List.TakeWhile

/-!
# Blobs in a directory as a map

Read through its paths, a directory of blobs is a map. A writer's staged file has a `#` in its name,
so it lies at no path of a key and above none; what it holds is published by one renaming, which
changes the map at the writer's own path and nowhere else.
-/
namespace DumpVault

/-- A path of names without `#`, the mark of staged files. -/
structure StorePath.IsSafe (p : StorePath) : Prop where
  clean : Location.IsClean p.segments
  noHash : ∀ s ∈ p.segments, '#' ∉ s.toList

theorem StorePath.isSafe_ofKey (k : Key) : (StorePath.ofKey k).IsSafe := by
  refine ⟨isClean_ofKey k, fun s hs hhash => ?_⟩
  exact absurd (plain_of_mem_ofKey hs hhash) (by decide)

namespace DirectoryStore

variable {d d' : DirectoryStore} {t t' : FileTree} {p q : StorePath} {w : Writer}
  {target staged l : Location} {content bytes : ByteArray}

theorem locate_ok_iff : d.locate p = .ok l ↔
    (∃ name, p.segments.getLast? = some name ∧ isStagedName name = false) ∧
      l = d.base ++ p.segments := by
  rw [locate]
  cases hlast : p.segments.getLast? with
  | none => simp
  | some name =>
    cases hstaged : isStagedName name with
    | true => simp [hstaged]
    | false => simp [hstaged, eq_comm (b := l)]

theorem segments_ne_nil (h : d.locate p = .ok l) : p.segments ≠ [] := by
  obtain ⟨⟨name, hlast, _⟩, _⟩ := locate_ok_iff.mp h
  intro hnil
  rw [hnil] at hlast
  cases hlast

theorem isClean_of_locate (hb : d.base.IsClean) (hp : Location.IsClean p.segments)
    (h : d.locate p = .ok l) : l.IsClean ∧ l ≠ [] := by
  have hne := segments_ne_nil h
  obtain ⟨_, rfl⟩ := locate_ok_iff.mp h
  exact ⟨hb.append hp, fun hnil => hne (List.append_eq_nil_iff.mp hnil).2⟩

theorem get_ok_iff (hb : d.base.IsClean) (hp : Location.IsClean p.segments) :
    d.get t p = .ok content ↔
      ∃ l, d.locate p = .ok l ∧ t.Reached l ∧ t.at? l = some (.file content) := by
  rw [get]
  cases hloc : d.locate p with
  | error fault =>
    simp only [bind, Except.bind]
    constructor
    · intro h
      cases h
    · rintro ⟨_, h, _⟩
      cases h
  | ok l =>
    obtain ⟨hl, hne⟩ := isClean_of_locate hb hp hloc
    have hfile := FileTree.stat_text_ok_iff (t := t) (m := l) (e := .file content) hl hne
    simp only [true_and] at hfile
    simp only [bind, Except.bind, Except.ok.injEq, exists_eq_left', ← hfile]
    cases hstat : t.stat [] l.text with
    | error fault =>
      cases fault with
      | os code =>
        simp only [reduceCtorEq, iff_false]
        split <;> exact fun h => by cases h
      | _ => simp [throw, throwThe, MonadExceptOf.throw]
    | ok found =>
      obtain ⟨m, e⟩ := found
      have hm := (FileTree.stat_text_ok_iff hl hne).mp hstat
      cases e with
      | directory => simp [throw, throwThe, MonadExceptOf.throw]
      | file bytes => simp [pure, Except.pure, hm.1]

/-- What is looked up depends on the places at and above its own only. -/
theorem get_of_kept (hb : d.base.IsClean) (hp : Location.IsClean p.segments)
    (hbase : d'.base = d.base) (h : d.get t p = .ok content)
    (hkept : ∀ m e, m <+: d.base ++ p.segments → t.at? m = some e → t'.at? m = some e) :
    d'.get t' p = .ok content := by
  obtain ⟨l, hloc, hreached, hfile⟩ := (get_ok_iff hb hp).mp h
  have hl := (locate_ok_iff.mp hloc).2
  have hloc' : d'.locate p = .ok l := by
    refine locate_ok_iff.mpr ⟨(locate_ok_iff.mp hloc).1, ?_⟩
    rw [hl, hbase]
  refine (get_ok_iff (hbase ▸ hb) hp).mpr ⟨l, hloc', ?_, hkept l _ (hl ▸ List.prefix_rfl) hfile⟩
  exact hreached.mono fun m hm _ hdir => hkept m _ (hl ▸ hm) hdir

theorem stagedAt_concat (dir : Location) (name : String) (number : Nat) :
    stagedAt (dir ++ [name]) number = dir ++ [name ++ "#" ++ Text.natText number] := by
  simp [stagedAt]

theorem exists_concat (h : target ≠ []) : ∃ dir name, target = dir ++ [name] :=
  ⟨target.dropLast, target.getLast h, (List.dropLast_concat_getLast h).symm⟩

theorem noSlash_natText (n : Nat) : '/' ∉ (Text.natText n).toList := by
  intro h
  rw [Text.natText, String.toList_ofList] at h
  exact absurd (Nat.isDigit_of_mem_toDigits (by decide) (by decide) h) (by decide)

theorem isClean_stagedAt (ht : target.IsClean) (hne : target ≠ []) (number : Nat) :
    Location.IsClean (stagedAt target number) := by
  obtain ⟨dir, name, rfl⟩ := exists_concat hne
  rw [stagedAt_concat]
  have hname := ht name (by simp)
  have hhash : '#' ∈ (name ++ "#" ++ Text.natText number).toList := by simp
  have hdir : Location.IsClean dir := fun s hs => ht s (List.mem_append_left _ hs)
  refine hdir.append fun s hs => ?_
  obtain rfl := List.mem_singleton.mp hs
  refine ⟨?_, ?_, ?_, ?_⟩
  · intro h
    rw [h] at hhash
    exact absurd hhash (by decide)
  · intro h
    rw [h] at hhash
    exact absurd hhash (by decide)
  · intro h
    rw [h] at hhash
    exact absurd hhash (by decide)
  · simp only [String.toList_append, List.mem_append, not_or]
    exact ⟨⟨hname.noSlash, by decide⟩, noSlash_natText number⟩

theorem stagedAt_ne_nil (target : Location) (number : Nat) : stagedAt target number ≠ [] := by
  simp [stagedAt]

/-- A staged file lies at no path without `#`, and above none. -/
theorem stagedAt_not_prefix (base : Location) {segments : List String} (hne : segments ≠ [])
    (hq : q.IsSafe) (number : Nat) :
    ¬ stagedAt (base ++ segments) number <+: base ++ q.segments := by
  obtain ⟨dir, name, rfl⟩ := exists_concat hne
  rw [← List.append_assoc, stagedAt_concat, List.append_assoc, List.prefix_append_right_inj]
  intro h
  have hmem : name ++ "#" ++ Text.natText number ∈ q.segments :=
    h.subset (List.mem_append_right _ (List.mem_singleton.mpr rfl))
  exact hq.noHash _ hmem (by simp)

theorem text_stagedAt (hne : target ≠ []) (number : Nat) :
    Location.text (stagedAt target number) = target.text ++ ("#" ++ Text.natText number) := by
  obtain ⟨dir, name, rfl⟩ := exists_concat hne
  rw [stagedAt_concat]
  apply String.toList_inj.mp
  simp [Location.text, String.toList_join, List.flatMap_map]

/-- Where a staged file is reached, its blob's own place is. -/
theorem reached_of_staged (hne : target ≠ []) {number : Nat}
    (h : t.Reached (stagedAt target number)) : t.Reached target := by
  have htext := text_stagedAt hne number
  refine ⟨?_, ?_, ?_⟩
  · intro pre name post hsplit
    obtain ⟨dir, last, rfl⟩ := exists_concat hne
    rcases List.eq_nil_or_concat post with rfl | ⟨post, final, rfl⟩
    · obtain ⟨rfl, hlast⟩ := List.append_inj' hsplit rfl
      obtain rfl := List.singleton_inj.mp hlast
      obtain ⟨hdir, hlong⟩ := h.above dir _ [] (stagedAt_concat dir last number)
      refine ⟨hdir, Nat.le_trans ?_ hlong⟩
      rw [String.utf8ByteSize_append, String.utf8ByteSize_append]
      omega
    · have hcut : dir ++ [last] = (pre ++ name :: post) ++ [final] := by simpa using hsplit
      obtain ⟨hdir, _⟩ := List.append_inj' hcut rfl
      refine h.above pre name (post ++ [last ++ "#" ++ Text.natText number]) ?_
      rw [stagedAt_concat, hdir]
      simp
  · refine Nat.lt_of_le_of_lt ?_ h.short
    rw [htext, String.utf8ByteSize_append]
    omega
  · intro hnul
    refine h.noNul ?_
    rw [htext, String.toList_append]
    exact List.mem_append_left _ hnul

theorem freeStaged_eq (t : FileTree) (target : Location) (fuel number : Nat) :
    ∃ n, freeStaged t target fuel number = stagedAt target n := by
  induction fuel generalizing number with
  | zero => exact ⟨number, rfl⟩
  | succ fuel ih =>
    rw [freeStaged]
    split
    · exact ⟨number, rfl⟩
    · exact ih (number + 1)

/-- A staged file is written at once, or when the directories above it have been made. -/
theorem createStaged_eq (h : createStaged t target = .ok (t', staged)) :
    ∃ u, (u = t ∨ t.makeDirectories [] (Location.text staged.dropLast) = .ok u) ∧
      u.writeFile [] staged.text .empty = .ok t' ∧ ∃ number, staged = stagedAt target number := by
  obtain ⟨number, hfree⟩ := freeStaged_eq t target t.entries.length 1
  rw [createStaged, hfree] at h
  cases hfirst : t.writeFile [] (stagedAt target number).text .empty with
  | ok u =>
    rw [hfirst] at h
    obtain ⟨rfl, rfl⟩ := Prod.mk.inj (Except.ok.inj h)
    exact ⟨t, .inl rfl, hfirst, number, rfl⟩
  | error fault =>
    rw [hfirst] at h
    cases fault with
    | os code =>
      simp only at h
      split at h
      · cases hmake : t.makeDirectories [] (Location.text (stagedAt target number).dropLast) with
        | error fault =>
          rw [hmake] at h
          cases h
        | ok u =>
          rw [hmake] at h
          simp only at h
          cases hsecond : u.writeFile [] (stagedAt target number).text .empty with
          | error fault =>
            rw [hsecond] at h
            cases h
          | ok u' =>
            rw [hsecond] at h
            obtain ⟨rfl, rfl⟩ := Prod.mk.inj (Except.ok.inj h)
            exact ⟨u, .inr hmake, hsecond, number, rfl⟩
      · cases h
    | _ => cases h

/-- A new staged file is empty and reached. Beside it only directories have come, where nothing
was. -/
theorem createStaged_ok (ht : target.IsClean) (hne : target ≠ [])
    (h : createStaged t target = .ok (t', staged)) :
    (∃ number, staged = stagedAt target number) ∧ t'.Reached staged ∧
      t.at? staged ≠ some .directory ∧ t'.at? staged = some (.file .empty) ∧
      ∀ m, m ≠ staged → t'.at? m = t.at? m ∨
        (t.at? m = none ∧ t'.at? m = some .directory ∧ m <+: staged.dropLast) := by
  obtain ⟨u, hgrow, hwrite, number, rfl⟩ := createStaged_eq h
  have hclean := isClean_stagedAt ht hne number
  have hnil := stagedAt_ne_nil target number
  -- the tree in which the file is written has grown by directories only
  have hgrown : ∀ m, u.at? m = t.at? m ∨ (t.at? m = none ∧ u.at? m = some .directory ∧
      m <+: (stagedAt target number).dropLast) := by
    rcases hgrow with rfl | hmake
    · exact fun m => .inl rfl
    · exact FileTree.makeDirectories_text_ok hclean.dropLast hmake
  obtain ⟨hreached, hnodir, rfl⟩ := FileTree.writeFile_text_ok hclean hnil hwrite
  refine ⟨⟨number, rfl⟩, hreached.mono fun m _ hm hdir => ?_, fun hdir => hnodir ?_,
    FileTree.at?_put_self _ _ _ hnil, fun m hm => ?_⟩
  · rw [FileTree.at?_put_of_ne _ _ hm, hdir]
  · rcases hgrown (stagedAt target number) with heq | ⟨_, hdir', _⟩
    · rw [heq, hdir]
    · exact hdir'
  · rw [FileTree.at?_put_of_ne _ _ hm]
    exact hgrown m

/-- A writer of the blob at `p` whose staged file holds `bytes`. -/
def Fills (d : DirectoryStore) (t : FileTree) (w : Writer) (p : StorePath) (bytes : ByteArray) :
    Prop :=
  ∃ target number, d.locate p = .ok target ∧
    d.writers.lookup w.id = some ⟨target, stagedAt target number⟩ ∧
    t.Reached (stagedAt target number) ∧ t.at? (stagedAt target number) = some (.file bytes)

theorem base_prefix_stagedAt (h : d.locate p = .ok target) (number : Nat) :
    d.base <+: stagedAt target number := by
  have hne := segments_ne_nil h
  obtain ⟨_, rfl⟩ := locate_ok_iff.mp h
  obtain ⟨dir, name, hsegments⟩ := exists_concat hne
  rw [hsegments, ← List.append_assoc, stagedAt_concat, List.append_assoc]
  exact List.prefix_append _ _

theorem staged_not_above (h : d.locate p = .ok target) (hq : q.IsSafe) (number : Nat) {m : Location}
    (hm : m <+: d.base ++ q.segments) : m ≠ stagedAt target number := by
  have hne := segments_ne_nil h
  obtain ⟨_, rfl⟩ := locate_ok_iff.mp h
  rintro rfl
  exact stagedAt_not_prefix d.base hne hq number hm

theorem openWriter_eq (h : d.openWriter t p = .ok (w, d', t')) :
    ∃ target staged, d.locate p = .ok target ∧ createStaged t target = .ok (t', staged) ∧
      w = ⟨d.opened⟩ ∧ d' = { d with
        writers := (d.opened, ⟨target, staged⟩) :: d.writers, opened := d.opened + 1 } := by
  rw [DirectoryStore.openWriter] at h
  cases hloc : d.locate p with
  | error fault =>
    rw [hloc] at h
    cases h
  | ok target =>
    rw [hloc] at h
    simp only [bind, Except.bind] at h
    cases hnew : createStaged t target with
    | error fault =>
      rw [hnew] at h
      cases h
    | ok new =>
      obtain ⟨u, staged⟩ := new
      rw [hnew] at h
      obtain ⟨rfl, hrest⟩ := Prod.mk.inj (Except.ok.inj h)
      obtain ⟨rfl, rfl⟩ := Prod.mk.inj hrest
      exact ⟨target, staged, rfl, hnew, rfl, rfl⟩

theorem openWriter_ok (hb : d.base.IsClean) (hp : Location.IsClean p.segments)
    (h : d.openWriter t p = .ok (w, d', t')) :
    d'.base = d.base ∧ d'.Fills t' w p .empty ∧ FileTree.ChangedWithin d.base t t' ∧
      ∀ q content, q.IsSafe → d.get t q = .ok content → d'.get t' q = .ok content := by
  obtain ⟨target, staged, hloc, hnew, rfl, rfl⟩ := openWriter_eq h
  obtain ⟨hclean, hne⟩ := isClean_of_locate hb hp hloc
  obtain ⟨⟨number, rfl⟩, hreached, _, hfile, hframe⟩ := createStaged_ok hclean hne hnew
  have hlocated : DirectoryStore.locate ⟨d.base, (d.opened, ⟨target, stagedAt target number⟩) ::
      d.writers, d.opened + 1⟩ p = .ok target := hloc
  refine ⟨rfl, ⟨target, number, hlocated, by simp, hreached, hfile⟩, ?_, ?_⟩
  · intro m hm
    have hstaged : m ≠ stagedAt target number := by
      rintro rfl
      exact hm (base_prefix_stagedAt hloc number)
    rcases hframe m hstaged with heq | ⟨hnone, hdir, hpre⟩
    · exact .inl heq
    · refine .inr ⟨hnone, hdir, ?_⟩
      have hbase : d.base <+: stagedAt target number := base_prefix_stagedAt hloc number
      rcases List.prefix_or_prefix_of_prefix (hpre.trans (List.dropLast_prefix _)) hbase with
        h | h
      · exact h
      · exact absurd h hm
  · intro q content hq hget
    refine get_of_kept hb hq.clean rfl hget fun m e hm he => ?_
    rcases hframe m (staged_not_above hloc hq number hm) with heq | ⟨hnone, _⟩
    · rw [heq, he]
    · rw [he] at hnone
      cases hnone

theorem write_ok (hb : d.base.IsClean) (h : d.Fills t w p bytes) (chunk : ByteArray) :
    d.Fills (d.write t w chunk) w p (bytes ++ chunk) ∧
      FileTree.ChangedWithin d.base t (d.write t w chunk) ∧
      ∀ q content, q.IsSafe → d.get t q = .ok content → d.get (d.write t w chunk) q = .ok content := by
  obtain ⟨target, number, hloc, hlookup, hreached, hfile⟩ := h
  have hnil := stagedAt_ne_nil target number
  have hwrite : d.write t w chunk = t.put (stagedAt target number) (.file (bytes ++ chunk)) := by
    simp [write, hlookup, FileTree.content?, hfile]
  rw [hwrite]
  refine ⟨⟨target, number, hloc, hlookup, ?_, FileTree.at?_put_self _ _ _ hnil⟩,
    FileTree.changedWithin_put _ _ (base_prefix_stagedAt hloc number), ?_⟩
  · refine hreached.mono fun m _ hm hdir => ?_
    rw [FileTree.at?_put_of_ne _ _ hm, hdir]
  · intro q content hq hget
    refine get_of_kept hb hq.clean rfl hget fun m e hm he => ?_
    rw [FileTree.at?_put_of_ne _ _ (staged_not_above hloc hq number hm), he]

theorem abort_ok (hb : d.base.IsClean) (h : d.Fills t w p bytes) :
    (d.abort t w).1.base = d.base ∧ FileTree.ChangedWithin d.base t (d.abort t w).2 ∧
      ∀ q content, q.IsSafe → d.get t q = .ok content →
        (d.abort t w).1.get (d.abort t w).2 q = .ok content := by
  obtain ⟨target, number, hloc, hlookup, hreached, hfile⟩ := h
  have habort : d.abort t w = (d.close w, t.erase (stagedAt target number)) := by
    simp [abort, hlookup, FileTree.dropFile, FileTree.content?, hfile]
  rw [habort]
  refine ⟨rfl, FileTree.changedWithin_erase _ (base_prefix_stagedAt hloc number), ?_⟩
  intro q content hq hget
  refine get_of_kept hb hq.clean rfl hget fun m e hm he => ?_
  rw [FileTree.at?_erase_of_ne _ (staged_not_above hloc hq number hm), he]

/-- A staged file that gets the blob's name is the blob; no other blob changes. -/
theorem rename_publishes (hb : d.base.IsClean) (hp : Location.IsClean p.segments)
    (hloc : d.locate p = .ok target) {number : Nat} (hreached : t.Reached (stagedAt target number))
    (hfile : t.at? (stagedAt target number) = some (.file bytes))
    (hmove : t.renameFile (stagedAt target number) target = .ok t') :
    FileTree.ChangedWithin d.base t t' ∧ d.get t' p = .ok bytes ∧
      ∀ q content, q.IsSafe → q ≠ p → d.get t q = .ok content → d.get t' q = .ok content := by
  obtain ⟨_, hne⟩ := isClean_of_locate hb hp hloc
  have htarget := (locate_ok_iff.mp hloc).2
  obtain ⟨moved, hmoved, hnodir, rfl⟩ := FileTree.renameFile_ok hmove
  obtain rfl : bytes = moved := by
    rw [hfile] at hmoved
    exact Entry.file.inj (Option.some.inj hmoved)
  have hbase : d.base <+: target := ⟨p.segments, htarget.symm⟩
  have hother : ∀ m, m ≠ stagedAt target number → m ≠ target →
      ((t.erase (stagedAt target number)).put target (.file bytes)).at? m = t.at? m := by
    intro m hs ht
    rw [FileTree.at?_put_of_ne _ _ ht, FileTree.at?_erase_of_ne _ hs]
  refine ⟨?_, ?_, fun q content hq hpq hget => ?_⟩
  · exact (FileTree.changedWithin_erase _ (base_prefix_stagedAt hloc number)).trans
      (FileTree.changedWithin_put _ _ hbase)
  · refine (get_ok_iff hb hp).mpr ⟨target, hloc, ?_, FileTree.at?_put_self _ _ _ hne⟩
    refine (reached_of_staged hne hreached).mono fun m hm hmt hdir => ?_
    have hshort : m ≠ stagedAt target number := by
      rintro rfl
      rw [hfile] at hdir
      cases hdir
    rw [hother m hshort hmt, hdir]
  · obtain ⟨l, hlq, hrq, _⟩ := (get_ok_iff hb hq.clean).mp hget
    have hl := (locate_ok_iff.mp hlq).2
    refine get_of_kept hb hq.clean rfl hget fun m e hm he => ?_
    rw [hother m (staged_not_above hloc hq number hm) ?_, he]
    rintro rfl
    -- the renamed file would be the other blob itself or a directory above it
    obtain ⟨rest, hrest⟩ := hm
    cases rest with
    | nil =>
      rw [List.append_nil, htarget] at hrest
      refine hpq ?_
      cases p
      cases q
      simpa using hrest.symm
    | cons name rest =>
      exact hnodir (hrq.above m name rest (by rw [hl, hrest])).1

/-- Finalizing publishes all that a writer has taken in, or nothing; no other blob changes. -/
theorem finalize_ok (hb : d.base.IsClean) (hp : Location.IsClean p.segments)
    (h : d.Fills t w p bytes) {r : Except BlobFault Unit} (hend : d.finalize t w = (r, d', t')) :
    d'.base = d.base ∧ FileTree.ChangedWithin d.base t t' ∧
      (r = .ok () → d'.get t' p = .ok bytes) ∧
      ∀ q content, q.IsSafe → q ≠ p → d.get t q = .ok content → d'.get t' q = .ok content := by
  obtain ⟨target, number, hloc, hlookup, hreached, hfile⟩ := h
  rw [finalize, hlookup] at hend
  simp only at hend
  cases hmove : t.renameFile (stagedAt target number) target with
  | error fault =>
    rw [hmove] at hend
    obtain ⟨rfl, hrest⟩ := Prod.mk.inj hend
    obtain ⟨rfl, rfl⟩ := Prod.mk.inj hrest
    refine ⟨rfl, .refl _ _, fun h => (by cases h), fun q content hq _ hget => ?_⟩
    exact get_of_kept hb hq.clean rfl hget fun m e _ he => he
  | ok u =>
    rw [hmove] at hend
    obtain ⟨rfl, hrest⟩ := Prod.mk.inj hend
    obtain ⟨rfl, rfl⟩ := Prod.mk.inj hrest
    obtain ⟨hwithin, hget, hothers⟩ := rename_publishes hb hp hloc hreached hfile hmove
    exact ⟨rfl, hwithin, fun _ => hget, hothers⟩

end DirectoryStore
end DumpVault
