import DumpVault.Proofs.Buckets
import DumpVault.Proofs.Inventory

/-!
# Stores devoted to one key

A store that has just been opened has no writers, and while one upload goes on all its writers fill
the blob of one key. Such a store puts files at two places only: where a writer has its staged file,
whose name no blob has, and where the blob itself is to lie. If the key has been found to be free,
nothing was there.
-/
namespace DumpVault
open Prog World

/-- A place whose name no staged file has. -/
def Location.IsBlobPlace (l : Location) : Prop :=
  DirectoryStore.isStagedName (l.getLastD "") = false

theorem Location.isBlobPlace_append {names : Location} (base : Location) (hne : names ≠ []) :
    Location.IsBlobPlace (base ++ names) ↔ Location.IsBlobPlace names := by
  obtain ⟨dir, name, rfl⟩ := DirectoryStore.exists_concat hne
  simp [Location.IsBlobPlace, ← List.append_assoc]

namespace FileTree

variable {t t' : FileTree} {l names : Location} {e : Entry} {content : ByteArray}

theorem content?_of_grown
    (h : t'.at? l = t.at? l ∨ (t.at? l = none ∧ t'.at? l = some .directory)) :
    t'.content? l = t.content? l := by
  rcases h with heq | ⟨hnone, hdir⟩
  · exact content?_congr heq
  · rw [content?, content?, hnone, hdir]

/-- All places above a place are directories. -/
def IsHoused (t : FileTree) (l : Location) : Prop :=
  ∀ above name below, l = above ++ name :: below → t.at? above = some .directory

/-- A tree as a machine keeps it: every place once, and each file under a clean name and in
directories. -/
structure IsSound (t : FileTree) : Prop where
  single : t.IsSingle
  clean : ∀ l content, t.content? l = some content → l.IsClean
  housed : ∀ l content, t.content? l = some content → t.IsHoused l

theorem walk_of_housed (hclean : Location.IsClean names)
    (hhoused : ∀ above name below, names = above ++ name :: below →
      t.at? (l ++ above) = some .directory) :
    t.walk l names = .ok (l ++ names) ∨ t.walk l names = .error (.os Fault.nameTooLong) := by
  induction names generalizing l with
  | nil => exact .inl (by rw [walk, List.append_nil])
  | cons name names ih =>
    have hhere : t.at? l = some .directory := by
      have h := hhoused [] name names rfl
      rwa [List.append_nil] at h
    have hup : (name == "..") = false := by simpa using (hclean name (by simp)).notUp
    simp only [walk, hhere, hup, Bool.false_eq_true, if_false]
    split
    · exact .inr rfl
    · rw [List.append_cons l name names]
      refine ih (fun s hs => hclean s (List.mem_cons_of_mem _ hs)) fun above next below hsplit => ?_
      rw [← List.append_cons]
      exact hhoused (name :: above) next below (by rw [hsplit, List.cons_append])

/-- A file in its directories is found, unless its path cannot be used at all. -/
theorem stat_of_housed (hclean : l.IsClean) (hne : l ≠ []) (hhoused : t.IsHoused l)
    (he : t.at? l = some e) : t.stat [] l.text = .ok (l, e) ∨
      ∃ fault, t.stat [] l.text = .error fault ∧ fault ≠ .os Fault.noEntry := by
  have hresolve : t.resolve [] l.text = .ok l ∨
      ∃ fault, t.resolve [] l.text = .error fault ∧ fault ≠ .os Fault.noEntry := by
    rw [resolve, ofString_text hclean hne]
    dsimp only
    split
    · exact .inr ⟨_, rfl, by decide⟩
    · split
      · next hempty => cases hempty
      · split
        · exact .inr ⟨_, rfl, by decide⟩
        · rw [if_pos rfl]
          rcases walk_of_housed (l := []) hclean hhoused with hwalk | hwalk
          · rw [hwalk, List.nil_append]
            dsimp only
            split
            · exact .inl rfl
            · exact .inl rfl
          · rw [hwalk]
            exact .inr ⟨_, rfl, by decide⟩
  rcases hresolve with hok | ⟨fault, herror, hfault⟩
  · exact .inl (stat_ok_iff.mpr ⟨hok, he⟩)
  · refine .inr ⟨fault, ?_, hfault⟩
    rw [stat, herror]
    rfl

end FileTree

namespace DirectoryStore

variable {d d' : DirectoryStore} {t t' : FileTree} {b : StagedBlob} {k : Key} {w : Writer}
  {p : StorePath} {l : Location} {content : ByteArray}

theorem locate_error {fault : BlobFault} (h : d.locate p = .error fault) :
    fault.isNotFound = false := by
  rw [locate] at h
  split at h
  · cases h
    rfl
  · split at h
    · cases h
      rfl
    · cases h

/-- A blob in its directories is never taken to be missing. -/
theorem get_of_housed (hb : d.base.IsClean) (hp : Location.IsClean p.segments)
    (hhoused : t.IsHoused (d.base ++ p.segments))
    (hfile : t.content? (d.base ++ p.segments) = some content) {fault : BlobFault}
    (h : d.get t p = .error fault) : fault.isNotFound = false := by
  rw [get] at h
  cases hloc : d.locate p with
  | error cause =>
    rw [hloc] at h
    cases h
    exact locate_error hloc
  | ok l =>
    obtain ⟨hclean, hne⟩ := isClean_of_locate hb hp hloc
    obtain ⟨_, rfl⟩ := locate_ok_iff.mp hloc
    have he := FileTree.content?_eq_some_iff.mp hfile
    rw [hloc] at h
    simp only [Bind.bind, Except.bind] at h
    rcases FileTree.stat_of_housed hclean hne hhoused he with hstat | ⟨cause, hstat, hcause⟩
    · rw [hstat] at h
      cases h
    · rw [hstat] at h
      cases cause with
      | os code =>
        have hcode : code ≠ Fault.noEntry := fun heq => hcause (congrArg IoFault.os heq)
        simp only [if_neg hcode] at h
        cases h
        rfl
      | bare | described | atPath | blob =>
        cases h
        rfl

/-- No blob lies where a writer of a key has its staged file. -/
theorem Keyed.not_blobPlace (hb : d.Keyed b) : ¬ b.staged.IsBlobPlace := by
  obtain ⟨k, number, hloc, hstaged⟩ := hb
  obtain ⟨_, htarget⟩ := locate_ok_iff.mp hloc
  obtain ⟨dir, last, hsegments⟩ := exists_concat (segments_ne_nil hloc)
  have hsegment : last ∈ (StorePath.ofKey k).segments := by simp [hsegments]
  have hhash := (StorePath.isSafe_ofKey k).noHash last hsegment
  rw [hstaged, htarget, hsegments, ← List.append_assoc, stagedAt_concat, Location.IsBlobPlace,
    List.getLastD_concat, isStagedName_append hhash]
  exact Bool.noConfusion

/-- All writers of a store fill the blob of one key. -/
structure IsDevoted (d : DirectoryStore) (k : Key) : Prop where
  clean : d.base.IsClean
  keyed : d.IsKeyed
  target : ∀ e ∈ d.writers, e.2.target = d.base ++ (StorePath.ofKey k).segments

theorem IsDevoted.close (h : d.IsDevoted k) (w : Writer) : (d.close w).IsDevoted k :=
  ⟨h.clean, h.keyed.close w, fun e he => h.target e (List.mem_filter.mp he).1⟩

/-- The store is still devoted to the key, and beside the key's own place no blob has changed. -/
structure Advances (k : Key) (d : DirectoryStore) (t : FileTree) (d' : DirectoryStore)
    (t' : FileTree) : Prop where
  devoted : d'.IsDevoted k
  base : d'.base = d.base
  blobs : ∀ l, l.IsBlobPlace → l ≠ d.base ++ (StorePath.ofKey k).segments →
    t'.content? l = t.content? l

theorem Advances.refl (h : d.IsDevoted k) (t : FileTree) : Advances k d t d t :=
  ⟨h, rfl, fun _ _ _ => rfl⟩

theorem IsDevoted.openWriter (h : d.IsDevoted k)
    (hopen : d.openWriter t (.ofKey k) = .ok (w, d', t')) : Advances k d t d' t' := by
  obtain ⟨target, staged, hloc, hnew, rfl, rfl⟩ := openWriter_eq hopen
  obtain ⟨hclean, hne⟩ := isClean_of_locate h.clean (StorePath.isClean_ofKey k) hloc
  obtain ⟨⟨number, rfl⟩, _, _, _, hframe⟩ := createStaged_ok hclean hne hnew
  have hb : d.Keyed ⟨target, stagedAt target number⟩ := ⟨k, number, hloc, rfl⟩
  refine ⟨⟨h.clean, ?_, ?_⟩, rfl, fun l hl _ => ?_⟩
  · exact List.forall_mem_cons.mpr ⟨hb, h.keyed⟩
  · exact List.forall_mem_cons.mpr ⟨(locate_ok_iff.mp hloc).2, h.target⟩
  · refine FileTree.content?_of_grown ((hframe l ?_).imp_right fun hnew => ⟨hnew.1, hnew.2.1⟩)
    rintro rfl
    exact hb.not_blobPlace hl

theorem IsDevoted.write (h : d.IsDevoted k) (t : FileTree) (w : Writer) (chunk : ByteArray) :
    Advances k d t d (d.write t w chunk) := by
  refine ⟨h, rfl, fun l hl _ => ?_⟩
  rw [DirectoryStore.write]
  cases hlookup : d.writers.lookup w.id with
  | none => rfl
  | some b =>
    dsimp only
    split
    · refine FileTree.content?_congr (FileTree.at?_put_of_ne _ _ ?_)
      rintro rfl
      exact (h.keyed.of_lookup hlookup).not_blobPlace hl
    · rfl

theorem IsDevoted.abort (h : d.IsDevoted k) (t : FileTree) (w : Writer) :
    Advances k d t (d.abort t w).1 (d.abort t w).2 := by
  rw [DirectoryStore.abort]
  cases hlookup : d.writers.lookup w.id with
  | none => exact .refl h t
  | some b =>
    refine ⟨h.close w, rfl, fun l hl _ => ?_⟩
    rcases FileTree.at?_dropFile t b.staged l with heq | ⟨rfl, _⟩
    · exact FileTree.content?_congr heq
    · exact absurd hl (h.keyed.of_lookup hlookup).not_blobPlace

theorem IsDevoted.finalize (h : d.IsDevoted k) (t : FileTree) (w : Writer) :
    Advances k d t (d.finalize t w).2.1 (d.finalize t w).2.2 := by
  rw [DirectoryStore.finalize]
  cases hlookup : d.writers.lookup w.id with
  | none => exact .refl h t
  | some b =>
    dsimp only
    split
    · next hmove =>
      obtain ⟨content, _, _, rfl⟩ := FileTree.renameFile_ok hmove
      refine ⟨h.close w, rfl, fun l hl htarget => FileTree.content?_congr ?_⟩
      have hstaged : l ≠ b.staged := by
        rintro rfl
        exact (h.keyed.of_lookup hlookup).not_blobPlace hl
      rw [← h.target _ (mem_of_lookup hlookup)] at htarget
      rw [FileTree.at?_put_of_ne _ _ htarget, FileTree.at?_erase_of_ne _ hstaged]
    · exact ⟨h.close w, rfl, fun _ _ _ => rfl⟩

end DirectoryStore

namespace Vault

/-- A store in which writers fill the blob of one key only. -/
def IsDevoted (k : Key) (v : Vault) : Prop :=
  match v.storage with
  | .memory _ | .cloud => True
  | .directory d => d.IsDevoted k
  | .scripted _ => False

/-- The place at which a store keeps the blob of a key. -/
def place? (v : Vault) (k : Key) : Option Location :=
  v.base?.map (· ++ (StorePath.ofKey k).segments)

end Vault

namespace World

variable {S : Setting} {w w' u : World} {k : Key}

/-- What the run has put into its store is the blob of one key, if anything. -/
structure Puts (k : Key) (w w' : World) : Prop where
  devoted : w'.host.vault.IsDevoted k
  base : w'.host.vault.base? = w.host.vault.base?
  cwd : w'.host.cwd = w.host.cwd
  blobs : ∀ l, l.IsBlobPlace → w.host.vault.place? k ≠ some l →
    w'.host.files.content? l = w.host.files.content? l

theorem Puts.refl (h : w.host.vault.IsDevoted k) : Puts k w w := ⟨h, rfl, rfl, fun _ _ _ => rfl⟩

theorem Puts.trans (h : Puts k w w') (h' : Puts k w' u) : Puts k w u := by
  refine ⟨h'.devoted, h'.base.trans h.base, h'.cwd.trans h.cwd, fun l hl hplace => ?_⟩
  have hplace' : w'.host.vault.place? k ≠ some l := by rwa [Vault.place?, h.base]
  rw [h'.blobs l hl hplace', h.blobs l hl hplace]

theorem puts_of_advances {d d' : DirectoryStore} (hv : w.host.vault.storage = .directory d)
    (hv' : w'.host.vault.storage = .directory d') (hcwd : w'.host.cwd = w.host.cwd)
    (h : DirectoryStore.Advances k d w.host.files d' w'.host.files) : Puts k w w' := by
  refine ⟨?_, ?_, hcwd, fun l hl hplace => h.blobs l hl ?_⟩
  · rw [Vault.IsDevoted, hv']
    exact h.devoted
  · rw [Vault.base?, Vault.base?, hv, hv']
    exact congrArg some h.base
  · rintro rfl
    exact hplace (by rw [Vault.place?, Vault.base?, hv, Option.map_some])

theorem puts_after (h : w.host.vault.IsDevoted k) {c : Call} (hc : c.puts k) :
    Puts k w (w.after c) := by
  obtain ⟨⟨files, cwd, environment, clock, ⟨bucket, storage⟩, isCancelled, cancelOn, lines, printed,
    child, staging⟩, pipes⟩ := w
  cases storage with
  | scripted s => exact h.elim
  | memory | cloud =>
    cases c with
    | log | pause | stall | openWriter | write | finalize | abort =>
      exact ⟨trivial, rfl, rfl, fun _ _ _ => rfl⟩
    | _ => exact hc.elim
  | directory d =>
    have hd : d.IsDevoted k := h
    cases c with
    | log | pause | stall => exact puts_of_advances rfl rfl rfl (.refl hd files)
    | openWriter l =>
      obtain rfl : l = k := hc
      simp only [after, Host.answer, Vault.openWriter]
      cases hopen : d.openWriter files (.ofKey l) with
      | error fault => exact puts_of_advances rfl rfl rfl (.refl hd files)
      | ok opened => exact puts_of_advances rfl rfl rfl (hd.openWriter hopen)
    | write wr chunk => exact puts_of_advances rfl rfl rfl (hd.write files wr chunk)
    | finalize wr => exact puts_of_advances rfl rfl rfl (hd.finalize files wr)
    | abort wr => exact puts_of_advances rfl rfl rfl (hd.abort files wr)
    | _ => exact hc.elim

/-- A run that fills the blob of one key changes no other. -/
theorem puts_of_only {α : Type} {p : Prog α} {a : α} (hv : w.host.vault.IsDevoted k)
    (hp : p.Only (Call.puts k)) (h : Runs S w p a w') : Puts k w w' := by
  induction h with
  | pure => exact .refl hv
  | call hr _ ih =>
    have hstore : ∀ {c : Call}, c.puts k → c.isOfStore := by
      intro c hc
      cases c <;> trivial
    rcases answers_of_store (hstore hp.1) hr with rfl | rfl
    · exact ih hv (hp.2 _)
    · have hfirst := puts_after hv hp.1
      exact hfirst.trans (ih hfirst.devoted (hp.2 _))

end World

namespace Vault

variable {v : Vault} {t : FileTree} {k : Key} {l : Location}

/-- A store just opened: nobody has written to it. -/
def IsFresh (v : Vault) : Prop :=
  match v.storage with
  | .memory m => m = {}
  | .directory d => d.base.IsClean ∧ d.writers = []
  | .cloud => True
  | .scripted _ => False

theorem IsFresh.devoted (h : v.IsFresh) (k : Key) : v.IsDevoted k := by
  obtain ⟨bucket, storage⟩ := v
  cases storage with
  | memory | cloud => trivial
  | scripted s => exact h.elim
  | directory d =>
    obtain ⟨hclean, hwriters⟩ : d.base.IsClean ∧ d.writers = [] := h
    have hnone : ∀ e, e ∉ d.writers := fun e he => by simp [hwriters] at he
    exact ⟨hclean, fun e he => absurd he (hnone e), fun e he => absurd he (hnone e)⟩

/-- A key that is found to be free has no file at its place. -/
theorem IsDevoted.vacant (h : v.IsDevoted k) (hfree : (v.contains t k).1 = .ok false)
    (hplace : v.place? k = some l)
    (hhoused : ∀ content, t.content? l = some content → t.IsHoused l) : t.content? l = none := by
  obtain ⟨bucket, storage⟩ := v
  cases storage with
  | memory | cloud => cases hplace
  | scripted s => exact h.elim
  | directory d =>
    have hd : d.IsDevoted k := h
    obtain rfl : d.base ++ (StorePath.ofKey k).segments = l := Option.some.inj hplace
    cases hfile : t.content? (d.base ++ (StorePath.ofKey k).segments) with
    | none => rfl
    | some content =>
      simp only [contains] at hfree
      cases hget : d.get t (.ofKey k) with
      | ok found =>
        rw [hget] at hfree
        cases hfree
      | error fault =>
        have hfound := DirectoryStore.get_of_housed hd.clean (StorePath.isClean_ofKey k)
          (hhoused content hfile) hfile hget
        rw [hget] at hfree
        simp [hfound] at hfree

end Vault
end DumpVault
