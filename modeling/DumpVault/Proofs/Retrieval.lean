import DumpVault.Proofs.Applying
import DumpVault.Proofs.ByteOrder
import DumpVault.Proofs.Catalogue
import DumpVault.Proofs.Untouched

/-!
# What is found in a store

A store that has just been opened holds the blobs of its directory. A listing that succeeds tells the
key of each of them once, in the order of the keys' bytes. A restore that succeeds has put one of
them as a whole into its utility, which came to a good end.
-/
namespace DumpVault
open Prog World

/-- The calls that leave the world as it is, whatever is replied. -/
def Call.isStill : Call → Prop
  | .log _ | .isCancelled | .pause | .stall | .now | .temporaryDir | .password _ | .openFile _
  | .readFile _ | .print _ => True
  | _ => False

section Still

variable {S : Setting} {w w' : World} {steps more : List Step}

theorem World.answers_still {c : Call} {r : Reply c} (hc : c.isStill) (h : w.Answers S c r w') :
    w' = w := by
  cases c with
  | log | isCancelled | pause | stall | now | temporaryDir | password | print => exact h
  | openFile path => exact h.1
  | readFile path =>
    rcases h with ⟨_, rfl⟩ | ⟨_, rfl⟩
    · rfl
    · rfl
  | _ => exact hc.elim

theorem along_still (hsteps : ∀ s ∈ steps, s.call.isStill) (h : Along (Answers S) w steps w') :
    w' = w :=
  h.keeps (R := fun u v => v = u) (fun _ => rfl) (fun huv hvw => hvw.trans huv)
    fun s hs _ _ hr => answers_still (hsteps s hs) hr

theorem along_behind (hsteps : ∀ s ∈ steps, s.call.isStill)
    (h : Along (Answers S) w (steps ++ more) w') : Along (Answers S) w more w' := by
  obtain ⟨u, hfirst, hrest⟩ := along_append.mp h
  obtain rfl := along_still hsteps hfirst
  exact hrest

theorem along_before (hsteps : ∀ s ∈ more, s.call.isStill)
    (h : Along (Answers S) w (steps ++ more) w') : Along (Answers S) w steps w' := by
  obtain ⟨u, hfirst, hrest⟩ := along_append.mp h
  obtain rfl := along_still hsteps hrest
  exact hfirst

end Still

namespace DirectoryStore

variable {d : DirectoryStore} {t : FileTree} {names : Location} {p : StorePath}

theorem pathOf_ok (h : pathOf names = .ok p) :
    p = ⟨names⟩ ∧ ∀ s ∈ names, s.toList.any isControl = false := by
  rw [pathOf] at h
  split at h
  · next hnone =>
    refine ⟨(Except.ok.inj h).symm, fun s hs => ?_⟩
    simpa using List.find?_eq_none.mp hnone s hs
  · cases h

theorem mapM_pathOf_ok {files : List (Location × ByteArray)} {all : List StorePath}
    (h : files.mapM (fun x => pathOf x.1) = .ok all) :
    all = files.map (fun x => ⟨x.1⟩) ∧ ∀ x ∈ files, ∀ s ∈ x.1, s.toList.any isControl = false := by
  induction files generalizing all with
  | nil => exact ⟨(Except.ok.inj h).symm, fun _ hx => absurd hx List.not_mem_nil⟩
  | cons x files ih =>
    rw [List.mapM_cons] at h
    cases hpath : pathOf x.1 with
    | error fault =>
      rw [hpath] at h
      cases h
    | ok p =>
      cases hrest : files.mapM (fun x => pathOf x.1) with
      | error fault =>
        rw [hpath, hrest] at h
        cases h
      | ok rest =>
        rw [hpath, hrest] at h
        obtain ⟨rfl, hprintable⟩ := pathOf_ok hpath
        obtain ⟨rfl, hall⟩ := ih hrest
        exact ⟨(Except.ok.inj h).symm, List.forall_mem_cons.mpr ⟨hprintable, hall⟩⟩

/-- A listing that succeeds goes through the files below the directory that are not staged files,
each once. All of their names can be told. -/
theorem paths_ok {paths : List StorePath} (ht : t.IsSound) (h : d.paths t = .ok paths) :
    paths.Nodup ∧ (∀ p ∈ paths, p.IsLegal) ∧ ∀ p, p ∈ paths ↔ p.segments ≠ [] ∧
      Location.IsBlobPlace p.segments ∧ ∃ content, t.content? (d.base ++ p.segments) = some content := by
  rw [DirectoryStore.paths] at h
  cases hall : (t.filesBelow d.base).mapM (fun x => pathOf x.1) with
  | error fault =>
    rw [hall] at h
    cases h
  | ok all =>
    rw [hall] at h
    obtain rfl := Except.ok.inj h
    obtain ⟨rfl, hprintable⟩ := mapM_pathOf_ok hall
    have hmem : ∀ p : StorePath, p ∈ (t.filesBelow d.base).map (fun x => StorePath.mk x.1) ↔
        p.segments ≠ [] ∧ ∃ content, t.content? (d.base ++ p.segments) = some content := by
      intro p
      simp only [List.mem_map, Prod.exists, FileTree.mem_filesBelow ht.single,
        FileTree.content?_eq_some_iff]
      constructor
      · rintro ⟨names, content, ⟨hne, hfile⟩, rfl⟩
        exact ⟨hne, content, hfile⟩
      · rintro ⟨hne, content, hfile⟩
        exact ⟨p.segments, content, ⟨hne, hfile⟩, rfl⟩
    refine ⟨?_, fun p hp => ?_, fun p => ?_⟩
    · exact (ht.single.nodup_pathsBelow d.base).filter _
    · have hp := (List.mem_filter.mp hp).1
      obtain ⟨hne, content, hfile⟩ := (hmem p).mp hp
      obtain ⟨x, hx, rfl⟩ := List.mem_map.mp hp
      exact ⟨fun s hs => ht.clean _ _ hfile s (List.mem_append_right _ hs), hprintable x hx⟩
    · rw [List.mem_filter, hmem, Bool.not_eq_true', and_assoc]
      exact and_congr_right fun _ => and_comm

end DirectoryStore

/-- Keys in the order of their bytes, each of which takes one line. They are those of all blobs in
the store's directory, if it has one. -/
structure Lists (home : Location → Prop) (t : FileTree) (keys : List Key) : Prop where
  ordered : keys.Pairwise (·.bytes < ·.bytes)
  lines : ∀ k ∈ keys, '\n' ∉ k.text.toList
  all : ∀ base, home base → ∀ k : Key, k ∈ keys ↔ ∃ names content, names ≠ [] ∧
    Location.IsBlobPlace names ∧ t.content? (base ++ names) = some content ∧
    k.text = StorePath.text ⟨names⟩

namespace Vault

variable {v : Vault} {t : FileTree} {keys : List Key}

theorem noNewline_of_legal {p : StorePath} (hp : p.IsLegal) : '\n' ∉ p.text.toList := by
  intro hmem
  rcases StorePath.mem_of_mem_text hmem with hslash | ⟨s, hs, hin⟩
  · exact absurd hslash (by decide)
  · have hnone := List.any_eq_false.mp (hp.printable s hs) '\n' hin
    exact hnone (by decide)

/-- Keys that are listed stand in the order of their bytes, and each takes one line. -/
theorem keysOfPaths_ordered {paths : List StorePath} (hnodup : paths.Nodup)
    (hlegal : ∀ p ∈ paths, p.IsLegal) : (keysOfPaths paths).Pairwise (·.bytes < ·.bytes) ∧
      ∀ k ∈ keysOfPaths paths, '\n' ∉ k.text.toList := by
  constructor
  · have hkeys : (paths.filterMap fun p => Key.ofText? p.text).Nodup :=
      (Key.sorted_perm _).nodup_iff.mp (nodup_keysOfPaths hnodup hlegal)
    exact (Key.lt_of_nodup hkeys).imp fun h => Key.bytes_lt_iff.mpr h
  · intro k hk
    obtain ⟨p, hp, htext⟩ := mem_keysOfPaths.mp hk
    exact htext ▸ noNewline_of_legal (hlegal p hp)

theorem IsFresh.lists (h : v.IsFresh) (ht : t.IsSound) (hlist : (v.list t).1 = .ok keys) :
    Lists (v.base? = some ·) t keys := by
  obtain ⟨bucket, storage⟩ := v
  cases storage with
  | memory m =>
    obtain rfl : m = {} := h
    obtain rfl : keysOfPaths [] = keys := Except.ok.inj hlist
    obtain ⟨hordered, hlines⟩ := keysOfPaths_ordered List.nodup_nil (by simp)
    exact ⟨hordered, hlines, fun _ hbase => by cases hbase⟩
  | cloud => cases hlist
  | scripted s => exact h.elim
  | directory d =>
    simp only [Vault.list] at hlist
    cases hpaths : d.paths t with
    | error fault =>
      rw [hpaths] at hlist
      cases hlist
    | ok paths =>
      rw [hpaths] at hlist
      obtain rfl := Except.ok.inj hlist
      obtain ⟨hnodup, hlegal, hmem⟩ := DirectoryStore.paths_ok ht hpaths
      obtain ⟨hordered, hlines⟩ := keysOfPaths_ordered hnodup hlegal
      refine ⟨hordered, hlines, fun base hbase k => mem_keysOfPaths.trans ?_⟩
      obtain rfl : d.base = base := Option.some.inj hbase
      constructor
      · rintro ⟨p, hp, htext⟩
        obtain ⟨hne, hplace, content, hfile⟩ := (hmem p).mp hp
        exact ⟨p.segments, content, hne, hplace, hfile, htext⟩
      · rintro ⟨names, content, hne, hplace, hfile, htext⟩
        exact ⟨⟨names⟩, (hmem _).mpr ⟨hne, hplace, content, hfile⟩, htext⟩

/-- A store in a directory keeps its blobs in the files there. -/
theorem content?_of_stores {p : StorePath} {content : ByteArray} {base : Location}
    (hbase : v.base? = some base) (hclean : base.IsClean) (hp : Location.IsClean p.segments)
    (h : v.Stores t p content) : t.content? (base ++ p.segments) = some content := by
  obtain ⟨bucket, storage⟩ := v
  cases storage with
  | memory | cloud | scripted => cases hbase
  | directory d =>
    obtain rfl : d.base = base := Option.some.inj hbase
    obtain ⟨l, hloc, _, hfile⟩ := (DirectoryStore.get_ok_iff hclean hp).mp h
    rw [← (DirectoryStore.locate_ok_iff.mp hloc).2]
    exact FileTree.content?_eq_some_iff.mpr hfile

theorem IsFresh.isLocal {base : Location} (h : v.IsFresh) (hbase : v.base? = some base) :
    v.IsLocal ∧ base.IsClean := by
  obtain ⟨bucket, storage⟩ := v
  cases storage with
  | memory | cloud => cases hbase
  | scripted s => exact h.elim
  | directory d =>
    obtain rfl : d.base = base := Option.some.inj hbase
    exact ⟨h.1, h.1⟩

/-- What a reader finds in a store that has just been opened is the blob of its key. -/
theorem IsFresh.openReader {k : Key} {found : Source} {base : Location} (h : v.IsFresh)
    (hbase : v.base? = some base) (hfound : (v.openReader t k).1 = .ok found) :
    t.content? (base ++ (StorePath.ofKey k).segments) = some found.bytes := by
  obtain ⟨hlocal, hclean⟩ := h.isLocal hbase
  obtain ⟨content, rfl, hstored⟩ := ((openReader_ok hlocal t k).2 found).mp hfound
  rw [Source.bytes_ofBytes]
  exact content?_of_stores hbase hclean (StorePath.isClean_ofKey k) hstored

end Vault

theorem Succeeded.within {steps more : List Step} (h : Succeeded steps) (hsteps : steps ⊆ more) :
    Succeeded more := by
  obtain ⟨status, hmem, hstatus⟩ := h
  exact ⟨status, hsteps hmem, hstatus⟩

namespace Restore

variable {u : Utility} {archive : Source} {steps : List Step} {r : Except Fault Unit}

/-- A restore in which nothing has failed is one whose utility came to a good end. -/
theorem Feeding.succeeded (h : Feeding u archive steps r) (hr : r = .ok ()) : Succeeded steps := by
  cases h with
  | cutInFeed | cutInWait => cases hr
  | @settled feeding fed closed waited _ ended gone =>
    have hnone : ((fed.closed closed).faults u (waitedFault? u waited)).head? = none := by
      cases hhead : ((fed.closed closed).faults u (waitedFault? u waited)).head? with
      | none => rfl
      | some fault =>
        rw [hhead] at hr
        cases hr
    have hfaults := List.head?_eq_none_iff.mp hnone
    have hwaited : waitedFault? u waited = none := by
      have hended := FeedEnd.closed_ne_interrupted ended closed
      cases hclosed : fed.closed closed with
      | fed n =>
        rw [hclosed] at hfaults
        exact Option.toList_eq_nil_iff.mp hfaults
      | readFailed fault =>
        rw [hclosed] at hfaults
        cases hfaults
      | writeFailed fault =>
        rw [hclosed, FeedEnd.faults] at hfaults
        split at hfaults
        · exact absurd hfaults (by simp)
        · cases hfaults
      | interrupted => exact absurd hclosed hended
    cases waited with
    | interrupted => exact absurd rfl gone
    | failed fault => cases hwaited
    | exited status =>
      refine ⟨status, by simp, ?_⟩
      by_contra hfailure
      simp [waitedFault?, hfailure] at hwaited

theorem Course.succeeded (h : Course u archive steps r) (hr : r = .ok ()) : Succeeded steps := by
  cases h with
  | refused | unstarted | uncaptured => cases hr
  | fed password feed =>
    exact (feed.succeeded hr).within fun s hs =>
      List.mem_append_right _ (List.mem_cons_of_mem _ hs)

end Restore

/-- What a restore that succeeds has done: it has opened the blob of its key, put all of it into the
utility and then the end of the input, and the utility came to a good end. If the store has a
directory, the blob is a file there. -/
structure Replayed (key : Key) (home : Location → Prop) (w : World) (steps : List Step)
    (w' : World) : Prop where
  succeeded : Succeeded steps
  fed : ∃ archive : Source, ⟨.openReader key, .ok archive⟩ ∈ steps ∧ archive.ending = .complete ∧
    w'.pipes.input = archive.bytes ∧ w'.pipes.inputEnded = true ∧ ∀ base, home base →
      w.host.files.content? (base ++ (StorePath.ofKey key).segments) = some archive.bytes

theorem restore_replays {S : Setting} {w w' : World} {steps : List Step} {r : Restorer} {key : Key}
    {result : Except Fault Unit} (hv : w.host.vault.IsFresh) (h : Yields (r.run key) steps result)
    (hsteps : Along (Answers S) w steps w') (hresult : result = .ok ()) :
    Replayed key (w.host.vault.base? = some ·) w steps w' := by
  cases Restorer.course_of_yields h with
  | cutBeforeFetch | cutInFetch | unfetched | cutBeforeRestore => cases hresult
  | @applied archive applying applied yields =>
    obtain rfl : applied = .ok () := by
      cases applied with
      | error fault => cases hresult
      | ok => rfl
    have hopening := along_behind (by simp [Restorer.toFetch, Step.line, Call.isStill]) hsteps
    obtain ⟨w₁, hpause, hreader⟩ := along_cons.mp hopening
    obtain rfl : w₁ = w := hpause
    obtain ⟨w₂, hopened, hrest⟩ := along_cons.mp hreader
    rcases hopened with ⟨rfl, s, found, hs, hreply, hbytes⟩ | ⟨⟨_, hfault⟩, _⟩
    · obtain rfl := Except.ok.inj hs
      rw [after_lookup hv (.inr ⟨key, .inr rfl⟩)] at hrest
      have hfeeding := along_behind (by simp [Restorer.toRestore, Step.line, Call.isStill]) hrest
      have hlast := along_before (by simp [Step.line, Call.isStill]) hfeeding
      obtain ⟨hcomplete, hinput, hended⟩ := Restore.apply_ok (runs_of_along yields hlast)
      have hsucceeded := (Restore.course_of_yields yields).succeeded rfl
      refine ⟨hsucceeded.within fun s hs => by simp [hs], archive, by simp, hcomplete, hinput,
        hended, fun base hbase => ?_⟩
      rw [hbytes hcomplete]
      exact hv.openReader hbase hreply
    · cases hfault

end DumpVault
