import Mathlib.Data.List.Flatten
import Mathlib.Data.List.Nodup
import DumpVault.Proofs.Chronology
import DumpVault.Proofs.Durability
import DumpVault.Proofs.Listing
import DumpVault.Proofs.Serving

/-!
# Archives in the order of time

Archive runs follow one another on a store that was empty. Each adds the blob of the key that it
returns, where none was, so no key is minted twice; minted keys are listed under their own text, and
texts stand in the order of time.
-/
namespace DumpVault
open Prog World Calendar

namespace Key

variable {keys keys' : List Key}

theorem le_iff {a b : Key} : a.le b = true ↔ a.text ≤ b.text := decide_eq_true_iff

theorem le_trans (a b c : Key) (hab : a.le b = true) (hbc : b.le c = true) : a.le c = true :=
  le_iff.mpr (String.le_trans (le_iff.mp hab) (le_iff.mp hbc))

theorem le_total (a b : Key) : (a.le b || b.le a) = true := by
  simpa only [Bool.or_eq_true, le_iff] using String.le_total a.text b.text

theorem le_antisymm {a b : Key} (hab : a.le b = true) (hba : b.le a = true) : a = b :=
  ext_text (String.le_antisymm (le_iff.mp hab) (le_iff.mp hba))

theorem pairwise_sorted (keys : List Key) : (sorted keys).Pairwise fun a b => a.le b = true :=
  List.pairwise_mergeSort le_trans le_total keys

theorem sorted_perm (keys : List Key) : (sorted keys).Perm keys := List.mergeSort_perm _ _

theorem sorted_congr (h : keys.Perm keys') : sorted keys = sorted keys' :=
  ((sorted_perm keys).trans (h.trans (sorted_perm keys').symm)).eq_of_pairwise
    (fun _ _ _ _ => le_antisymm) (pairwise_sorted _) (pairwise_sorted _)

theorem lt_of_nodup (h : keys.Nodup) : (sorted keys).Pairwise fun a b => a.text < b.text := by
  have hnodup : (sorted keys).Nodup := (sorted_perm keys).nodup_iff.mpr h
  refine ((pairwise_sorted keys).and hnodup).imp fun ⟨hle, hne⟩ => ?_
  refine String.not_le.mp fun hge => hne ?_
  exact le_antisymm hle (le_iff.mpr hge)

end Key

theorem FileTree.IsSingle.nodup_filesBelow {t : FileTree} (h : t.IsSingle) (base : Location) :
    ((t.filesBelow base).map (·.1)).Nodup := by
  have hentries : t.entries.Pairwise fun e e' => e.1 ≠ e'.1 := List.pairwise_map.mp h
  refine List.pairwise_map.mpr (List.pairwise_filterMap.mpr (hentries.imp ?_))
  rintro ⟨l, e⟩ ⟨l', e'⟩ hne ⟨names, content⟩ hfound ⟨names', content'⟩ hfound' heq
  -- two files below the base whose names are the same lie at the same place
  cases e with
  | directory => cases hfound
  | file old =>
    cases e' with
    | directory => cases hfound'
    | file old' =>
      simp only [Option.ite_none_right_eq_some, Bool.and_eq_true, beq_iff_eq, Option.some.injEq,
        Prod.mk.injEq] at hfound hfound'
      obtain ⟨⟨_, hbase⟩, hnames, _⟩ := hfound
      obtain ⟨⟨_, hbase'⟩, hnames', _⟩ := hfound'
      change names = names' at heq
      refine hne (show l = l' from ?_)
      rw [← List.take_append_drop base.length l, ← List.take_append_drop base.length l', hbase,
        hbase', hnames, hnames', heq]

theorem FileTree.IsSingle.nodup_pathsBelow {t : FileTree} (h : t.IsSingle) (base : Location) :
    ((t.filesBelow base).map fun x => StorePath.mk x.1).Nodup :=
  List.pairwise_map.mpr ((List.pairwise_map.mp (h.nodup_filesBelow base)).imp fun hne heq =>
    hne (congrArg StorePath.segments heq))

theorem DirectoryStore.Orderly.nodup_paths {d : DirectoryStore} {t : FileTree}
    {paths : List StorePath} (h : d.Orderly t) (hpaths : d.paths t = .ok paths) :
    paths.Nodup := by
  obtain rfl := Except.ok.inj (h.paths_eq.symm.trans hpaths)
  exact (h.tidy.single.nodup_pathsBelow d.base).filter _

theorem StorePath.text_injective {p q : StorePath} (hp : Location.IsClean p.segments)
    (hpne : p.segments ≠ []) (hq : Location.IsClean q.segments) (hqne : q.segments ≠ [])
    (h : p.text = q.text) : p = q := by
  rw [← ofText_text hp hpne, ← ofText_text hq hqne, h]

namespace Vault

variable {v : Vault} {t : FileTree}

theorem nodup_keysOfPaths {paths : List StorePath} (hnodup : paths.Nodup)
    (hlegal : ∀ p ∈ paths, p.IsLegal) : (keysOfPaths paths).Nodup := by
  refine (Key.sorted_perm _).nodup_iff.mpr (List.pairwise_filterMap.mpr ?_)
  refine hnodup.imp_of_mem fun {p q} hp hq hne k hk k' hk' heq => hne ?_
  have hkp := Key.ofText?_eq_some_iff.mp hk
  have hkq := Key.ofText?_eq_some_iff.mp hk'
  exact StorePath.text_injective (hlegal p hp).clean (text_ne_nil hkp) (hlegal q hq).clean
    (text_ne_nil hkq) (by rw [← hkp, ← hkq, heq])

theorem Tended.paths (h : v.Tended t) : ∃ paths : List StorePath,
    (v.list t).1 = .ok (keysOfPaths paths) ∧ paths.Nodup ∧ ∀ p ∈ paths, p.IsLegal := by
  obtain ⟨bucket, storage⟩ := v
  cases storage with
  | memory m =>
    refine ⟨m.paths, rfl, h.2, fun p hp => ?_⟩
    obtain ⟨e, he, rfl⟩ := List.mem_map.mp hp
    exact MemoryStore.Orderly.blobs h.1 e he
  | directory d =>
    obtain ⟨paths, hpaths, hmem⟩ := DirectoryStore.Orderly.paths h.1
    exact ⟨paths, by simp only [Vault.list, hpaths], h.1.nodup_paths hpaths,
      fun p hp => ((hmem p).mp hp).1⟩
  | cloud => exact h.elim
  | scripted s => exact h.elim

/-- A tended store lists its blobs in order, each once. -/
theorem Tended.list (h : v.Tended t) : ∃ keys, (v.list t).1 = .ok keys ∧ Key.sorted keys = keys ∧
    keys.Nodup ∧ ∀ k, k ∈ keys ↔
      ∃ p : StorePath, p.IsLegal ∧ ((v.stock t).blobs p).isSome ∧ k.text = p.text := by
  obtain ⟨paths, hlist, hnodup, hlegal⟩ := h.paths
  obtain ⟨keys, hkeys, hmem⟩ := h.orderly.list
  obtain rfl : keysOfPaths paths = keys := Except.ok.inj (hlist.symm.trans hkeys)
  refine ⟨_, hlist, Key.sorted_congr (Key.sorted_perm _), nodup_keysOfPaths hnodup hlegal,
    fun k => (hmem k).trans (exists_congr fun p => ?_)⟩
  rw [exists_and_left]
  refine and_congr_right fun hp => ?_
  simp only [h.orderly.stores_iff hp, exists_and_right, Option.isSome_iff_exists]

/-- If all blobs lie under minted keys, these keys are what is listed. -/
theorem Tended.list_minted (h : v.Tended t) {ts : List Instant} (hnodup : (ts.map Key.mint).Nodup)
    (hstored : ∀ p, ((v.stock t).blobs p).isSome ↔ p ∈ (ts.map Key.mint).map StorePath.ofKey) :
    (v.list t).1 = .ok (Key.sorted (ts.map Key.mint)) := by
  obtain ⟨keys, hlist, hsorted, honce, hmem⟩ := h.list
  have hsame : keys.Perm (ts.map Key.mint) := by
    refine (List.perm_ext_iff_of_nodup honce hnodup).mpr fun k => (hmem k).trans ?_
    simp only [hstored]
    constructor
    · rintro ⟨p, _, hp, htext⟩
      obtain ⟨_, hkey, rfl⟩ := List.mem_map.mp hp
      obtain ⟨s, hs, rfl⟩ := List.mem_map.mp hkey
      rw [StorePath.text_ofKey_mint] at htext
      exact List.mem_map.mpr ⟨s, hs, Key.ext_text htext.symm⟩
    · intro hk
      refine ⟨.ofKey k, StorePath.isLegal_ofKey k, List.mem_map_of_mem hk, ?_⟩
      obtain ⟨s, _, rfl⟩ := List.mem_map.mp hk
      exact (StorePath.text_ofKey_mint s).symm
  rw [hlist, ← hsorted, Key.sorted_congr hsame]

end Vault

/-- Blobs have been added at these paths, one at each, where none were. -/
structure Adds (blobs blobs' : StorePath → Option ByteArray) (paths : List StorePath) : Prop where
  vacant : ∀ p ∈ paths, blobs p = none
  nodup : paths.Nodup
  stored : ∀ p, (blobs' p).isSome ↔ (blobs p).isSome ∨ p ∈ paths

namespace Adds

variable {blobs blobs' : StorePath → Option ByteArray} {paths : List StorePath}

theorem refl (blobs : StorePath → Option ByteArray) : Adds blobs blobs [] :=
  ⟨fun _ hp => absurd hp List.not_mem_nil, .nil, fun p => by simp⟩

theorem cons {p : StorePath} {content : ByteArray} (hvacant : blobs p = none)
    (h : Adds (Function.update blobs p (some content)) blobs' paths) :
    Adds blobs blobs' (p :: paths) := by
  have hfresh : ∀ q ∈ paths, q ≠ p := by
    rintro q hq rfl
    simpa using h.vacant q hq
  refine ⟨?_, List.nodup_cons.mpr ⟨fun hp => hfresh p hp rfl, h.nodup⟩, fun q => ?_⟩
  · intro q hq
    rcases List.mem_cons.mp hq with rfl | hq
    · exact hvacant
    · rw [← h.vacant q hq, Function.update_of_ne (hfresh q hq)]
  · rw [h.stored q]
    by_cases hq : q = p
    · simp [hq]
    · simp [hq]

end Adds

/-- One archive run, with what it has asked and been told. -/
structure ArchiveRun where
  archiver : Archiver
  steps : List Step
  result : Except Fault Key

/-- What a run that has succeeded has read off the clock. -/
def ArchiveRun.times (run : ArchiveRun) : List Instant :=
  match run.result with
  | .ok _ => readings run.steps
  | .error _ => []

/-- The keys that runs have returned. -/
def returned (runs : List ArchiveRun) : List Key := runs.filterMap fun run => run.result.toOption

/-- Archive runs follow one another. -/
inductive ArchiveRuns (S : Setting) : World → List ArchiveRun → World → Prop
  | nil (w : World) : ArchiveRuns S w [] w
  | cons {w w₁ w' : World} {run : ArchiveRun} {runs : List ArchiveRun} :
    Yields run.archiver.run run.steps run.result → Along (Replies S) w run.steps w₁ →
    ArchiveRuns S w₁ runs w' → ArchiveRuns S w (run :: runs) w'

variable {S : Setting} {cwd : Location} {w w' : World} {runs : List ArchiveRun}

theorem times_sublist (runs : List ArchiveRun) :
    (runs.flatMap ArchiveRun.times).Sublist (runs.flatMap fun run => readings run.steps) := by
  refine List.Sublist.flatMap_right runs fun run _ => ?_
  rw [ArchiveRun.times]
  split
  · exact List.Sublist.refl _
  · exact List.nil_sublist _

/-- The runs that succeed add one blob each, under the keys that they mint and return. -/
theorem ArchiveRuns.adds (h : ArchiveRuns S w runs w') (hready : Ready S cwd w)
    (hsafe : ∀ run ∈ runs, ∀ fault, run.result = .error fault → fault.breaksUpload = false) :
    Ready S cwd w' ∧ returned runs = (runs.flatMap ArchiveRun.times).map Key.mint ∧
      Adds w.stock.blobs w'.stock.blobs ((returned runs).map StorePath.ofKey) := by
  induction h with
  | nil w => exact ⟨hready, rfl, .refl _⟩
  | @cons w w₁ w' run runs hrun hsteps _ ih =>
    obtain ⟨hready₁, hserved⟩ :=
      archive_serves hready hrun hsteps (hsafe run List.mem_cons_self)
    obtain ⟨hready', hkeys, hadds⟩ := ih hready₁ fun run hmem =>
      hsafe run (List.mem_cons_of_mem _ hmem)
    refine ⟨hready', ?_⟩
    obtain ⟨archiver, steps, result⟩ := run
    rcases hserved with ⟨fault, hfault, hblobs⟩ | ⟨t, content, hok, hread, hvacant, hblobs⟩
    · obtain rfl : result = .error fault := hfault
      exact ⟨hkeys, hblobs ▸ hadds⟩
    · obtain rfl : result = .ok (.mint t) := hok
      have hread : readings steps = [t] := hread
      refine ⟨?_, .cons hvacant (hblobs ▸ hadds)⟩
      rw [List.flatMap_cons, List.map_append, ← hkeys]
      simp [returned, ArchiveRun.times, hread, Except.toOption]

/-- A store just opened on an empty bucket holds nothing. -/
theorem tended_connect {h₀ h : Host} {store : StoreConfig} (hcwd : h₀.cwd.IsClean)
    (hsingle : h₀.files.IsSingle) (hbackend : store.backend ≠ .gcs)
    (hopen : h₀.connect store = (.ok (), h))
    (hempty : ∀ base, h.vault.base? = some base → h.files.filesBelow base = []) :
    h.vault.Tended h.files ∧ ∀ p, (h.vault.stock h.files).blobs p = none := by
  cases hb : store.backend with
  | gcs => exact absurd hb hbackend
  | memory =>
    rw [Host.connect, hb] at hopen
    obtain ⟨_, rfl⟩ := Prod.mk.inj hopen
    exact ⟨⟨(Vault.Filled.memory store.bucket h₀.files).orderly, .nil⟩, fun _ => rfl⟩
  | directory root =>
    obtain ⟨files, hmake, rfl⟩ := connect_directory hb hopen
    have hfiles : files.IsSingle := hsingle.makeDirectories hmake
    have hnone := hempty _ rfl
    have hclean := Location.isClean_named hcwd (joinPath root store.bucket)
    refine ⟨⟨(Vault.Filled.directory store.bucket hclean hfiles hnone).orderly,
      fun _ he => absurd he List.not_mem_nil⟩, fun p => ?_⟩
    refine Option.eq_none_iff_forall_ne_some.mpr fun content hblob => ?_
    obtain ⟨l, hloc, hcontent⟩ := DirectoryStore.blob?_eq_some_iff.mp hblob
    obtain ⟨_, rfl⟩ := DirectoryStore.locate_ok_iff.mp hloc
    have hmem := (FileTree.mem_filesBelow hfiles).mpr
      ⟨DirectoryStore.segments_ne_nil hloc, FileTree.content?_eq_some_iff.mp hcontent⟩
    rw [hnone] at hmem
    exact List.not_mem_nil hmem

theorem ready_connect {h₀ h : Host} {store : StoreConfig} (pipes : Pipes) (hcwd : h₀.cwd.IsClean)
    (hsingle : h₀.files.IsSingle) (hbackend : store.backend ≠ .gcs)
    (hopen : h₀.connect store = (.ok (), h))
    (hempty : ∀ base, h.vault.base? = some base → h.files.filesBelow base = [])
    (hkept : ∀ l, h.vault.Territory l → S.kept l)
    (hapart : ∀ l, S.staging l → ¬ h.vault.Territory l) :
    Ready S h.cwd ⟨h, pipes⟩ ∧ ∀ p, (World.stock ⟨h, pipes⟩).blobs p = none := by
  obtain ⟨htended, hvacant⟩ := tended_connect hcwd hsingle hbackend hopen hempty
  exact ⟨⟨⟨isLocal_connect hcwd hbackend hopen, hkept, hapart⟩, htended, rfl⟩, hvacant⟩

/-- Readings of the clock whose keys are all that these runs have returned, each once, in strictly
increasing order of the seconds. If the clock has not gone back, this is the order of the runs. -/
structure Catalogued (runs : List ArchiveRun) (ts : List Instant) : Prop where
  once : (ts.map Key.mint).Nodup
  returned : (ts.map Key.mint).Perm (returned runs)
  read : ts.Perm (runs.flatMap ArchiveRun.times)
  increasing : ts.Pairwise fun s t => s.truncated.Before t.truncated
  inOrder : ((runs.flatMap fun run => readings run.steps).Pairwise fun s t => ¬ t.Before s) →
    ts.map Key.mint = DumpVault.returned runs

/-- Sorting the keys sorts the readings that they were minted from. -/
theorem catalogued_of_minted (hyears : ∀ run ∈ runs, ∀ t ∈ readings run.steps, t.HasPlainYear)
    (hminted : returned runs = (runs.flatMap ArchiveRun.times).map Key.mint)
    (hnodup : (returned runs).Nodup) :
    ∃ ts, Key.sorted (returned runs) = ts.map Key.mint ∧ Catalogued runs ts := by
  have hplain : ∀ t ∈ runs.flatMap ArchiveRun.times, t.HasPlainYear := by
    intro t ht
    obtain ⟨run, hrun, ht⟩ := List.mem_flatMap.mp ((times_sublist runs).subset ht)
    exact hyears run hrun t ht
  have hkeys : ((runs.flatMap ArchiveRun.times).mergeSort fun s t =>
      (Key.mint s).le (.mint t)).map Key.mint = Key.sorted (returned runs) := by
    rw [hminted]
    exact List.map_mergeSort fun _ _ _ _ => rfl
  have hread := List.mergeSort_perm (runs.flatMap ArchiveRun.times) fun s t =>
    (Key.mint s).le (.mint t)
  generalize (runs.flatMap ArchiveRun.times).mergeSort _ = ts at hkeys hread
  refine ⟨ts, hkeys.symm, ?_, ?_, hread, ?_, fun hsteady => ?_⟩
  · rw [hkeys]
    exact (Key.sorted_perm _).nodup_iff.mpr hnodup
  · rw [hkeys]
    exact Key.sorted_perm _
  · have hlt := Key.lt_of_nodup hnodup
    rw [← hkeys, List.pairwise_map] at hlt
    exact hlt.imp_of_mem fun hs ht => (Instant.stamp_lt_iff (hplain _ (hread.subset hs))
      (hplain _ (hread.subset ht))).mp
  · have hrow : (returned runs).Pairwise fun a b => a.le b = true := by
      rw [hminted, List.pairwise_map]
      refine (hsteady.sublist (times_sublist runs)).imp_of_mem fun hs ht hle => ?_
      refine Key.le_iff.mpr (String.not_lt.mp fun hlt => hle ?_)
      exact Instant.before_of_truncated ((Instant.stamp_lt_iff (hplain _ ht) (hplain _ hs)).mp hlt)
    rw [hkeys]
    exact List.mergeSort_of_pairwise hrow

/-- After any archive runs on a store that was empty, none of which failed while copying or
finalizing, the listing consists of the keys that the runs have returned, in the order of time. -/
theorem archives_listed_in_order {h₀ h : Host} {store : StoreConfig} {pipes : Pipes}
    (hcwd : h₀.cwd.IsClean) (hsingle : h₀.files.IsSingle) (hbackend : store.backend ≠ .gcs)
    (hopen : h₀.connect store = (.ok (), h))
    (hempty : ∀ base, h.vault.base? = some base → h.files.filesBelow base = [])
    (hkept : ∀ l, h.vault.Territory l → S.kept l)
    (hapart : ∀ l, S.staging l → ¬ h.vault.Territory l)
    (hruns : ArchiveRuns S ⟨h, pipes⟩ runs w)
    (hyears : ∀ run ∈ runs, ∀ t ∈ readings run.steps, t.HasPlainYear)
    (hsafe : ∀ run ∈ runs, ∀ fault, run.result = .error fault → fault.breaksUpload = false) :
    ∃ ts, (w.host.vault.list w.host.files).1 = .ok (ts.map Key.mint) ∧ Catalogued runs ts := by
  obtain ⟨hready, hvacant⟩ :=
    ready_connect pipes hcwd hsingle hbackend hopen hempty hkept hapart
  obtain ⟨hready', hminted, hadds⟩ := hruns.adds hready hsafe
  have hnodup : (returned runs).Nodup := hadds.nodup.of_map _
  have hstored : ∀ p, ((w.host.vault.stock w.host.files).blobs p).isSome ↔
      p ∈ (returned runs).map StorePath.ofKey :=
    fun p => (hadds.stored p).trans (by simp [hvacant p])
  obtain ⟨ts, hsorted, hcatalogued⟩ := catalogued_of_minted hyears hminted hnodup
  refine ⟨ts, ?_, hcatalogued⟩
  rw [← hsorted, hminted]
  rw [hminted] at hnodup hstored
  exact hready'.tended.list_minted hnodup hstored

/-- Answers like a rehearsal at the time `t`; only the staging file is removed, and the store stays
open. -/
def timed (t : Instant) (dump : ByteArray) : Handler World := fun c w =>
  match c with
  | .now => (t, w)
  | .connect _ => (.error .notImplemented, w)
  | .removeFile path =>
    if path = "/staged" then rehearse dump (.removeFile path) w else (.error (.bare .notFound), w)
  | .write wr chunk =>
    match w.reply (.write wr chunk) with
    | .accepted => (.accepted, w.after (.write wr chunk))
    | _ => (.interrupted, w)
  | c => rehearse dump c w

variable (t : Instant) (dump : ByteArray)

theorem timed_answers (c : Call) (w : World) :
    w.Answers aside c (timed t dump c w).1 (timed t dump c w).2 := by
  have hrehearsed := rehearse_answers dump c w
  cases c with
  | now => rfl
  | connect => exact .inr ⟨⟨_, rfl⟩, rfl⟩
  | removeFile path =>
    simp only [timed]
    split
    · exact hrehearsed
    · exact .inr ⟨⟨_, rfl⟩, rfl⟩
  | write wr chunk =>
    simp only [timed]
    split
    · next haccepted => exact ⟨haccepted.symm, rfl⟩
    · exact .inl rfl
  | _ => exact hrehearsed

theorem timed_single (h : Ready aside cwd w) (hsingle : w.host.files.IsSingle) (c : Call) :
    (timed t dump c w).2.host.files.IsSingle := by
  have hobserve : ∀ u : World, u.host.files.IsSingle → u.observe.host.files.IsSingle := by
    intro u hu
    rw [World.observe]
    split <;> exact hu
  have hsame : ∀ u : World, u = w → u.host.files.IsSingle := by
    rintro u rfl
    exact hsingle
  have hlocal := h.guarded.isLocal
  cases c with
  | createStaging dir =>
    simp only [timed, rehearse]
    split
    · exact hsingle.put _ _
    · exact hsingle
  | removeFile path =>
    simp only [timed]
    split
    · change (w.host.removeFile path).2.files.IsSingle
      rw [Host.removeFile]
      split
      · next hremove => exact hsingle.removeFile hremove
      · exact hsingle
    · exact hsingle
  | spawn | offer | closeInput | kill | reap => exact hobserve _ hsingle
  | wait => exact hobserve _ (hsingle.put _ _)
  | «exists» k => exact hsame _ (after_exists hlocal k)
  | list => exact hsame _ (after_list hlocal)
  | openReader k =>
    simp only [timed, rehearse]
    split
    · exact hsame _ (after_openReader hlocal k)
    · exact hsingle
  | openWriter k =>
    change (w.host.vault.openWriter w.host.files k).2.files.IsSingle
    cases hopen : (w.host.vault.openWriter w.host.files k).1 with
    | ok wr => exact (h.tended.openWriter (Prod.ext hopen rfl)).1.single hsingle
    | error fault => exact Vault.openWriter_error hlocal hopen ▸ hsingle
  | write wr chunk =>
    simp only [timed]
    split
    · exact (h.tended.write wr chunk).1.single hsingle
    · exact hsingle
  | finalize wr => exact (h.tended.finalize w.host.staging wr).1.single hsingle
  | abort wr => exact (h.tended.abort wr).1.single hsingle
  | _ => exact hsingle

theorem timed_ready (h : Ready aside cwd w) (hsingle : w.host.files.IsSingle) (c : Call) :
    Replies aside w c (timed t dump c w).1 (timed t dump c w).2 ∧
      Ready aside cwd (timed t dump c w).2 ∧ (timed t dump c w).2.host.files.IsSingle := by
  have hstill := timed_single t dump h hsingle c
  have hreplies : Replies aside w c (timed t dump c w).1 (timed t dump c w).2 :=
    ⟨timed_answers t dump c w, hstill⟩
  refine ⟨hreplies, ?_, hstill⟩
  by_cases hsure : Sure aside cwd c (timed t dump c w).1
  · exact (h.serves hsure hreplies).2
  -- what is not sure is refused
  cases c with
  | connect => exact h
  | removeFile path =>
    simp only [timed] at hsure ⊢
    split at hsure
    · next hpath => exact absurd (hpath ▸ named_aside cwd) hsure
    · next hpath => rw [if_neg hpath]; exact h
  | write wr chunk =>
    simp only [timed] at hsure ⊢
    split at hsure
    · exact absurd trivial hsure
    · exact absurd trivial hsure
  | _ => exact absurd trivial hsure

/-- Archive runs at these times, each of which dumps `DUMP`. -/
def archivesAt (w : World) : List Instant → List ArchiveRun × World
  | [] => ([], w)
  | t :: ts =>
    let archiver : Archiver := ⟨⟨.ofConfig {} {} defaultDumpProgram, "/tmp"⟩, "archives", false⟩
    let ended := archiver.run.run (timed t ⟨#[68, 85, 77, 80]⟩) w
    let (runs, w') := archivesAt ended.2 ts
    (⟨archiver, archiver.run.course (timed t ⟨#[68, 85, 77, 80]⟩) w, ended.1⟩ :: runs, w')

theorem archiveRuns_archivesAt (h : Ready aside cwd w) (hsingle : w.host.files.IsSingle)
    (ts : List Instant) : ArchiveRuns aside w (archivesAt w ts).1 (archivesAt w ts).2 := by
  induction ts generalizing w with
  | nil => exact .nil w
  | cons t ts ih =>
    obtain ⟨halong, hready, hstill⟩ :=
      along_course_of (P := fun u => Ready aside cwd u ∧ u.host.files.IsSingle) (timed t _)
        (fun c u hu => timed_ready t _ hu.1 hu.2 c) _ ⟨h, hsingle⟩
    exact .cons (yields_course _ _ w) halong (ih hready hstill)

theorem readings_archivesAt (w : World) (ts : List Instant) :
    ∀ run ∈ (archivesAt w ts).1, ∀ t ∈ readings run.steps, t ∈ ts := by
  induction ts generalizing w with
  | nil => simp [archivesAt]
  | cons t ts ih =>
    intro run hrun s hs
    rcases List.mem_cons.mp hrun with rfl | hrun
    · obtain ⟨⟨c, r⟩, hstep, hread⟩ := List.mem_filterMap.mp hs
      obtain ⟨u, hu⟩ := exists_of_mem_course hstep
      rw [hu] at hread
      cases c with
      | now => exact Option.some.inj hread ▸ List.mem_cons_self
      | _ => cases hread
    · exact List.mem_cons_of_mem _ (ih _ run hrun s hs)

theorem connect_opened : Host.connect { files := .empty, cwd := [], environment := .empty }
    { bucket := "archives", backend := .directory "/store" } = (.ok (), opened) := by rfl

theorem filesBelow_opened :
    ∀ base, opened.vault.base? = some base → opened.files.filesBelow base = [] := by
  rintro base hbase
  obtain rfl := Option.some.inj hbase
  rfl

theorem not_territory_staged : ¬ opened.vault.Territory ["staged"] := by
  rintro ⟨base, hbase, h⟩
  obtain rfl := Option.some.inj hbase
  revert h
  decide

def lastOfYear : Instant := ⟨1483228799, 0, by decide⟩

def leapSecond : Instant := ⟨1483228799, 1500000000, by decide⟩

def firstOfYear : Instant := ⟨1483228800, 7, by decide⟩

/-- Runs in a leap second, in the second before it, in the year that follows, and in the leap second
again, which is refused. -/
theorem archives_listed_in_order_leap :
    let runs := (archivesAt ⟨opened, {}⟩ [leapSecond, lastOfYear, firstOfYear, leapSecond]).1
    let w := (archivesAt ⟨opened, {}⟩ [leapSecond, lastOfYear, firstOfYear, leapSecond]).2
    returned runs = [.mint leapSecond, .mint lastOfYear, .mint firstOfYear] ∧
      ∃ ts, (w.host.vault.list w.host.files).1 = .ok (ts.map Key.mint) ∧ Catalogued runs ts := by
  intro runs w
  have hcwd : Location.IsClean [] := fun _ hs => absurd hs List.not_mem_nil
  have hbare : FileTree.empty.IsSingle := List.Pairwise.nil
  have hsingle : opened.files.IsSingle := by
    unfold FileTree.IsSingle
    decide
  have hkept : ∀ l, opened.vault.Territory l → aside.kept l :=
    fun l hl h => not_territory_staged (h ▸ hl)
  have hapart : ∀ l, aside.staging l → ¬ opened.vault.Territory l :=
    fun l h hl => not_territory_staged (h ▸ hl)
  have hready : Ready aside [] ⟨opened, {}⟩ :=
    (ready_connect {} hcwd hbare (by decide) connect_opened filesBelow_opened hkept hapart).1
  have hruns : ArchiveRuns aside ⟨opened, {}⟩ runs w := archiveRuns_archivesAt hready hsingle _
  have hyears : ∀ run ∈ runs, ∀ t ∈ readings run.steps, t.HasPlainYear := by
    intro run hrun t ht
    have hplain : ∀ t ∈ [leapSecond, lastOfYear, firstOfYear, leapSecond], t.HasPlainYear := by
      decide
    exact hplain t (readings_archivesAt _ _ run hrun t ht)
  have hresults : runs.map (·.result) = [.ok (.mint leapSecond), .ok (.mint lastOfYear),
      .ok (.mint firstOfYear),
      .error ((Fault.objectExists "archives" leapSecond.stamp).inStage .upload)] := by
    decide +kernel
  have hreturned : returned runs = (runs.map (·.result)).filterMap Except.toOption := by
    simp [returned, List.filterMap_map]
  have hsafe : ∀ run ∈ runs, ∀ fault, run.result = .error fault → fault.breaksUpload = false := by
    intro run hrun fault hfault
    have hmem := List.mem_map_of_mem (f := (·.result)) hrun
    rw [hresults, hfault] at hmem
    simp only [List.mem_cons, reduceCtorEq, Except.error.injEq, List.not_mem_nil, false_or,
      or_false] at hmem
    rw [hmem]
    rfl
  rw [hreturned, hresults]
  exact ⟨rfl, archives_listed_in_order hcwd hbare (by decide) connect_opened filesBelow_opened hkept
    hapart hruns hyears hsafe⟩

/-- An archive run on an empty bucket whose staging file is made in the bucket's directory, and kept
there. -/
def stagedInBucket : Except Fault Key × Host :=
  opened.perform ((Operation.archive
    { dump := { program := "true" }
      staging := ⟨some "/store/archives", true⟩ }).program "archives")

/-- The paths that a vault in a directory stores blobs at. -/
def Vault.directoryPaths? (v : Vault) (t : FileTree) : Option (List StorePath) :=
  match v.storage with
  | .directory d => (d.paths t).toOption
  | _ => none

theorem Vault.list_directory {v : Vault} {t : FileTree} {paths : List StorePath}
    (h : v.directoryPaths? t = some paths) : (v.list t).1 = .ok (keysOfPaths paths) := by
  rw [directoryPaths?] at h
  rw [Vault.list]
  cases hstorage : v.storage with
  | directory d =>
    cases hpaths : d.paths t with
    | ok found =>
      simp only [hstorage, hpaths, Except.toOption, Option.some.injEq] at h
      simp [hpaths, h]
    | error fault => simp [hstorage, hpaths, Except.toOption] at h
  | _ => simp [hstorage] at h

/-- The staging file is listed besides the key that the run has returned. -/
theorem staging_in_bucket_listed :
    Host.connect { files := .empty, cwd := [], environment := .empty }
        { bucket := "archives", backend := .directory "/store" } = (.ok (), opened) ∧
      opened.files.filesBelow ["store", "archives"] = [] ∧
      stagedInBucket.1 = .ok (.mint .epoch) ∧
      (stagedInBucket.2.vault.list stagedInBucket.2.files).1 =
        .ok [.mint .epoch, ⟨"archivist-aaaaaa.dump", by decide⟩] := by
  have hlist : (stagedInBucket.2.vault.list stagedInBucket.2.files).1 =
      .ok (keysOfPaths [⟨[Instant.epoch.stamp]⟩, ⟨["archivist-aaaaaa.dump"]⟩]) :=
    Vault.list_directory (by decide +kernel)
  have hsorted : [Key.mint .epoch, ⟨"archivist-aaaaaa.dump", by decide⟩].Pairwise
      fun a b => a.le b = true := by
    decide
  refine ⟨connect_opened, rfl, by decide +kernel, hlist.trans (congrArg _ ?_)⟩
  exact List.mergeSort_of_pairwise hsorted

end DumpVault
