import DumpVault.Proofs.Orderly
import DumpVault.Proofs.Stock

/-!
# Local stores as stocks

What a store in memory or in a directory publishes, and what its open writers hold, is a stock of
blobs and drafts. As long as writers are opened under keys only, each operation does to the stock
what the stock's own rules say.
-/
namespace DumpVault

namespace FileTree

variable {t : FileTree} {l m : Location} {content : ByteArray}

theorem content?_eq_some_iff : t.content? l = some content ↔ t.at? l = some (.file content) := by
  rw [content?]
  cases t.at? l with
  | none => simp
  | some e => cases e <;> simp

theorem content?_put_self (hl : l ≠ []) : (t.put l (.file content)).content? l = some content :=
  content?_eq_some_iff.mpr (at?_put_self t l _ hl)

theorem content?_congr {t' : FileTree} (h : t'.at? l = t.at? l) : t'.content? l = t.content? l := by
  rw [content?, content?, h]

end FileTree

namespace DirectoryStore

variable {d d' : DirectoryStore} {t t' : FileTree} {p q : StorePath} {w : Writer} {b : StagedBlob}
  {target staged l : Location} {content : ByteArray} {k : Key}

/-- The bytes of the blob at a path. -/
def blob? (d : DirectoryStore) (t : FileTree) (p : StorePath) : Option ByteArray :=
  (d.locate p).toOption.bind t.content?

/-- The path and the bytes of the blob that a writer fills. -/
def draft? (d : DirectoryStore) (t : FileTree) (w : Writer) : Option (StorePath × ByteArray) :=
  (d.writers.lookup w.id).bind fun b =>
    (t.content? b.staged).map fun content => (⟨b.target.drop d.base.length⟩, content)

def stock (d : DirectoryStore) (t : FileTree) : Stock StorePath := ⟨d.blob? t, d.draft? t⟩

/-- An open writer fills a staged file of the blob of a key. -/
def Keyed (d : DirectoryStore) (b : StagedBlob) : Prop :=
  ∃ k number, d.locate (.ofKey k) = .ok b.target ∧ b.staged = stagedAt b.target number

theorem isStagedName_append {name : String} (h : '#' ∉ name.toList) (number : Nat) :
    isStagedName (name ++ "#" ++ Text.natText number) = true := by
  have hdigits : (Text.natText number).toList = Nat.toDigits 10 number := String.toList_ofList
  have hchars : (name ++ "#" ++ Text.natText number).toList =
      name.toList ++ '#' :: Nat.toDigits 10 number := by
    rw [String.toList_append, String.toList_append, hdigits]
    simp
  have hall : (Nat.toDigits 10 number).all Text.isDigit = true := by
    refine List.all_eq_true.mpr fun c hc => ?_
    exact Nat.isDigit_of_mem_toDigits (by decide) (by decide) hc
  have hbefore : ∀ c ∈ name.toList, (c != '#') = true := by
    intro c hc
    simpa using fun heq : c = '#' => h (heq ▸ hc)
  rw [isStagedName, suffix?, hchars, List.dropWhile_append_of_pos hbefore]
  simp [hall, Nat.toDigits_ne_nil]

theorem Keyed.locate_ne (hb : d.Keyed b) (h : d.locate q = .ok l) : l ≠ b.staged := by
  obtain ⟨k, number, hloc, hstaged⟩ := hb
  obtain ⟨⟨name, hlast, hname⟩, rfl⟩ := locate_ok_iff.mp h
  have hne := segments_ne_nil hloc
  obtain ⟨_, htarget⟩ := locate_ok_iff.mp hloc
  obtain ⟨dir, last, hsegments⟩ := exists_concat hne
  rw [hstaged, htarget, hsegments, ← List.append_assoc, stagedAt_concat]
  intro heq
  have hsegment : last ∈ (StorePath.ofKey k).segments := by simp [hsegments]
  have hhash := (StorePath.isSafe_ofKey k).noHash last hsegment
  obtain ⟨dir', hdir'⟩ := List.getLast?_eq_some_iff.mp hlast
  rw [hdir', ← List.append_assoc] at heq
  obtain rfl := (List.append_singleton_inj.mp heq).2
  rw [isStagedName_append hhash] at hname
  cases hname

theorem blob?_eq_some_iff : d.blob? t p = some content ↔
    ∃ l, d.locate p = .ok l ∧ t.content? l = some content := by
  rw [blob?]
  cases d.locate p <;> simp [Except.toOption]

/-- Blobs stay as long as the files of their places do. -/
theorem blob?_congr (hbase : d'.base = d.base)
    (h : ∀ l, d.locate p = .ok l → t'.content? l = t.content? l) : d'.blob? t' p = d.blob? t p := by
  have hloc : d'.locate p = d.locate p := by rw [locate, locate, hbase]
  rw [blob?, blob?, hloc]
  cases hl : d.locate p with
  | error => rfl
  | ok l => exact h l hl

theorem target_drop (h : d.locate p = .ok target) :
    (⟨target.drop d.base.length⟩ : StorePath) = p := by
  obtain ⟨_, rfl⟩ := locate_ok_iff.mp h
  rw [List.drop_left]

/-- Only a staged file has changed, which is no blob. -/
theorem Keyed.blobs_eq (hb : d.Keyed b) (hbase : d'.base = d.base)
    (h : ∀ l, l ≠ b.staged → t'.content? l = t.content? l) :
    (d'.stock t').blobs = (d.stock t).blobs :=
  funext fun _ => blob?_congr hbase fun l hl => h l (hb.locate_ne hl)

/-- Every open writer fills a blob of a key. -/
def IsKeyed (d : DirectoryStore) : Prop := ∀ e ∈ d.writers, d.Keyed e.2

theorem IsKeyed.of_lookup (h : d.IsKeyed) (hlookup : d.writers.lookup w.id = some b) : d.Keyed b :=
  h _ (mem_of_lookup hlookup)

theorem stock_openWriter (hbase : d.base.IsClean) (hkeyed : d.IsKeyed)
    (h : d.openWriter t (.ofKey k) = .ok (w, d', t')) : d'.IsKeyed ∧
      (d'.stock t').blobs = (d.stock t).blobs ∧
      (d'.stock t').drafts w = some (.ofKey k, .empty) := by
  obtain ⟨target, staged, hloc, hnew, rfl, rfl⟩ := openWriter_eq h
  obtain ⟨hclean, hne⟩ := isClean_of_locate hbase (StorePath.isClean_ofKey k) hloc
  obtain ⟨⟨number, rfl⟩, _, _, hfile, hframe⟩ := createStaged_ok hclean hne hnew
  have hb : d.Keyed ⟨target, stagedAt target number⟩ := ⟨k, number, hloc, rfl⟩
  refine ⟨?_, hb.blobs_eq rfl fun l hl => ?_, ?_⟩
  · intro e he
    rcases List.mem_cons.mp he with rfl | he
    · exact hb
    · exact hkeyed e he
  · rcases hframe l hl with heq | ⟨hnone, hdir, _⟩
    · exact FileTree.content?_congr heq
    · rw [FileTree.content?, FileTree.content?, hnone, hdir]
  · simp [stock, draft?, FileTree.content?_eq_some_iff.mpr hfile, target_drop hloc]

theorem stock_write (hkeyed : d.IsKeyed) (w : Writer) (chunk : ByteArray) :
    (d.stock (d.write t w chunk)).blobs = (d.stock t).blobs ∧
      (d.stock (d.write t w chunk)).drafts w =
        ((d.stock t).drafts w).map fun draft => (draft.1, draft.2 ++ chunk) := by
  rw [write]
  cases hlookup : d.writers.lookup w.id with
  | none => simp [stock, draft?, hlookup]
  | some b =>
    cases hold : t.content? b.staged with
    | none => simp [stock, draft?, hlookup, hold]
    | some old =>
      have hne : b.staged ≠ [] := by
        obtain ⟨_, number, _, hstaged⟩ := hkeyed.of_lookup hlookup
        exact hstaged ▸ stagedAt_ne_nil _ _
      simp only [hold]
      refine ⟨(hkeyed.of_lookup hlookup).blobs_eq rfl fun l hl =>
        FileTree.content?_congr (FileTree.at?_put_of_ne _ _ hl), ?_⟩
      simp [stock, draft?, hlookup, hold, FileTree.content?_put_self hne]

theorem IsKeyed.close (h : d.IsKeyed) (w : Writer) : (d.close w).IsKeyed :=
  fun e he => h e (List.mem_filter.mp he).1

theorem stock_abort (hkeyed : d.IsKeyed) (w : Writer) : (d.abort t w).1.IsKeyed ∧
    ((d.abort t w).1.stock (d.abort t w).2).blobs = (d.stock t).blobs := by
  rw [abort]
  cases hlookup : d.writers.lookup w.id with
  | none => exact ⟨hkeyed, rfl⟩
  | some b =>
    refine ⟨hkeyed.close w, (hkeyed.of_lookup hlookup).blobs_eq rfl fun l hl => ?_⟩
    rcases FileTree.at?_dropFile t b.staged l with heq | ⟨hl', _⟩
    · exact FileTree.content?_congr heq
    · exact absurd hl' hl

/-- Renaming the staged file publishes the draft; a renaming that fails publishes nothing. -/
theorem stock_finalize (hkeyed : d.IsKeyed) (w : Writer) {r : Except BlobFault Unit}
    (h : d.finalize t w = (r, d', t')) : d'.IsKeyed ∧
      ((d'.stock t').blobs = (d.stock t).publish w ∨
        r ≠ .ok () ∧ (d'.stock t').blobs = (d.stock t).blobs) := by
  rw [finalize] at h
  cases hlookup : d.writers.lookup w.id with
  | none =>
    rw [hlookup] at h
    obtain ⟨rfl, hrest⟩ := Prod.mk.inj h
    obtain ⟨rfl, rfl⟩ := Prod.mk.inj hrest
    exact ⟨hkeyed, .inl (by simp [Stock.publish, stock, draft?, hlookup])⟩
  | some b =>
    rw [hlookup] at h
    simp only at h
    cases hmove : t.renameFile b.staged b.target with
    | error fault =>
      rw [hmove] at h
      obtain ⟨rfl, hrest⟩ := Prod.mk.inj h
      obtain ⟨rfl, rfl⟩ := Prod.mk.inj hrest
      exact ⟨hkeyed.close w, .inr ⟨by simp, rfl⟩⟩
    | ok u =>
      rw [hmove] at h
      obtain ⟨rfl, hrest⟩ := Prod.mk.inj h
      obtain ⟨rfl, rfl⟩ := Prod.mk.inj hrest
      have hb := hkeyed.of_lookup hlookup
      obtain ⟨content, hsource, _, rfl⟩ := FileTree.renameFile_ok hmove
      have hold : t.content? b.staged = some content := FileTree.content?_eq_some_iff.mpr hsource
      obtain ⟨k, number, hloc, _⟩ := id hb
      have hdraft : (d.stock t).drafts w = some (.ofKey k, content) := by
        simp [stock, draft?, hlookup, hold, target_drop hloc]
      refine ⟨hkeyed.close w, .inl (funext fun q => ?_)⟩
      rw [Stock.publish_eq hdraft]
      by_cases hq : q = .ofKey k
      · have hne := segments_ne_nil hloc
        obtain ⟨_, htarget⟩ := locate_ok_iff.mp hloc
        have htop : b.target ≠ [] := by
          rw [htarget]
          exact fun hnil => hne (List.append_eq_nil_iff.mp hnil).2
        rw [hq, Function.update_self]
        exact blob?_eq_some_iff.mpr ⟨_, hloc, FileTree.content?_put_self htop⟩
      · rw [Function.update_of_ne hq]
        refine blob?_congr rfl fun l hl => FileTree.content?_congr ?_
        have htarget : l ≠ b.target := by
          rintro rfl
          exact hq ((target_drop hl).symm.trans (target_drop hloc))
        rw [FileTree.at?_put_of_ne _ _ htarget, FileTree.at?_erase_of_ne _ (hb.locate_ne hl)]

end DirectoryStore

namespace MemoryStore

variable {m : MemoryStore} {p : StorePath} {w : Writer}

def draft? (m : MemoryStore) (w : Writer) : Option (StorePath × ByteArray) :=
  (m.writers.lookup w.id).map fun b => (b.path, b.bytes)

def stock (m : MemoryStore) : Stock StorePath := ⟨m.get?, m.draft?⟩

theorem stock_openWriter (p : StorePath) : (m.openWriter p).2.stock.blobs = m.stock.blobs ∧
    (m.openWriter p).2.stock.drafts (m.openWriter p).1 = some (p, .empty) := by
  refine ⟨rfl, ?_⟩
  simp only [stock, draft?, openWriter, List.lookup_cons_self, Option.map_some]
  rfl

theorem stock_write (w : Writer) (chunk : ByteArray) :
    (m.write w chunk).stock.blobs = m.stock.blobs ∧ (m.write w chunk).stock.drafts w =
      (m.stock.drafts w).map fun draft => (draft.1, draft.2 ++ chunk) := by
  refine ⟨rfl, ?_⟩
  cases hlookup : m.writers.lookup w.id with
  | none =>
    have hnone : (m.write w chunk).writers.lookup w.id = none := by
      rw [List.lookup_eq_none_iff] at hlookup ⊢
      intro e he
      obtain ⟨⟨id, b⟩, hold, rfl⟩ := List.mem_map.mp he
      have hne := hlookup _ hold
      by_cases hid : (id == w.id) = true
      · simpa [hid] using hne
      · simpa [hid] using hne
    simp [stock, draft?, hlookup, hnone]
  | some b => simp [stock, draft?, hlookup, lookup_write hlookup, bytes_write]

theorem blobs_finalize (w : Writer) : (m.finalize w).stock.blobs = m.stock.publish w := by
  cases hlookup : m.writers.lookup w.id with
  | none => simp [finalize, Stock.publish, stock, draft?, hlookup]
  | some b =>
    have hdraft : m.stock.drafts w = some (b.path, b.bytes) := by simp [stock, draft?, hlookup]
    rw [finalize_eq hlookup, Stock.publish_eq hdraft]
    funext q
    by_cases hq : q = b.path
    · rw [hq, Function.update_self]
      exact get?_put_self _ _ _
    · rw [Function.update_of_ne hq]
      exact get?_put_of_ne _ _ hq

theorem nodup_finalize (h : m.paths.Nodup) (w : Writer) : (m.finalize w).paths.Nodup := by
  rw [finalize]
  split
  · exact h
  · have hfree : ∀ (p : StorePath) (blobs : List (StorePath × ByteArray)),
        p ∉ (blobs.filter fun e => e.1 != p).map (·.1) := by
      intro p blobs
      simp
    exact List.nodup_cons.mpr ⟨hfree _ _, h.sublist (List.filter_sublist.map _)⟩

end MemoryStore

namespace Vault

variable {v : Vault} {t t' : FileTree} {k : Key} {p : StorePath} {w : Writer} {content : ByteArray}

/-- The published blobs and the drafts of a local store. -/
def stock (v : Vault) (t : FileTree) : Stock StorePath :=
  match v.storage with
  | .memory m => m.stock
  | .directory d => d.stock t
  | .cloud | .scripted _ => ⟨fun _ => none, fun _ => none⟩

/-- An orderly store in which every path is kept once and writers are opened under keys only. -/
def Tended (v : Vault) (t : FileTree) : Prop :=
  match v.storage with
  | .memory m => m.Orderly ∧ m.paths.Nodup
  | .directory d => d.Orderly t ∧ d.IsKeyed
  | .cloud | .scripted _ => False

theorem Tended.orderly (h : v.Tended t) : v.Orderly t := by
  obtain ⟨bucket, storage⟩ := v
  cases storage with
  | memory m => exact h.1
  | directory d => exact h.1
  | cloud => exact h.elim
  | scripted s => exact h.elim

theorem Orderly.stores_iff (h : v.Orderly t) (hp : p.IsLegal) :
    v.Stores t p content ↔ (v.stock t).blobs p = some content := by
  obtain ⟨bucket, storage⟩ := v
  cases storage with
  | memory m => exact Iff.rfl
  | directory d =>
    change d.get t p = .ok content ↔ d.blob? t p = some content
    rw [DirectoryStore.get_ok_iff h.clean hp.clean, DirectoryStore.blob?_eq_some_iff]
    refine exists_congr fun l => and_congr_right fun hloc => ?_
    rw [FileTree.content?_eq_some_iff]
    refine ⟨And.right, fun hfile => ⟨?_, hfile⟩⟩
    have hne := DirectoryStore.segments_ne_nil hloc
    obtain ⟨_, rfl⟩ := DirectoryStore.locate_ok_iff.mp hloc
    exact (h.tidy.files _ content hne hfile).2
  | cloud => exact h.elim
  | scripted s => exact h.elim

/-- The stock of a store depends on its territory alone. -/
theorem Tended.stock_congr (h : v.Tended t) (hsame : ∀ l, v.Territory l → t'.at? l = t.at? l) :
    v.stock t' = v.stock t := by
  obtain ⟨bucket, storage⟩ := v
  cases storage with
  | memory m => rfl
  | directory d =>
    have hcontent : ∀ l, d.base <+: l → t'.content? l = t.content? l :=
      fun l hl => FileTree.content?_congr (hsame l ⟨d.base, rfl, .inr hl⟩)
    have hblobs : d.blob? t' = d.blob? t := funext fun q => DirectoryStore.blob?_congr rfl
      fun l hl => hcontent l ⟨_, (DirectoryStore.locate_ok_iff.mp hl).2.symm⟩
    have hdrafts : d.draft? t' = d.draft? t := by
      funext w
      rw [DirectoryStore.draft?, DirectoryStore.draft?]
      cases hlookup : d.writers.lookup w.id with
      | none => rfl
      | some b =>
        obtain ⟨k, number, hloc, hstaged⟩ := h.2.of_lookup hlookup
        have hbase := DirectoryStore.base_prefix_stagedAt hloc number
        simp only [Option.bind_some, hcontent b.staged (hstaged ▸ hbase)]
    simp only [stock, DirectoryStore.stock, hblobs, hdrafts]
  | cloud => exact h.elim
  | scripted s => exact h.elim

theorem Tended.retree (h : v.Tended t) (hsingle : t'.IsSingle)
    (hsame : ∀ l, v.Territory l → t'.at? l = t.at? l) : v.Tended t' := by
  have horderly : v.Orderly t' := by
    refine h.orderly.retree fun base hbase htidy => ⟨hsingle, fun names content hne hfile => ?_⟩
    have hwithin : ∀ m, m <+: base ++ names → t'.at? m = t.at? m := fun m hm =>
      hsame m ⟨base, hbase, List.prefix_or_prefix_of_prefix hm (List.prefix_append _ _)⟩
    rw [hwithin _ List.prefix_rfl] at hfile
    obtain ⟨hlegal, hreached⟩ := htidy.files names content hne hfile
    exact ⟨hlegal, hreached.mono fun m hm _ hdir => (hwithin m hm).trans hdir⟩
  obtain ⟨bucket, storage⟩ := v
  cases storage with
  | memory m => exact h
  | directory d => exact ⟨horderly, h.2⟩
  | cloud => exact h.elim
  | scripted s => exact h.elim

theorem Tended.contains (h : v.Tended t) {found : Bool}
    (hfound : (v.contains t k).1 = .ok found) :
    found = ((v.stock t).blobs (.ofKey k)).isSome := by
  have hiff := (contains_ok h.orderly.isLocal t k).2
  simp only [h.orderly.stores_iff (StorePath.isLegal_ofKey k)] at hiff
  rw [hfound, ← Option.isSome_iff_exists] at hiff
  cases found <;> simp_all

/-- The store is still tended and where it was, and the files are still a map from places. -/
structure Remains (v : Vault) (t : FileTree) (a : Aftermath) : Prop where
  tended : a.vault.Tended a.files
  base : a.vault.base? = v.base?
  single : t.IsSingle → a.files.IsSingle

theorem Tended.openWriter {a : Aftermath} (h : v.Tended t)
    (hopen : v.openWriter t k = (.ok w, a)) : v.Remains t a ∧
      (a.vault.stock a.files).blobs = (v.stock t).blobs ∧
      (a.vault.stock a.files).drafts w = some (.ofKey k, .empty) := by
  have horderly := h.orderly.openWriter hopen
  have hbase := (openWriter_ok h.orderly.isLocal hopen).1.base
  obtain ⟨bucket, storage⟩ := v
  cases storage with
  | memory m =>
    obtain ⟨hw, rfl⟩ := Prod.mk.inj hopen
    obtain rfl := Except.ok.inj hw
    exact ⟨⟨⟨horderly, h.2⟩, hbase, id⟩, m.stock_openWriter _⟩
  | directory d =>
    simp only [Vault.openWriter] at hopen
    cases hd : d.openWriter t (.ofKey k) with
    | error fault =>
      rw [hd] at hopen
      cases (Prod.mk.inj hopen).1
    | ok opened =>
      obtain ⟨w', d', t'⟩ := opened
      rw [hd] at hopen
      obtain ⟨hw, rfl⟩ := Prod.mk.inj hopen
      obtain rfl := Except.ok.inj hw
      obtain ⟨hkeyed, hstock⟩ := DirectoryStore.stock_openWriter h.1.clean h.2 hd
      exact ⟨⟨⟨horderly, hkeyed⟩, hbase, fun _ => horderly.tidy.single⟩, hstock⟩
  | cloud => exact h.elim
  | scripted s => exact h.elim

theorem Tended.write (h : v.Tended t) (w : Writer) (chunk : ByteArray) :
    v.Remains t (v.write t w chunk).2 ∧
      ((v.write t w chunk).2.vault.stock (v.write t w chunk).2.files).blobs = (v.stock t).blobs ∧
      ((v.write t w chunk).2.vault.stock (v.write t w chunk).2.files).drafts w =
        ((v.stock t).drafts w).map fun draft => (draft.1, draft.2 ++ chunk) := by
  have horderly := h.orderly.write w chunk
  obtain ⟨bucket, storage⟩ := v
  cases storage with
  | memory m => exact ⟨⟨⟨horderly, h.2⟩, rfl, id⟩, m.stock_write w chunk⟩
  | directory d =>
    exact ⟨⟨⟨horderly, h.2⟩, rfl, fun _ => horderly.tidy.single⟩,
      DirectoryStore.stock_write h.2 w chunk⟩
  | cloud => exact h.elim
  | scripted s => exact h.elim

theorem Tended.abort (h : v.Tended t) (w : Writer) : v.Remains t (v.abort t w).2 ∧
    ((v.abort t w).2.vault.stock (v.abort t w).2.files).blobs = (v.stock t).blobs := by
  have horderly := h.orderly.abort w
  obtain ⟨bucket, storage⟩ := v
  cases storage with
  | memory m => exact ⟨⟨⟨horderly, h.2⟩, rfl, id⟩, rfl⟩
  | directory d =>
    obtain ⟨hkeyed, hblobs⟩ := DirectoryStore.stock_abort (t := t) h.2 w
    exact ⟨⟨⟨horderly, hkeyed⟩, congrArg some (d.base_abort t w), fun _ => horderly.tidy.single⟩,
      hblobs⟩
  | cloud => exact h.elim
  | scripted s => exact h.elim

theorem Tended.finalize (h : v.Tended t) (staging : Location) (w : Writer) :
    v.Remains t (v.finalize t staging w).2 ∧
      (((v.finalize t staging w).2.vault.stock (v.finalize t staging w).2.files).blobs =
          (v.stock t).publish w ∨
        (v.finalize t staging w).1 ≠ .ok () ∧
          ((v.finalize t staging w).2.vault.stock (v.finalize t staging w).2.files).blobs =
            (v.stock t).blobs) := by
  have horderly := h.orderly.finalize staging w
  obtain ⟨bucket, storage⟩ := v
  cases storage with
  | memory m => exact ⟨⟨⟨horderly, m.nodup_finalize h.2 w⟩, rfl, id⟩, .inl (m.blobs_finalize w)⟩
  | directory d =>
    obtain ⟨hkeyed, hblobs⟩ := DirectoryStore.stock_finalize (t := t) h.2 w rfl
    refine ⟨⟨⟨horderly, hkeyed⟩, congrArg some (d.base_finalize t w),
      fun _ => horderly.tidy.single⟩, hblobs.imp_right fun ⟨hr, hsame⟩ => ⟨?_, hsame⟩⟩
    change (d.finalize t w).1.mapError IoFault.blob ≠ .ok ()
    cases hend : (d.finalize t w).1 with
    | ok => exact absurd hend hr
    | error fault => simp [Except.mapError]
  | cloud => exact h.elim
  | scripted s => exact h.elim

end Vault
end DumpVault
