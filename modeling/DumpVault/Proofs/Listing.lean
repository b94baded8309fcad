import Mathlib.Algebra.GroupWithZero.Nat
import DumpVault.Proofs.Orderly

/-!
# Keys that were listed

A listing takes the text of a stored path for a key, while every access writes the segments of its
key once more. A listed key leads back to its object only if writing changes nothing. A listed name
that is not plain has been written at least once already, and writing it again makes it longer.
-/
namespace DumpVault

namespace StorePath

variable {p : StorePath}

def written (p : StorePath) : StorePath := ⟨p.segments.map encodeSegment⟩

theorem ofKey_eq_written (k : Key) : ofKey k = (ofText k.text).written := rfl

def size (p : StorePath) : Nat := (p.segments.map String.length).sum

theorem written_eq_self_iff : p.written = p ↔ ∀ s ∈ p.segments, encodeSegment s = s := by
  obtain ⟨segments⟩ := p
  induction segments with
  | nil => simp [written]
  | cons s segments ih =>
    simp only [written, StorePath.mk.injEq] at ih
    simp [written, ih]

/-- A path is written as itself when its text has plain characters between the slashes only. -/
theorem written_eq_self_iff_text (hp : Location.IsClean p.segments) :
    p.written = p ↔ ∀ c ∈ p.text.toList, c = '/' ∨ isPlainChar c = true := by
  rw [written_eq_self_iff]
  constructor
  · intro h c hc
    rcases mem_of_mem_text hc with hslash | ⟨s, hs, hcs⟩
    · exact .inl hslash
    · exact .inr (((encodeSegment_eq_self_iff s).mp (h s hs)).1 c hcs)
  · intro h s hs
    have hname := hp s hs
    refine (encodeSegment_eq_self_iff s).mpr ⟨fun c hc => ?_, hname.notSelf, hname.notUp⟩
    rcases h c (mem_text_of_mem hs hc) with rfl | hplain
    · exact absurd hc hname.noSlash
    · exact hplain

theorem size_le_size_written (segments : List String) :
    (⟨segments⟩ : StorePath).size ≤ (⟨segments⟩ : StorePath).written.size := by
  induction segments with
  | nil => exact Nat.le_refl _
  | cons s segments ih =>
    have hs : s.length ≤ (encodeSegment s).length := by
      by_cases h : encodeSegment s = s
      · rw [h]
      · exact Nat.le_of_lt (encodeSegment_of_ne_self h).2
    simp only [size, written, List.map_cons, List.sum_cons] at ih ⊢
    omega

/-- Writing what is not written as itself makes it longer. -/
theorem size_lt_size_written (h : p.written ≠ p) : p.size < p.written.size := by
  obtain ⟨segments⟩ := p
  induction segments with
  | nil => exact absurd rfl h
  | cons s segments ih =>
    have hrest := size_le_size_written segments
    by_cases hs : encodeSegment s = s
    · have htail := ih fun htail => h (by simpa [written, hs] using htail)
      simp only [size, written, List.map_cons, List.sum_cons, hs] at htail ⊢
      omega
    · have hgrown := (encodeSegment_of_ne_self hs).2
      simp only [size, written, List.map_cons, List.sum_cons] at hrest ⊢
      omega

theorem exists_percent (h : p.written ≠ p) : ∃ s ∈ p.written.segments, '%' ∈ s.toList := by
  rw [Ne, written_eq_self_iff] at h
  simp only [Classical.not_forall] at h
  obtain ⟨s, hs, hne⟩ := h
  exact ⟨encodeSegment s, List.mem_map_of_mem hs, (encodeSegment_of_ne_self hne).1⟩

theorem written_written_ne (h : p.written ≠ p) : p.written.written ≠ p.written := by
  obtain ⟨s, hs, hpercent⟩ := exists_percent h
  intro heq
  have hself := written_eq_self_iff.mp heq s hs
  exact absurd (((encodeSegment_eq_self_iff s).mp hself).1 '%' hpercent) (by decide)

theorem ofText_text (hp : Location.IsClean p.segments) (hne : p.segments ≠ []) :
    ofText p.text = p := by
  rw [ofText, split_text hp hne]

end StorePath

/-- A name of plain characters; slashes may stand between them. -/
def Key.IsPlain (k : Key) : Prop :=
  ∀ c ∈ k.text.toList, c = '/' ∨ StorePath.isPlainChar c = true

namespace Vault

variable {v : Vault} {t : FileTree} {k : Key} {keys : List Key}

/-- A place that other tools may put a file at: if it is below the directory of the store, its path
from there is legal. -/
def Admits (v : Vault) (l : Location) : Prop :=
  ∀ base names, v.base? = some base → l = base ++ names → StorePath.IsLegal ⟨names⟩

/-- The states of a store and of the files around it. The store is empty at first; then writers are
opened under any keys, filled and ended in any order, while other tools put objects under legal
paths and change files. -/
inductive Filled : Vault → FileTree → Prop
  | memory (bucket : String) (t : FileTree) : Filled ⟨bucket, .memory {}⟩ t
  | directory (bucket : String) {base : Location} {t : FileTree} (hbase : base.IsClean)
      (hsingle : t.IsSingle) (hempty : t.filesBelow base = []) :
      Filled ⟨bucket, .directory { base }⟩ t
  | openWriter {v : Vault} {t : FileTree} {k : Key} {w : Writer} {a : Aftermath} (h : Filled v t)
      (hopen : v.openWriter t k = (.ok w, a)) : Filled a.vault a.files
  | write {v : Vault} {t : FileTree} (h : Filled v t) (w : Writer) (chunk : ByteArray) :
      Filled (v.write t w chunk).2.vault (v.write t w chunk).2.files
  | finalize {v : Vault} {t : FileTree} (h : Filled v t) (staging : Location) (w : Writer) :
      Filled (v.finalize t staging w).2.vault (v.finalize t staging w).2.files
  | abort {v : Vault} {t : FileTree} (h : Filled v t) (w : Writer) :
      Filled (v.abort t w).2.vault (v.abort t w).2.files
  | put {v : Vault} {t : FileTree} {p : StorePath} (h : Filled v t) (hp : p.IsLegal)
      (content : ByteArray) : Filled (v.putRaw t p content).2.vault (v.putRaw t p content).2.files
  | file {v : Vault} {t : FileTree} {l : Location} (h : Filled v t)
      (hdir : t.at? l ≠ some .directory) (hreached : t.Reached l) (hlegal : v.Admits l)
      (content : ByteArray) : Filled v (t.put l (.file content))
  | makeDirectory {v : Vault} {t : FileTree} {l : Location} (h : Filled v t)
      (hfree : t.at? l = none) : Filled v (t.put l .directory)
  | dropFile {v : Vault} {t : FileTree} (h : Filled v t) (l : Location) : Filled v (t.dropFile l)

theorem Filled.orderly (h : Filled v t) : v.Orderly t := by
  induction h with
  | memory bucket t =>
    exact ⟨fun _ he => absurd he List.not_mem_nil, fun _ he => absurd he List.not_mem_nil⟩
  | @directory bucket base t hbase hsingle hempty =>
    refine ⟨⟨hbase, fun _ he => absurd he List.not_mem_nil⟩,
      ⟨hsingle, fun names content hne hfile => ?_⟩⟩
    have hmem := (FileTree.mem_filesBelow hsingle).mpr ⟨hne, hfile⟩
    rw [hempty] at hmem
    exact absurd hmem List.not_mem_nil
  | openWriter _ hopen ih => exact ih.openWriter hopen
  | write _ w chunk ih => exact ih.write w chunk
  | finalize _ staging w ih => exact ih.finalize staging w
  | abort _ w ih => exact ih.abort w
  | put _ hp content ih => exact ih.putRaw hp content
  | file _ hdir hreached hlegal content ih =>
    exact ih.retree fun base hbase htidy =>
      htidy.put hdir hreached (fun names hl => hlegal base names hbase hl) content
  | makeDirectory _ hfree ih => exact ih.retree fun base _ htidy => htidy.putDirectory hfree
  | dropFile _ l ih => exact ih.retree fun base _ htidy => htidy.dropFile l

/-- A key names the object that was listed by it: the object is there under the key, and a reader of
the key yields its bytes. -/
def Retrieves (v : Vault) (t : FileTree) (k : Key) : Prop :=
  ∃ content, v.Stores t (.ofText k.text) content ∧ (v.contains t k).1 = .ok true ∧
    (v.openReader t k).1 = .ok (.ofBytes content)

theorem retrieves_of_written (h : v.IsLocal) {content : ByteArray}
    (hstored : v.Stores t (.ofText k.text) content)
    (hwritten : (StorePath.ofText k.text).written = .ofText k.text) : v.Retrieves t k := by
  have hkey : v.Stores t (.ofKey k) content := by
    rw [StorePath.ofKey_eq_written, hwritten]
    exact hstored
  exact ⟨content, hstored, (contains_ok h t k).2.mpr ⟨content, hkey⟩,
    ((openReader_ok h t k).2 _).mpr ⟨content, rfl, hkey⟩⟩

theorem text_ne_nil {p : StorePath} (h : k.text = p.text) : p.segments ≠ [] := by
  intro hnil
  refine k.notBlank fun c hc => ?_
  rw [h, StorePath.text, hnil] at hc
  exact absurd hc List.not_mem_nil

theorem Orderly.listed (h : v.Orderly t) (hlist : (v.list t).1 = .ok keys) : k ∈ keys ↔
    (StorePath.ofText k.text).IsLegal ∧ k.text = (StorePath.ofText k.text).text ∧
      ∃ content, v.Stores t (.ofText k.text) content := by
  obtain ⟨found, hfound, hmem⟩ := h.list
  obtain rfl : keys = found := Except.ok.inj (hlist.symm.trans hfound)
  rw [hmem]
  constructor
  · rintro ⟨p, content, hp, hstored, htext⟩
    have hofText : StorePath.ofText k.text = p := by
      rw [htext, StorePath.ofText_text hp.clean (text_ne_nil htext)]
    rw [hofText]
    exact ⟨hp, htext, content, hstored⟩
  · rintro ⟨hp, htext, content, hstored⟩
    exact ⟨_, content, hp, hstored, htext⟩

/-- If a listed key that is not plain exists under its own name, a longer one is listed too. -/
theorem Orderly.listed_longer (h : v.Orderly t) (hlist : (v.list t).1 = .ok keys)
    (hwritten : (StorePath.ofText k.text).written ≠ .ofText k.text)
    (hexists : (v.contains t k).1 = .ok true) : ∃ k' ∈ keys,
      (StorePath.ofText k'.text).written ≠ .ofText k'.text ∧
      (StorePath.ofText k.text).size < (StorePath.ofText k'.text).size := by
  obtain ⟨content, hstored⟩ := (contains_ok h.isLocal t k).2.mp hexists
  have hlegal := StorePath.isLegal_ofKey k
  rw [StorePath.ofKey_eq_written] at hstored hlegal
  obtain ⟨s, hs, hpercent⟩ := StorePath.exists_percent hwritten
  have hne : (StorePath.ofText k.text).written.segments ≠ [] := List.ne_nil_of_mem hs
  have hblank : ¬ Text.AllBlank (StorePath.ofText k.text).written.text := fun hblank =>
    absurd (hblank '%' (StorePath.mem_text_of_mem hs hpercent)) (by decide)
  have hback := StorePath.ofText_text hlegal.clean hne
  refine ⟨⟨_, hblank⟩, (h.listed hlist).mpr ?_, ?_⟩
  · rw [hback]
    exact ⟨hlegal, rfl, content, hstored⟩
  · rw [hback]
    exact ⟨StorePath.written_written_ne hwritten, StorePath.size_lt_size_written hwritten⟩

theorem exists_size_bound (keys : List Key) :
    ∃ bound, ∀ k ∈ keys, (StorePath.ofText k.text).size < bound := by
  induction keys with
  | nil => exact ⟨0, fun _ h => absurd h List.not_mem_nil⟩
  | cons first keys ih =>
    obtain ⟨bound, hbound⟩ := ih
    refine ⟨bound + (StorePath.ofText first.text).size + 1, fun k hk => ?_⟩
    rcases List.mem_cons.mp hk with rfl | hk
    · omega
    · have := hbound k hk
      omega

/-- Keys that are all retrieved are plain: a key that is not would make the listing endless. -/
theorem Orderly.plain_of_retrieves (h : v.Orderly t) (hlist : (v.list t).1 = .ok keys)
    (hall : ∀ k ∈ keys, v.Retrieves t k) (hk : k ∈ keys) :
    (StorePath.ofText k.text).written = .ofText k.text := by
  refine Classical.byContradiction fun hne => ?_
  have hlong : ∀ n, ∃ k ∈ keys, (StorePath.ofText k.text).written ≠ .ofText k.text ∧
      n ≤ (StorePath.ofText k.text).size := by
    intro n
    induction n with
    | zero => exact ⟨k, hk, hne, Nat.zero_le _⟩
    | succ n ih =>
      obtain ⟨k', hk', hne', hn⟩ := ih
      obtain ⟨_, _, hexists, _⟩ := hall k' hk'
      obtain ⟨k'', hk'', hne'', hlonger⟩ := h.listed_longer hlist hne' hexists
      exact ⟨k'', hk'', hne'', by omega⟩
  obtain ⟨bound, hbound⟩ := exists_size_bound keys
  obtain ⟨k', hk', _, hn⟩ := hlong bound
  exact absurd (hbound k' hk') (by omega)

/-- Every listed key is the path of an object. It names that object when it is plain, and all
listed keys name their objects only if all of them are plain. -/
theorem listed_retrieved_iff (h : Filled v t) : ∃ keys, (v.list t).1 = .ok keys ∧
    (∀ k ∈ keys, ∃ content, v.Stores t (.ofText k.text) content) ∧
    (∀ k ∈ keys, k.IsPlain → v.Retrieves t k) ∧
    ((∀ k ∈ keys, v.Retrieves t k) ↔ ∀ k ∈ keys, k.IsPlain) := by
  have horderly := h.orderly
  obtain ⟨keys, hlist, _⟩ := horderly.list
  have hplain : ∀ k ∈ keys,
      (StorePath.ofText k.text).written = .ofText k.text ↔ k.IsPlain := by
    intro k hk
    obtain ⟨hlegal, htext, _⟩ := (horderly.listed hlist).mp hk
    rw [StorePath.written_eq_self_iff_text hlegal.clean, ← htext, Key.IsPlain]
  have hsound : ∀ k ∈ keys, k.IsPlain → v.Retrieves t k := by
    intro k hk hk'
    obtain ⟨_, _, content, hstored⟩ := (horderly.listed hlist).mp hk
    exact retrieves_of_written horderly.isLocal hstored ((hplain k hk).mpr hk')
  refine ⟨keys, hlist, fun k hk => ((horderly.listed hlist).mp hk).2.2, hsound, ?_, ?_⟩
  · intro hall k hk
    exact (hplain k hk).mp (horderly.plain_of_retrieves hlist hall hk)
  · exact fun hall k hk => hsound k hk (hall k hk)

/-- What a first writer leaves behind that takes in one chunk under a key. -/
def stored (v : Vault) (t : FileTree) (k : Key) (content : ByteArray) : Aftermath :=
  let opened := (v.openWriter t k).2
  let filled := (opened.vault.write opened.files ⟨0⟩ content).2
  (filled.vault.finalize filled.files [] ⟨0⟩).2

theorem Filled.stored {content : ByteArray} (h : Filled v t)
    (hopen : (v.openWriter t k).1 = .ok ⟨0⟩) :
    Filled (v.stored t k content).vault (v.stored t k content).files :=
  .finalize (.write (.openWriter h (Prod.ext hopen rfl)) ⟨0⟩ content) [] ⟨0⟩

def springStored : Aftermath :=
  Vault.stored ⟨"archives", .directory { base := ["store", "archives"] }⟩
    ⟨[(["store", "archives"], .directory), (["store"], .directory)]⟩
    ⟨"spring 2024", by decide⟩ ⟨#[68, 85, 77, 80]⟩

theorem filled_springStored : Filled springStored.vault springStored.files := by
  have hbase : Location.IsClean ["store", "archives"] := by
    intro s hs
    rcases List.mem_cons.mp hs with rfl | hs
    · exact ⟨by decide, by decide, by decide, by decide⟩
    · obtain rfl := List.mem_singleton.mp hs
      exact ⟨by decide, by decide, by decide, by decide⟩
  have hempty := Filled.directory "archives" hbase
    (t := ⟨[(["store", "archives"], .directory), (["store"], .directory)]⟩)
    (by unfold FileTree.IsSingle; decide) rfl
  exact hempty.stored (by decide +kernel)

theorem listed_retrieved_spring : Filled springStored.vault springStored.files ∧
    ∃ keys, (springStored.vault.list springStored.files).1 = .ok keys ∧
      (∀ k ∈ keys, ∃ content, springStored.vault.Stores springStored.files (.ofText k.text) content) ∧
      (∀ k ∈ keys, k.IsPlain → springStored.vault.Retrieves springStored.files k) ∧
      ((∀ k ∈ keys, springStored.vault.Retrieves springStored.files k) ↔
        ∀ k ∈ keys, k.IsPlain) :=
  ⟨filled_springStored, listed_retrieved_iff filled_springStored⟩

def percentStored : Aftermath :=
  Vault.stored ⟨"archives", .memory {}⟩ .empty ⟨"a%b", by decide⟩ ⟨#[68, 65, 84, 65]⟩

/-- The object stored under `a%b` is listed as `a%25b`, and there is no object under that key. -/
theorem percent_not_retrieved : Filled percentStored.vault percentStored.files ∧
    ∃ k : Key, k.text = "a%25b" ∧ (percentStored.vault.list percentStored.files).1 = .ok [k] ∧
      (percentStored.vault.contains percentStored.files k).1 = .ok false ∧
      ¬ percentStored.vault.Retrieves percentStored.files k := by
  have hempty : Filled ⟨"archives", .memory {}⟩ .empty := .memory "archives" .empty
  have hmissing : (percentStored.vault.contains percentStored.files ⟨"a%25b", by decide⟩).1 =
      .ok false := by
    decide +kernel
  refine ⟨hempty.stored rfl, ⟨"a%25b", by decide⟩, rfl, by decide +kernel, hmissing, ?_⟩
  rintro ⟨_, _, hexists, _⟩
  rw [hmissing] at hexists
  cases hexists

end Vault
end DumpVault
