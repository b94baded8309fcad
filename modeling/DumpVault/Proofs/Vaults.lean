import DumpVault.Proofs.Directories
import DumpVault.Store.Vault

/-!
# Local stores as maps

A store in memory and one in a directory keep the same promises: look-ups change nothing, a writer
that is opened takes in chunks unseen, finalizing it publishes all of them under its path, and no
other blob is touched by any of this.
-/
namespace DumpVault

namespace MemoryStore

variable {m : MemoryStore} {p q : StorePath} {w : Writer} {b : OpenBlob} {chunk content : ByteArray}

theorem get?_put_of_ne (m : MemoryStore) (content : ByteArray) (h : q ≠ p) :
    (m.put p content).get? q = m.get? q := by
  have hne : (q == p) = false := by simpa using h
  simp only [get?, put, List.lookup_cons, hne]
  induction m.blobs with
  | nil => rfl
  | cons e blobs ih =>
    obtain ⟨r, bytes⟩ := e
    by_cases hr : r = p
    · subst hr
      simpa [List.lookup_cons, hne] using ih
    · simp [List.lookup_cons, hr, ih]

theorem lookup_write (h : m.writers.lookup w.id = some b) :
    (m.write w chunk).writers.lookup w.id = some { b with chunks := b.chunks ++ [chunk] } := by
  simp only [write]
  generalize m.writers = writers at h
  induction writers with
  | nil => cases h
  | cons e writers ih =>
    obtain ⟨id, old⟩ := e
    by_cases hid : w.id = id
    · subst hid
      simp only [List.lookup_cons, beq_self_eq_true, Option.some.injEq] at h
      simp [h]
    · have hne : (w.id == id) = false := by simpa using hid
      have hne' : (id == w.id) = false := by simpa using fun h : id = w.id => hid h.symm
      simp only [List.lookup_cons, hne] at h
      rw [List.map_cons]
      simp only [hne', Bool.false_eq_true, if_false, List.lookup_cons, hne]
      exact ih h

theorem bytes_write (b : OpenBlob) (chunk : ByteArray) :
    OpenBlob.bytes { b with chunks := b.chunks ++ [chunk] } = b.bytes ++ chunk := by
  simp [OpenBlob.bytes_eq]

theorem finalize_eq (h : m.writers.lookup w.id = some b) :
    m.finalize w = (m.abort w).put b.path b.bytes := by
  rw [finalize, h]

end MemoryStore

namespace Vault

variable {v v' : Vault} {t t' : FileTree} {k : Key} {p q : StorePath} {w : Writer}
  {bytes chunk content : ByteArray}

/-- A store in memory or in a directory that a clean path names. -/
def IsLocal (v : Vault) : Prop :=
  match v.storage with
  | .memory _ => True
  | .directory d => d.base.IsClean
  | .cloud | .scripted _ => False

def Stores (v : Vault) (t : FileTree) (p : StorePath) (content : ByteArray) : Prop :=
  match v.storage with
  | .memory m => m.get? p = some content
  | .directory d => d.get t p = .ok content
  | .cloud | .scripted _ => False

/-- A writer of the blob at a path that has taken in `bytes`. -/
def Fills (v : Vault) (t : FileTree) (w : Writer) (p : StorePath) (bytes : ByteArray) : Prop :=
  match v.storage with
  | .memory m => ∃ b, m.writers.lookup w.id = some b ∧ b.path = p ∧ b.bytes = bytes
  | .directory d => d.Fills t w p bytes
  | .cloud | .scripted _ => False

def base? (v : Vault) : Option Location :=
  match v.storage with
  | .directory d => some d.base
  | _ => none

/-- The places that a store depends on: its directory with all that is below it, and what leads
there. -/
def Territory (v : Vault) (l : Location) : Prop :=
  ∃ base, v.base? = some base ∧ (l <+: base ∨ base <+: l)

/-- Files have changed in the directory of the store only. -/
def Confined (v : Vault) (t t' : FileTree) : Prop :=
  match v.base? with
  | some base => t.ChangedWithin base t'
  | none => t' = t

/-- What an operation may do to a store: it stays where it is, changes files in its directory only
and keeps every blob but those at the paths of `changed`. -/
structure Evolves (v : Vault) (t : FileTree) (v' : Vault) (t' : FileTree)
    (changed : StorePath → Prop) : Prop where
  isLocal : v'.IsLocal
  bucket : v'.bucket = v.bucket
  base : v'.base? = v.base?
  confined : v.Confined t t'
  keeps : ∀ q content, q.IsSafe → ¬ changed q → v.Stores t q content → v'.Stores t' q content

/-- What is stored depends on the territory alone. -/
theorem Stores.congr (hlocal : v.IsLocal) (hp : p.IsSafe) (h : v.Stores t p content)
    (hsame : ∀ l, v.Territory l → t'.at? l = t.at? l) : v.Stores t' p content := by
  obtain ⟨bucket, storage⟩ := v
  cases storage with
  | memory m => exact h
  | directory d =>
    refine DirectoryStore.get_of_kept hlocal hp.clean rfl h fun l e hl he => ?_
    rw [hsame l ⟨d.base, rfl, ?_⟩, he]
    exact List.prefix_or_prefix_of_prefix hl (List.prefix_append _ _)
  | cloud => exact hlocal.elim
  | scripted s => exact hlocal.elim

theorem contains_ok (h : v.IsLocal) (t : FileTree) (k : Key) :
    (v.contains t k).2 = v.keep t ∧
      ((v.contains t k).1 = .ok true ↔ ∃ content, v.Stores t (.ofKey k) content) := by
  obtain ⟨bucket, storage⟩ := v
  cases storage with
  | memory m =>
    refine ⟨rfl, ?_⟩
    change Except.ok (m.get? (.ofKey k)).isSome = _ ↔ ∃ content, m.get? (.ofKey k) = some content
    rw [Except.ok.injEq, Option.isSome_iff_exists]
  | directory d =>
    refine ⟨rfl, ?_⟩
    change _ ↔ ∃ content, d.get t (.ofKey k) = .ok content
    simp only [contains]
    cases d.get t (.ofKey k) with
    | ok content => simp
    | error fault =>
      simp only [reduceCtorEq, exists_const, iff_false]
      split <;> simp
  | cloud => exact h.elim
  | scripted s => exact h.elim

theorem openReader_ok (h : v.IsLocal) (t : FileTree) (k : Key) :
    (v.openReader t k).2 = v.keep t ∧ ∀ s, (v.openReader t k).1 = .ok s ↔
      ∃ content, s = .ofBytes content ∧ v.Stores t (.ofKey k) content := by
  obtain ⟨bucket, storage⟩ := v
  cases storage with
  | memory m =>
    refine ⟨rfl, fun s => ?_⟩
    change _ ↔ ∃ content, s = .ofBytes content ∧ m.get? (.ofKey k) = some content
    simp only [openReader]
    cases m.get? (.ofKey k) <;> simp [eq_comm]
  | directory d =>
    refine ⟨rfl, fun s => ?_⟩
    change _ ↔ ∃ content, s = .ofBytes content ∧ d.get t (.ofKey k) = .ok content
    simp only [openReader]
    cases d.get t (.ofKey k) <;> simp [eq_comm]
  | cloud => exact h.elim
  | scripted s => exact h.elim

theorem list_ok (h : v.IsLocal) (t : FileTree) : (v.list t).2 = v.keep t := by
  obtain ⟨bucket, storage⟩ := v
  cases storage with
  | memory m => rfl
  | directory d => rfl
  | cloud => exact h.elim
  | scripted s => exact h.elim

theorem openWriter_error {fault : Fault} (h : v.IsLocal) (ho : (v.openWriter t k).1 = .error fault) :
    (v.openWriter t k).2 = v.keep t := by
  obtain ⟨bucket, storage⟩ := v
  cases storage with
  | memory m => cases ho
  | directory d =>
    simp only [openWriter] at ho ⊢
    cases hopen : d.openWriter t (.ofKey k) with
    | ok opened =>
      rw [hopen] at ho
      cases ho
    | error fault => rfl
  | cloud => exact h.elim
  | scripted s => exact h.elim

theorem openWriter_ok {a : Aftermath} (h : v.IsLocal) (ho : v.openWriter t k = (.ok w, a)) :
    v.Evolves t a.vault a.files (fun _ => False) ∧ a.vault.Fills a.files w (.ofKey k) .empty := by
  obtain ⟨bucket, storage⟩ := v
  cases storage with
  | memory m =>
    obtain ⟨hw, rfl⟩ := Prod.mk.inj ho
    obtain rfl := Except.ok.inj hw
    refine ⟨⟨trivial, rfl, rfl, rfl, fun _ _ _ _ hq => hq⟩, ?_⟩
    exact ⟨⟨.ofKey k, []⟩, by simp, rfl, rfl⟩
  | directory d =>
    simp only [openWriter] at ho
    cases hopen : d.openWriter t (.ofKey k) with
    | error fault =>
      rw [hopen] at ho
      cases (Prod.mk.inj ho).1
    | ok opened =>
      obtain ⟨w', d', t'⟩ := opened
      rw [hopen] at ho
      obtain ⟨hw, rfl⟩ := Prod.mk.inj ho
      obtain rfl := Except.ok.inj hw
      obtain ⟨hbase, hfills, hwithin, hkeeps⟩ :=
        DirectoryStore.openWriter_ok h (StorePath.isClean_ofKey k) hopen
      have hclean : d'.base.IsClean := hbase ▸ h
      exact ⟨⟨hclean, rfl, congrArg some hbase, hwithin, fun q content hq _ => hkeeps q content hq⟩,
        hfills⟩
  | cloud => exact h.elim
  | scripted s => exact h.elim

theorem write_ok (hlocal : v.IsLocal) (h : v.Fills t w p bytes) (chunk : ByteArray) :
    (v.write t w chunk).1 = .accepted ∧
      v.Evolves t (v.write t w chunk).2.vault (v.write t w chunk).2.files (fun _ => False) ∧
      (v.write t w chunk).2.vault.Fills (v.write t w chunk).2.files w p (bytes ++ chunk) := by
  obtain ⟨bucket, storage⟩ := v
  cases storage with
  | memory m =>
    obtain ⟨b, hlookup, rfl, rfl⟩ := h
    refine ⟨rfl, ⟨trivial, rfl, rfl, rfl, fun _ _ _ _ hq => hq⟩, ?_⟩
    exact ⟨_, MemoryStore.lookup_write hlookup, rfl, MemoryStore.bytes_write b chunk⟩
  | directory d =>
    obtain ⟨hfills, hwithin, hkeeps⟩ := DirectoryStore.write_ok hlocal h chunk
    exact ⟨rfl, ⟨hlocal, rfl, rfl, hwithin, fun q content hq _ => hkeeps q content hq⟩, hfills⟩
  | cloud => exact h.elim
  | scripted s => exact h.elim

theorem abort_ok (hlocal : v.IsLocal) (h : v.Fills t w p bytes) :
    v.Evolves t (v.abort t w).2.vault (v.abort t w).2.files (fun _ => False) := by
  obtain ⟨bucket, storage⟩ := v
  cases storage with
  | memory m => exact ⟨trivial, rfl, rfl, rfl, fun _ _ _ _ hq => hq⟩
  | directory d =>
    obtain ⟨hbase, hwithin, hkeeps⟩ := DirectoryStore.abort_ok hlocal h
    have hclean : (d.abort t w).1.base.IsClean := hbase ▸ hlocal
    exact ⟨hclean, rfl, congrArg some hbase, hwithin, fun q content hq _ => hkeeps q content hq⟩
  | cloud => exact h.elim
  | scripted s => exact h.elim

/-- Finalizing a writer changes the blob at its path and no other; when it succeeds the blob is all
that the writer has taken in. -/
theorem finalize_ok (hlocal : v.IsLocal) (hp : Location.IsClean p.segments)
    (h : v.Fills t w p bytes) (staging : Location) :
    v.Evolves t (v.finalize t staging w).2.vault (v.finalize t staging w).2.files (· = p) ∧
      ((v.finalize t staging w).1 = .ok () →
        (v.finalize t staging w).2.vault.Stores (v.finalize t staging w).2.files p bytes) := by
  obtain ⟨bucket, storage⟩ := v
  cases storage with
  | memory m =>
    obtain ⟨b, hlookup, rfl, rfl⟩ := h
    have hfinal := MemoryStore.finalize_eq hlookup
    refine ⟨⟨trivial, rfl, rfl, rfl, fun q content _ hq hstored => ?_⟩, fun _ => ?_⟩
    · change (m.finalize w).get? q = some content
      rw [hfinal, MemoryStore.get?_put_of_ne _ _ hq, MemoryStore.get?_abort]
      exact hstored
    · change (m.finalize w).get? b.path = some b.bytes
      rw [hfinal, MemoryStore.get?_put_self]
  | directory d =>
    have hstep : Vault.finalize ⟨bucket, .directory d⟩ t staging w =
        ((d.finalize t w).1.mapError .blob,
          keep ⟨bucket, .directory (d.finalize t w).2.1⟩ (d.finalize t w).2.2) := rfl
    rw [hstep]
    generalize hend : d.finalize t w = ended
    obtain ⟨r, d', t'⟩ := ended
    obtain ⟨hbase, hwithin, hpublished, hkeeps⟩ := DirectoryStore.finalize_ok hlocal hp h hend
    have hclean : d'.base.IsClean := hbase ▸ hlocal
    refine ⟨⟨hclean, rfl, congrArg some hbase, hwithin, hkeeps⟩, fun hr => hpublished ?_⟩
    cases r with
    | ok => rfl
    | error fault => cases hr
  | cloud => exact h.elim
  | scripted s => exact h.elim

end Vault
end DumpVault
