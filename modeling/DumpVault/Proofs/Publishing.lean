import DumpVault.Proofs.Copying
import DumpVault.Proofs.World
import DumpVault.Run.Upload

/-!
# What an upload does to its store

A writer that an upload has opened holds the chunks accepted so far. Nothing is seen of them before
the writer is finalized; then the blob is there as a whole. No other blob changes, and since the key
has been looked up before, no blob changes at all.
-/
namespace DumpVault
open Prog

namespace World

variable {S : Setting} {w w' u : World} {p : StorePath} {wr : Writer} {k : Key}
  {bytes acc : ByteArray} {changed : StorePath → Prop}

/-- A writer of the blob at a path that has taken in `bytes`. -/
def Fills (w : World) (wr : Writer) (p : StorePath) (bytes : ByteArray) : Prop :=
  w.host.vault.Fills w.host.files wr p bytes

/-- The store is where it was, with every blob but those at the paths of `changed`. -/
structure Keeps (changed : StorePath → Prop) (w w' : World) : Prop where
  isLocal : w'.host.vault.IsLocal
  bucket : w'.host.vault.bucket = w.host.vault.bucket
  base : w'.host.vault.base? = w.host.vault.base?
  cwd : w'.host.cwd = w.host.cwd
  stored : ∀ q content, q.IsSafe → ¬ changed q → w.Stores q content → w'.Stores q content

theorem Keeps.refl (h : w.host.vault.IsLocal) : Keeps changed w w :=
  ⟨h, rfl, rfl, rfl, fun _ _ _ _ hq => hq⟩

theorem Keeps.trans (h : Keeps changed w w') (h' : Keeps changed w' u) : Keeps changed w u := by
  refine ⟨h'.isLocal, h'.bucket.trans h.bucket, h'.base.trans h.base, h'.cwd.trans h.cwd, ?_⟩
  intro q content hq hne hstored
  exact h'.stored q content hq hne (h.stored q content hq hne hstored)

theorem Keeps.mono {changed' : StorePath → Prop} (h : Keeps changed w w')
    (hle : ∀ q content, w.Stores q content → changed q → changed' q) : Keeps changed' w w' := by
  refine ⟨h.isLocal, h.bucket, h.base, h.cwd, fun q content hq hne hstored => ?_⟩
  exact h.stored q content hq (fun hc => hne (hle q content hstored hc)) hstored

theorem Keeps.weaken (h : Keeps (fun _ => False) w w') : Keeps changed w w' :=
  h.mono fun _ _ _ hfalse => hfalse.elim

theorem Steady.keeps (hlocal : w.host.vault.IsLocal) (h : Steady w w') : Keeps changed w w' := by
  refine ⟨h.vault ▸ hlocal, by rw [h.vault], by rw [h.vault], h.cwd, ?_⟩
  intro q content hq _ hstored
  rw [Stores, h.vault]
  exact hstored.congr hlocal hq h.ground

theorem Keeps.guarded (h : Keeps changed w w') (hg : Guarded S w.host.vault) :
    Guarded S w'.host.vault := by
  have hterritory : ∀ l, w'.host.vault.Territory l ↔ w.host.vault.Territory l := by
    intro l
    rw [Vault.Territory, Vault.Territory, h.base]
  exact ⟨h.isLocal, fun l hl => hg.kept l ((hterritory l).mp hl),
    fun l hl hl' => hg.apart l hl ((hterritory l).mp hl')⟩

theorem keeps_of_evolves {a : Aftermath}
    (h : w.host.vault.Evolves w.host.files a.vault a.files changed)
    (hhost : w'.host = w.host.settle a) : Keeps changed w w' := by
  refine ⟨?_, ?_, ?_, ?_, fun q content hq hne hstored => ?_⟩
  · rw [hhost]
    exact h.isLocal
  · rw [hhost]
    exact h.bucket
  · rw [hhost]
    exact h.base
  · rw [hhost]
    rfl
  · rw [Stores, hhost]
    exact h.keeps q content hq hne hstored

theorem openWriter_fills (hlocal : w.host.vault.IsLocal)
    (h : w.Answers S (.openWriter k) (.ok wr) w') :
    Keeps (fun _ => False) w w' ∧ w'.pipes = w.pipes ∧ w'.Fills wr (.ofKey k) .empty := by
  rcases h with ⟨hreply, rfl⟩ | ⟨⟨_, hfault⟩, _⟩
  · have hopen : w.host.vault.openWriter w.host.files k =
        (.ok wr, (w.host.vault.openWriter w.host.files k).2) := Prod.ext hreply.symm rfl
    obtain ⟨hevolves, hfills⟩ := Vault.openWriter_ok hlocal hopen
    exact ⟨keeps_of_evolves hevolves rfl, rfl, hfills⟩
  · cases hfault

theorem openWriter_error {fault : Fault} (hlocal : w.host.vault.IsLocal)
    (h : w.Answers S (.openWriter k) (.error fault) w') : w' = w := by
  rcases h with ⟨hreply, rfl⟩ | ⟨_, rfl⟩
  · refine after_eq (r := .error fault) ?_
    have herror : (w.host.vault.openWriter w.host.files k).1 = .error fault := hreply.symm
    simp only [Host.answer, Vault.openWriter_error hlocal herror, herror]
  · rfl

theorem after_write (hlocal : w.host.vault.IsLocal) (h : w.Fills wr p acc) (chunk : ByteArray) :
    Keeps (fun _ => False) w (w.after (.write wr chunk)) ∧
      (w.after (.write wr chunk)).Fills wr p (acc ++ chunk) := by
  obtain ⟨_, hevolves, hfills⟩ := Vault.write_ok hlocal h chunk
  exact ⟨keeps_of_evolves hevolves rfl, hfills⟩

theorem after_abort (hlocal : w.host.vault.IsLocal) (h : w.Fills wr p acc) :
    Keeps (fun _ => False) w (w.after (.abort wr)) :=
  keeps_of_evolves (Vault.abort_ok hlocal h) rfl

theorem after_finalize (hlocal : w.host.vault.IsLocal) (hp : Location.IsClean p.segments)
    (h : w.Fills wr p bytes) : Keeps (· = p) w (w.after (.finalize wr)) ∧
      (w.reply (.finalize wr) = .ok () → (w.after (.finalize wr)).Stores p bytes) := by
  obtain ⟨hevolves, hpublished⟩ := Vault.finalize_ok hlocal hp h w.host.staging
  exact ⟨keeps_of_evolves hevolves rfl, hpublished⟩

end World

open World

variable {S : Setting} {w w' : World} {p : StorePath} {wr : Writer} {key : Key}
  {bytes acc : ByteArray} {bucket path target : String}

/-- Chunks are taken in one after the other; a copy that came to its end has put in all of them. -/
theorem copyChunks_fills {ending : Ending} {chunks : List ByteArray} {total : Nat} {copy : CopyEnd}
    (hlocal : w.host.vault.IsLocal) (hfills : w.Fills wr p acc)
    (h : Runs S w (copyChunks wr ending chunks total) copy w') :
    Keeps (fun _ => False) w w' ∧ w'.pipes = w.pipes ∧ (∃ bytes, w'.Fills wr p bytes) ∧
      ∀ n, copy = .copied n → ending = .complete ∧ w'.Fills wr p (acc ++ joined chunks) := by
  induction chunks generalizing w acc total with
  | nil =>
    obtain ⟨cut, _, rfl, h⟩ := runs_ask_bind.mp h
    cases cut with
    | true =>
      obtain ⟨rfl, rfl⟩ := runs_pure.mp h
      exact ⟨.refl hlocal, rfl, ⟨acc, hfills⟩, fun _ h => (by cases h)⟩
    | false =>
      cases ending with
      | complete =>
        obtain ⟨rfl, rfl⟩ := runs_pure.mp h
        exact ⟨.refl hlocal, rfl, ⟨acc, hfills⟩, fun _ _ => ⟨rfl, by simpa using hfills⟩⟩
      | failed fault =>
        obtain ⟨rfl, rfl⟩ := runs_pure.mp h
        exact ⟨.refl hlocal, rfl, ⟨acc, hfills⟩, fun _ h => (by cases h)⟩
      | stalled =>
        obtain ⟨_, _, rfl, hend⟩ := runs_ask_bind.mp h
        obtain ⟨rfl, rfl⟩ := runs_pure.mp hend
        exact ⟨.refl hlocal, rfl, ⟨acc, hfills⟩, fun _ h => (by cases h)⟩
  | cons chunk chunks ih =>
    obtain ⟨cut, _, rfl, h⟩ := runs_ask_bind.mp h
    cases cut with
    | true =>
      obtain ⟨rfl, rfl⟩ := runs_pure.mp h
      exact ⟨.refl hlocal, rfl, ⟨acc, hfills⟩, fun _ h => (by cases h)⟩
    | false =>
      obtain ⟨taken, w₁, hwrite, hrest⟩ := runs_ask_bind.mp h
      obtain ⟨hkeeps, hmore⟩ := after_write hlocal hfills chunk
      cases taken with
      | accepted =>
        obtain ⟨_, rfl⟩ := hwrite
        obtain ⟨hkeeps', hpipes, hsome, hall⟩ := ih hkeeps.isLocal hmore hrest
        refine ⟨hkeeps.trans hkeeps', hpipes, hsome, fun n hn => ?_⟩
        rw [joined_cons, ← ByteArray.append_assoc]
        exact hall n hn
      | failed | interrupted =>
        obtain ⟨rfl, rfl⟩ := runs_pure.mp hrest
        rcases hwrite with rfl | rfl
        · exact ⟨.refl hlocal, rfl, ⟨acc, hfills⟩, fun _ h => (by cases h)⟩
        · exact ⟨hkeeps, rfl, ⟨_, hmore⟩, fun _ h => (by cases h)⟩

theorem finalizeWriter_publishes {r : Except Fault Unit} (hlocal : w.host.vault.IsLocal)
    (hp : Location.IsClean p.segments) (hfills : w.Fills wr p bytes)
    (h : Runs S w (finalizeWriter wr target) r w') :
    Keeps (· = p) w w' ∧ w'.pipes = w.pipes ∧ (r = .ok () → w'.Stores p bytes) := by
  obtain ⟨reply, w₁, hreply, hr⟩ := runs_ask_bind.mp h
  obtain ⟨hkeeps, hpublished⟩ := after_finalize hlocal hp hfills
  cases reply with
  | ok =>
    obtain ⟨rfl, rfl⟩ := runs_pure.mp hr
    obtain ⟨hserved, rfl⟩ := hreply
    exact ⟨hkeeps, rfl, fun _ => hpublished hserved.symm⟩
  | error fault =>
    obtain ⟨rfl, rfl⟩ := runs_pure.mp hr
    rcases hreply with rfl | rfl
    · exact ⟨.refl hlocal, rfl, fun h => (by cases h)⟩
    · exact ⟨hkeeps, rfl, fun h => (by cases h)⟩

theorem abortWriter_discards {r : Except Fault Unit} (hlocal : w.host.vault.IsLocal)
    (hfills : w.Fills wr p bytes) (h : Runs S w (abortWriter wr target) r w') :
    Keeps (fun _ => False) w w' ∧ w'.pipes = w.pipes := by
  obtain ⟨reply, w₁, hreply, hr⟩ := runs_ask_bind.mp h
  have hkeeps := after_abort hlocal hfills
  cases reply with
  | ok =>
    obtain ⟨rfl, rfl⟩ := runs_pure.mp hr
    obtain ⟨_, rfl⟩ := hreply
    exact ⟨hkeeps, rfl⟩
  | error fault =>
    obtain ⟨rfl, rfl⟩ := runs_pure.mp hr
    rcases hreply with rfl | rfl
    · exact ⟨.refl hlocal, rfl⟩
    · exact ⟨hkeeps, rfl⟩

/-- The end of an upload publishes what the writer holds, and is free of faults only if all was
copied and the blob is there. -/
theorem endUpload_publishes {copy : CopyEnd} {faults : FirstFault} (hlocal : w.host.vault.IsLocal)
    (hp : Location.IsClean p.segments) (hfills : w.Fills wr p bytes)
    (h : Runs S w (endUpload wr path target key copy) faults w') :
    Keeps (· = p) w w' ∧ w'.pipes = w.pipes ∧
      (faults.first = none → (∃ n, copy = .copied n) ∧ w'.Stores p bytes) := by
  cases copy with
  | copied n =>
    obtain ⟨ended, w₁, hend, hrecord⟩ := runs_bind.mp (runs_log_bind.mp h)
    obtain ⟨rfl, rfl⟩ := runs_record.mp hrecord
    obtain ⟨hkeeps, hpipes, hpublished⟩ := finalizeWriter_publishes hlocal hp hfills hend
    refine ⟨hkeeps, hpipes, fun hnone => ⟨⟨n, rfl⟩, ?_⟩⟩
    cases ended with
    | ok => exact hpublished rfl
    | error fault => cases hnone
  | failed source =>
    obtain ⟨first, w₁, hfirst, hrest⟩ := runs_bind.mp h
    obtain ⟨rfl, rfl⟩ := runs_record.mp hfirst
    obtain ⟨ended, w₂, hend, hrecord⟩ := runs_bind.mp hrest
    obtain ⟨rfl, rfl⟩ := runs_record.mp hrecord
    obtain ⟨hkeeps, hpipes, _⟩ := finalizeWriter_publishes hlocal hp hfills hend
    exact ⟨hkeeps, hpipes, fun hnone =>
      absurd hnone (FirstFault.record_ne_none (FirstFault.record_error_ne_none _ _) _)⟩
  | interrupted =>
    obtain ⟨first, w₁, hfirst, hrest⟩ := runs_bind.mp h
    obtain ⟨rfl, rfl⟩ := runs_record.mp hfirst
    obtain ⟨ended, w₂, hend, hrecord⟩ := runs_bind.mp hrest
    obtain ⟨rfl, rfl⟩ := runs_record.mp hrecord
    obtain ⟨hkeeps, hpipes⟩ := abortWriter_discards hlocal hfills hend
    exact ⟨hkeeps.weaken, hpipes, fun hnone =>
      absurd hnone (FirstFault.record_ne_none (FirstFault.record_error_ne_none _ _) _)⟩

theorem uploadFrom_publishes {file : Source} {r : Except Fault Key} (hlocal : w.host.vault.IsLocal)
    (h : Runs S w (uploadFrom bucket path key file) r w') :
    Keeps (· = .ofKey key) w w' ∧ w'.pipes = w.pipes ∧ ∀ k, r = .ok k →
      k = key ∧ file.ending = .complete ∧ w'.Stores (.ofKey key) file.bytes := by
  obtain ⟨opened, w₁, hopen, h₁⟩ := runs_ask_bind.mp (runs_log_bind.mp h)
  cases opened with
  | error fault =>
    obtain ⟨rfl, rfl⟩ := runs_pure.mp h₁
    obtain rfl := openWriter_error hlocal hopen
    exact ⟨.refl hlocal, rfl, fun _ h => (by cases h)⟩
  | ok wr =>
    obtain ⟨hkeeps₁, hpipes₁, hfills₁⟩ := openWriter_fills hlocal hopen
    obtain ⟨copy, w₂, hcopy, h₂⟩ := runs_bind.mp h₁
    rw [copyInto_eq] at hcopy
    obtain ⟨hkeeps₂, hpipes₂, ⟨bytes, hfills₂⟩, hall⟩ :=
      copyChunks_fills hkeeps₁.isLocal hfills₁ hcopy
    have hkeeps : Keeps (· = StorePath.ofKey key) w w₂ := (hkeeps₁.trans hkeeps₂).weaken
    obtain ⟨faults, w₃, hend, h₃⟩ := runs_bind.mp h₂
    have hp := StorePath.isClean_ofKey key
    obtain ⟨hkeeps₃, hpipes₃, _⟩ := endUpload_publishes hkeeps.isLocal hp hfills₂ hend
    have hpipes : w₃.pipes = w.pipes := hpipes₃.trans (hpipes₂.trans hpipes₁)
    obtain ⟨first⟩ := faults
    cases first with
    | some fault =>
      obtain ⟨rfl, rfl⟩ := runs_pure.mp h₃
      exact ⟨hkeeps.trans hkeeps₃, hpipes, fun _ h => (by cases h)⟩
    | none =>
      have hlast := runs_log_bind.mp h₃
      obtain ⟨rfl, rfl⟩ := runs_pure.mp hlast
      refine ⟨hkeeps.trans hkeeps₃, hpipes, fun k hk => ?_⟩
      -- without a fault the copy came to its end, so the writer held all chunks
      obtain ⟨_, _, hdone⟩ := endUpload_publishes hkeeps.isLocal hp hfills₂ hend
      obtain ⟨⟨n, hn⟩, _⟩ := hdone rfl
      obtain ⟨hcomplete, hfilled⟩ := hall n hn
      obtain ⟨_, _, hstored⟩ := endUpload_publishes hkeeps.isLocal hp hfilled hend
      have hbytes : ByteArray.empty ++ joined (file.reads copyLimit) = file.bytes := by
        rw [ByteArray.empty_append, joined_reads (by decide)]
      exact ⟨(Except.ok.inj hk).symm, hcomplete, hbytes ▸ (hstored rfl).2⟩

/-- An upload keeps every blob that was there. If it succeeds, what the utility has written is the
blob of the key that it returns. -/
theorem upload_publishes {r : Except Fault Key} (hlocal : w.host.vault.IsLocal)
    (hdump : ∀ content, w.host.content? path = some content → content = w.pipes.output)
    (h : Runs S w (upload bucket path) r w') :
    Keeps (fun _ => False) w w' ∧ w'.pipes = w.pipes ∧
      ∀ k, r = .ok k → w'.Stores (.ofKey k) w'.pipes.output := by
  obtain ⟨now, w₁, hnow, h₁⟩ := runs_ask_bind.mp h
  obtain rfl : w₁ = w := hnow
  obtain ⟨found, w₂, hfound, h₂⟩ := runs_ask_bind.mp h₁
  obtain rfl : w₂ = w₁ := by
    rcases hfound with ⟨_, rfl⟩ | ⟨_, rfl⟩
    · exact after_exists hlocal _
    · rfl
  match found with
  | .error fault =>
    obtain ⟨rfl, rfl⟩ := runs_pure.mp h₂
    exact ⟨.refl hlocal, rfl, fun _ h => (by cases h)⟩
  | .ok true =>
    obtain ⟨rfl, rfl⟩ := runs_pure.mp h₂
    exact ⟨.refl hlocal, rfl, fun _ h => (by cases h)⟩
  | .ok false =>
    have hvacant : ∀ content, ¬ w₂.Stores (.ofKey (.mint now)) content := by
      intro content hstored
      rcases hfound with ⟨hreply, _⟩ | ⟨⟨_, hfault⟩, _⟩
      · have htrue := (Vault.contains_ok hlocal w₂.host.files (.mint now)).2.mpr ⟨content, hstored⟩
        have hfalse : (w₂.host.vault.contains w₂.host.files (.mint now)).1 = .ok false := hreply.symm
        rw [htrue] at hfalse
        cases hfalse
      · cases hfault
    obtain ⟨opened, w₃, ⟨rfl, hopened⟩, h₃⟩ := runs_ask_bind.mp h₂
    cases opened with
    | error source =>
      obtain ⟨rfl, rfl⟩ := runs_pure.mp h₃
      exact ⟨.refl hlocal, rfl, fun _ h => (by cases h)⟩
    | ok file =>
      obtain ⟨hkeeps, hpipes, hstored⟩ := uploadFrom_publishes hlocal h₃
      refine ⟨hkeeps.mono ?_, hpipes, fun k hk => ?_⟩
      · rintro q content hq rfl
        exact hvacant content hq
      · obtain ⟨rfl, hcomplete, hblob⟩ := hstored k hk
        rw [hpipes, ← hdump _ (hopened file rfl hcomplete)]
        exact hblob

end DumpVault
