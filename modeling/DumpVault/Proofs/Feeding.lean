import DumpVault.Proofs.Passages
import DumpVault.Proofs.Stages
import DumpVault.Proofs.Staging

/-!
# What a restore puts into its utility

The utility is given the pieces of the archive one after the other. A restore that succeeds has read
the archive to its end, and the utility has seen all of it and then the end of its input.
-/
namespace DumpVault
open Prog World

variable {S : Setting} {w w' : World} {u : Utility} {archive : Source} {k : Key}

namespace Restore

theorem only_feedChunks (ending : Ending) (chunks : List ByteArray) (total : Nat) :
    (feedChunks ending chunks total).Only isTending := by
  induction chunks generalizing total with
  | nil =>
    refine only_ask_bind trivial fun cut => ?_
    cases cut with
    | true => exact only_pure _
    | false =>
      cases ending with
      | complete => exact only_pure _
      | failed fault => exact only_pure _
      | stalled => exact only_ask_bind trivial fun _ => only_pure _
  | cons chunk chunks ih =>
    refine only_ask_bind trivial fun cut => ?_
    cases cut with
    | true => exact only_pure _
    | false =>
      refine only_ask_bind trivial fun taken => ?_
      cases taken with
      | accepted => exact ih _
      | failed fault => exact only_pure _
      | interrupted => exact only_pure _

theorem only_closing (fed : FeedEnd) : (closing fed).Only isTending := by
  cases fed with
  | interrupted => exact only_pure _
  | fed => exact only_ask_bind trivial fun r => by cases r <;> exact only_pure _
  | readFailed => exact only_ask_bind trivial fun r => by cases r <;> exact only_pure _
  | writeFailed => exact only_ask_bind trivial fun r => by cases r <;> exact only_pure _

theorem only_settle (u : Utility) (exit : Except Fault Unit) (fed : FeedEnd) :
    (settle u exit fed).Only isTending := by
  have hrecord : ∀ a r, (record a r).Only isTending := fun a r => only_record fun _ => trivial
  cases fed with
  | fed bytes =>
    exact only_ask_bind trivial fun _ => only_bind (hrecord _ _) fun _ => only_pure _
  | writeFailed fault =>
    rw [settle]
    split <;> exact only_bind (hrecord _ _) fun _ => only_bind (hrecord _ _) fun _ => only_pure _
  | readFailed fault =>
    exact only_bind (hrecord _ _) fun _ => only_bind (hrecord _ _) fun _ => only_pure _
  | interrupted => exact only_pure _

theorem only_giveUp (u : Utility) : (giveUp u).Only isTending :=
  only_bind only_putDown fun _ => only_pure _

theorem only_feed (u : Utility) (archive : Source) : (feed u archive).Only isTending := by
  rw [feed_eq]
  refine only_bind (only_feedChunks _ _ _) fun fed => only_bind (only_closing _) fun closed => ?_
  by_cases hint : closed = .interrupted
  · subst hint
    exact only_giveUp u
  · rw [awaited_eq hint]
    refine only_ask_bind trivial fun waited => ?_
    cases waited with
    | interrupted => exact only_giveUp u
    | exited status => exact only_settle _ _ _
    | failed fault => exact only_settle _ _ _

theorem only_apply (u : Utility) (archive : Source) : (apply u archive).Only isCalm := by
  refine only_ask_bind trivial fun _ => only_ask_bind trivial fun password => ?_
  cases password with
  | error fault => exact only_pure _
  | ok password =>
    refine only_bind ((only_prepare _ _ _ _).mono isCalm_of_tending) fun command => only_ask_bind trivial fun spawned => ?_
    match spawned with
    | .error fault => exact only_pure _
    | .ok true => exact (only_feed _ _).mono isCalm_of_tending
    | .ok false => exact only_bind (only_putDown.mono isCalm_of_tending) fun _ => only_pure _

theorem feedChunks_feeds {ending : Ending} {chunks : List ByteArray} {total : Nat} {fed : FeedEnd}
    (h : Runs S w (feedChunks ending chunks total) fed w') : ∀ n, fed = .fed n →
      ending = .complete ∧ w'.pipes.input = w.pipes.input ++ joined chunks := by
  induction chunks generalizing w total with
  | nil =>
    obtain ⟨cut, w₁, hcut, h⟩ := runs_ask_bind.mp h
    obtain rfl : w₁ = w := hcut
    intro n hn
    cases cut with
    | true =>
      obtain ⟨rfl, _⟩ := runs_pure.mp h
      cases hn
    | false =>
      cases ending with
      | complete =>
        obtain ⟨_, rfl⟩ := runs_pure.mp h
        exact ⟨rfl, by simp⟩
      | failed fault =>
        obtain ⟨rfl, _⟩ := runs_pure.mp h
        cases hn
      | stalled =>
        obtain ⟨_, w₂, _, hend⟩ := runs_ask_bind.mp h
        obtain ⟨rfl, _⟩ := runs_pure.mp hend
        cases hn
  | cons chunk chunks ih =>
    obtain ⟨cut, w₁, hcut, h⟩ := runs_ask_bind.mp h
    obtain rfl : w₁ = w := hcut
    intro n hn
    cases cut with
    | true =>
      obtain ⟨rfl, _⟩ := runs_pure.mp h
      cases hn
    | false =>
      obtain ⟨taken, w₂, htaken, hrest⟩ := runs_ask_bind.mp h
      cases taken with
      | accepted =>
        obtain ⟨hcomplete, hinput⟩ := ih hrest n hn
        refine ⟨hcomplete, ?_⟩
        rw [hinput, Acts.input htaken, joined_cons, ← ByteArray.append_assoc]
        rfl
      | failed fault =>
        obtain ⟨rfl, _⟩ := runs_pure.mp hrest
        cases hn
      | interrupted =>
        obtain ⟨rfl, _⟩ := runs_pure.mp hrest
        cases hn

theorem closing_ends {fed closed : FeedEnd} (h : Runs S w (closing fed) closed w') :
    ∀ n, closed = .fed n →
      fed = .fed n ∧ w'.pipes.input = w.pipes.input ∧ w'.pipes.inputEnded = true := by
  intro n hn
  cases fed with
  | interrupted =>
    obtain ⟨rfl, _⟩ := runs_pure.mp h
    cases hn
  | readFailed fault =>
    obtain ⟨r, w₁, _, h⟩ := runs_ask_bind.mp h
    cases r <;> obtain ⟨rfl, _⟩ := runs_pure.mp h <;> cases hn
  | writeFailed fault =>
    obtain ⟨r, w₁, _, h⟩ := runs_ask_bind.mp h
    cases r <;> obtain ⟨rfl, _⟩ := runs_pure.mp h <;> cases hn
  | fed bytes =>
    obtain ⟨r, w₁, hclose, h⟩ := runs_ask_bind.mp h
    cases r with
    | error fault =>
      obtain ⟨rfl, _⟩ := runs_pure.mp h
      cases hn
    | ok =>
      obtain ⟨rfl, rfl⟩ := runs_pure.mp h
      have hacts : Acts S w.endInput w' := hclose
      exact ⟨hn, hacts.input, hacts.inputEnded⟩

theorem settle_ok {exit : Except Fault Unit} {fed : FeedEnd} {r : Except Fault Unit}
    (h : Runs S w (settle u exit fed) r w') (hr : r = .ok ()) (hfed : fed ≠ .interrupted) :
    (∃ n, fed = .fed n) ∧ w' = w := by
  cases fed with
  | interrupted => exact absurd rfl hfed
  | fed n =>
    obtain ⟨faults, w₁, hfaults, hend⟩ := runs_bind.mp (runs_log_bind.mp h)
    obtain ⟨_, rfl⟩ := runs_record.mp hfaults
    exact ⟨⟨n, rfl⟩, (runs_pure.mp hend).2⟩
  | writeFailed fault =>
    rw [settle] at h
    split at h
    · obtain ⟨a, w₁, ha, h₁⟩ := runs_bind.mp h
      obtain ⟨b, w₂, hb, h₂⟩ := runs_bind.mp h₁
      obtain ⟨rfl, _⟩ := runs_record.mp hb
      exact absurd ((runs_pure.mp h₂).1.symm.trans hr)
        (FirstFault.finish_ne_ok (FirstFault.record_error_ne_none _ _) _ _)
    · obtain ⟨a, w₁, ha, h₁⟩ := runs_bind.mp h
      obtain ⟨b, w₂, hb, h₂⟩ := runs_bind.mp h₁
      obtain ⟨rfl, _⟩ := runs_record.mp ha
      obtain ⟨rfl, _⟩ := runs_record.mp hb
      exact absurd ((runs_pure.mp h₂).1.symm.trans hr)
        (FirstFault.finish_ne_ok
          (FirstFault.record_ne_none (FirstFault.record_error_ne_none _ _) _) _ _)
  | readFailed fault =>
    obtain ⟨a, w₁, ha, h₁⟩ := runs_bind.mp h
    obtain ⟨b, w₂, hb, h₂⟩ := runs_bind.mp h₁
    obtain ⟨rfl, _⟩ := runs_record.mp ha
    obtain ⟨rfl, _⟩ := runs_record.mp hb
    exact absurd ((runs_pure.mp h₂).1.symm.trans hr)
        (FirstFault.finish_ne_ok
          (FirstFault.record_ne_none (FirstFault.record_error_ne_none _ _) _) _ _)

theorem giveUp_error {r : Except Fault Unit} (h : Runs S w (giveUp u) r w') : r ≠ .ok () := by
  obtain ⟨_, w₁, _, hend⟩ := runs_bind.mp h
  rw [(runs_pure.mp hend).1]
  simp

theorem feed_ok (h : Runs S w (feed u archive) (.ok ()) w') :
    archive.ending = .complete ∧ w'.pipes.input = w.pipes.input ++ archive.bytes ∧
      w'.pipes.inputEnded = true := by
  rw [feed_eq] at h
  obtain ⟨fed, w₁, hfed, h₁⟩ := runs_bind.mp h
  obtain ⟨closed, w₂, hclosed, h₂⟩ := runs_bind.mp h₁
  have hclosing := closing_ends hclosed
  have hfeeding := feedChunks_feeds hfed
  rw [joined_reads (by decide)] at hfeeding
  by_cases hint : closed = .interrupted
  · subst hint
    exact absurd rfl (giveUp_error h₂)
  · rw [awaited_eq hint] at h₂
    obtain ⟨waited, w₃, hwait, h₃⟩ := runs_ask_bind.mp h₂
    obtain ⟨⟨n, rfl⟩, rfl⟩ : (∃ n, closed = .fed n) ∧ w' = w₃ := by
      cases waited with
      | interrupted => exact absurd rfl (giveUp_error h₃)
      | exited status => exact settle_ok h₃ rfl hint
      | failed fault => exact settle_ok h₃ rfl hint
    obtain ⟨hsame, hinput, hended⟩ := hclosing n rfl
    obtain ⟨hcomplete, hall⟩ := hfeeding n hsame
    refine ⟨hcomplete, ?_, ?_⟩
    · rw [Acts.input hwait, hinput, hall]
    · rw [Acts.inputEnded hwait, hended]

/-- A utility that an archive was replayed through with success has been given all of it. -/
theorem apply_ok (h : Runs S w (apply u archive) (.ok ()) w') :
    archive.ending = .complete ∧ w'.pipes.input = archive.bytes ∧ w'.pipes.inputEnded = true := by
  have h := runs_log_bind.mp h
  obtain ⟨password, w₁, _, h₁⟩ := runs_ask_bind.mp h
  cases password with
  | error fault =>
    have h₁ := (runs_pure.mp h₁).1
    cases h₁
  | ok password =>
    obtain ⟨command, w₂, _, h₂⟩ := runs_bind.mp h₁
    obtain ⟨spawned, w₃, hspawn, h₃⟩ := runs_ask_bind.mp h₂
    match spawned with
    | .error fault =>
      have h₃ := (runs_pure.mp h₃).1
      cases h₃
    | .ok false =>
      obtain ⟨_, w₄, _, h₄⟩ := runs_bind.mp h₃
      have h₄ := (runs_pure.mp h₄).1
      cases h₄
    | .ok true =>
      obtain ⟨hcomplete, hinput, hended⟩ := feed_ok h₃
      refine ⟨hcomplete, ?_, hended⟩
      have hempty : w₃.pipes.input = .empty := Acts.input hspawn
      rw [hinput, hempty, ByteArray.empty_append]

end Restore

namespace Restorer

theorem only_fetch (bucket : String) (k : Key) : (fetch bucket k).Only isCalm := by
  refine only_ask_bind trivial fun _ => only_ask_bind trivial fun cut => ?_
  cases cut with
  | true => exact only_pure _
  | false => exact only_ask trivial

theorem only_enterStage (stage : Stage) : (enterStage stage).Only isCalm := by
  refine only_ask_bind trivial fun cut => ?_
  cases cut <;> exact only_pure _

/-- A restore run makes no call that could change the store. -/
theorem only_run (r : Restorer) (k : Key) : (r.run k).Only isCalm := by
  refine only_bind ?_ fun result => only_ask_bind trivial fun _ => only_pure _
  refine only_ask_bind trivial fun _ => only_bind (only_enterStage _) fun entered => ?_
  cases entered with
  | error fault => exact only_pure _
  | ok =>
    refine only_bind (only_fetch _ _) fun fetched => ?_
    cases fetched with
    | error fault => exact only_pure _
    | ok archive =>
      refine only_ask_bind trivial fun _ => only_bind (only_enterStage _) fun entered => ?_
      cases entered with
      | error fault => exact only_pure _
      | ok => exact only_bind (Restore.only_apply _ _) fun _ => only_pure _

end Restorer

/-- An archive that was fetched and read to its end is the blob of its key. -/
theorem fetch_ok {bucket : String} {content : ByteArray} (hlocal : w.host.vault.IsLocal)
    (hstored : w.Stores (.ofKey k) content) (h : Runs S w (fetch bucket k) (.ok archive) w') :
    archive.ending = .complete → archive.bytes = content := by
  intro hcomplete
  have h := runs_log_bind.mp h
  obtain ⟨cut, w₁, hcut, h₁⟩ := runs_ask_bind.mp h
  obtain rfl : w₁ = w := hcut
  cases cut with
  | true =>
    have h₁ := (runs_pure.mp h₁).1
    cases h₁
  | false =>
    rcases runs_ask.mp h₁ with ⟨_, s, found, hs, hreply, hbytes⟩ | ⟨⟨_, hfault⟩, _⟩
    · obtain rfl := Except.ok.inj hs
      have hfound := ((Vault.openReader_ok hlocal w₁.host.files k).2 (.ofBytes content)).mpr
        ⟨content, rfl, hstored⟩
      have hreply : (w₁.host.vault.openReader w₁.host.files k).1 = .ok found := hreply
      rw [hfound] at hreply
      rw [hbytes hcomplete, ← Except.ok.inj hreply, Source.bytes_ofBytes]
    · cases hfault

/-- A restore run that succeeds has put the blob of its key into the utility, and then the end of the
input. -/
theorem restore_feeds {r : Restorer} {content : ByteArray} (hg : Guarded S w.host.vault)
    (hstored : w.Stores (.ofKey k) content) (h : Runs S w (r.run k) (.ok ()) w') :
    w'.pipes.input = content ∧ w'.pipes.inputEnded = true := by
  generalize hresult : (Except.ok () : Except Fault Unit) = result at h
  cases restores_of_run h with
  | cutBeforeFetch | unfetched | cutBeforeRestore => cases hresult
  | @applied archive w₁ _ applied hfetch happly =>
    cases applied with
    | error fault => cases hresult
    | ok =>
      obtain ⟨hcomplete, hinput, hended⟩ := Restore.apply_ok happly
      exact ⟨hinput.trans (fetch_ok hg.isLocal hstored hfetch hcomplete), hended⟩

end DumpVault
