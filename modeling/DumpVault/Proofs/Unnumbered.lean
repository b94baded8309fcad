import DumpVault.Proofs.Lockstep
import DumpVault.Proofs.Stock

/-!
# Uploads without the numbers of writers

A store numbers its writers as they are opened, by whomever. An upload uses the number that it gets
without looking at it, so told without numbers its steps are the same whatever the number.
-/
namespace DumpVault
open Prog

def Prog.Step.unnumbered : Step → Step
  | ⟨.openWriter k, .ok _⟩ => ⟨.openWriter k, .ok ⟨0⟩⟩
  | ⟨.write _ chunk, taken⟩ => ⟨.write ⟨0⟩ chunk, taken⟩
  | ⟨.finalize _, r⟩ => ⟨.finalize ⟨0⟩, r⟩
  | ⟨.abort _, r⟩ => ⟨.abort ⟨0⟩, r⟩
  | s => s

/-- The steps of an upload, told without the number of its writer. -/
def unnumbering : Disguise := ⟨Step.unnumbered, Call.isUpload, fun _ => True⟩

section Unnumbered
variable {steps : List Step}

theorem filterMap_unnumbered {α : Type} {f : Step → Option α} (hf : ∀ s, f s.unnumbered = f s) :
    (steps.map Step.unnumbered).filterMap f = steps.filterMap f := by
  rw [List.filterMap_map]
  congr 1
  exact funext hf

theorem readings_unnumbered : readings (steps.map Step.unnumbered) = readings steps := by
  refine filterMap_unnumbered fun s => ?_
  obtain ⟨c, r⟩ := s
  cases c with
  | openWriter => cases r <;> rfl
  | _ => rfl

theorem accepted_unnumbered : accepted (steps.map Step.unnumbered) = accepted steps := by
  refine filterMap_unnumbered fun s => ?_
  obtain ⟨c, r⟩ := s
  cases c with
  | openWriter => cases r <;> rfl
  | write => cases r <;> rfl
  | _ => rfl

theorem finalize_unnumbered_iff :
    ⟨.finalize ⟨0⟩, .ok ()⟩ ∈ steps.map Step.unnumbered ↔ ∃ w, ⟨.finalize w, .ok ()⟩ ∈ steps := by
  rw [List.mem_map]
  constructor
  · rintro ⟨⟨c, r⟩, hs, heq⟩
    cases c with
    | finalize w =>
      cases heq
      exact ⟨w, hs⟩
    | openWriter => cases r <;> cases heq
    | _ => cases heq
  · rintro ⟨w, hs⟩
    exact ⟨_, hs, rfl⟩

end Unnumbered

section Alike
variable (w : Writer) (path target : String) (key : Key)

theorem lockstep_copyChunks (ending : Ending) (chunks : List ByteArray) (total : Nat) :
    Lockstep unnumbering (copyChunks w ending chunks total)
      (copyChunks ⟨0⟩ ending chunks total) := by
  have hpause : unnumbering.Plain .pause := ⟨trivial, fun _ => rfl⟩
  induction chunks generalizing total with
  | nil =>
    refine .plain_bind hpause fun cut _ => ?_
    cases cut with
    | true => exact .pure _
    | false =>
      cases ending with
      | complete | failed => exact .pure _
      | stalled => exact .plain_bind ⟨trivial, fun _ => rfl⟩ fun _ _ => .pure _
  | cons chunk chunks ih =>
    refine .plain_bind hpause fun cut _ => ?_
    cases cut with
    | true => exact .pure _
    | false =>
      refine .ask_bind trivial (fun _ => rfl) fun taken taken' _ hput => ?_
      obtain rfl : taken = taken' := by cases hput; rfl
      cases taken with
      | accepted => exact ih _
      | failed | interrupted => exact .pure _

theorem lockstep_finalizeWriter :
    Lockstep unnumbering (finalizeWriter w target) (finalizeWriter ⟨0⟩ target) := by
  refine .ask_bind trivial (fun _ => rfl) fun r r' _ hput => ?_
  obtain rfl : r = r' := by cases hput; rfl
  cases r <;> exact .pure _

theorem lockstep_abortWriter :
    Lockstep unnumbering (abortWriter w target) (abortWriter ⟨0⟩ target) := by
  refine .ask_bind trivial (fun _ => rfl) fun r r' _ hput => ?_
  obtain rfl : r = r' := by cases hput; rfl
  cases r <;> exact .pure _

theorem lockstep_endUpload (copy : CopyEnd) : Lockstep unnumbering
    (endUpload w path target key copy) (endUpload ⟨0⟩ path target key copy) := by
  have hrecord : ∀ a r, Lockstep unnumbering (record a r) (record a r) :=
    fun a r => .refl (only_record fun _ => ⟨trivial, fun _ => rfl⟩)
  cases copy with
  | copied n =>
    exact .plain_bind ⟨trivial, fun _ => rfl⟩ fun _ _ =>
      .bind (lockstep_finalizeWriter w target) fun _ => hrecord _ _
  | failed fault =>
    exact .bind (hrecord _ _) fun _ =>
      .bind (lockstep_finalizeWriter w target) fun _ => hrecord _ _
  | interrupted =>
    exact .bind (hrecord _ _) fun _ => .bind (lockstep_abortWriter w target) fun _ => hrecord _ _

end Alike

theorem lockstep_uploadFrom (bucket path : String) (key : Key) (file : Source) :
    Lockstep unnumbering (uploadFrom bucket path key file) (uploadFrom bucket path key file) := by
  refine .plain_bind ⟨trivial, fun _ => rfl⟩ fun _ _ => ?_
  refine .ask_bind trivial (fun r => by cases r <;> rfl) fun r r' _ hput => ?_
  cases r with
  | error fault =>
    obtain rfl : .error fault = r' := by cases hput; rfl
    exact .pure _
  | ok w =>
    obtain rfl : .ok ⟨0⟩ = r' := by cases hput; rfl
    have hcopy : Lockstep unnumbering (copyInto w file) (copyInto ⟨0⟩ file) := by
      rw [copyInto_eq, copyInto_eq]
      exact lockstep_copyChunks w _ _ _
    refine .bind hcopy fun copy =>
      .bind (lockstep_endUpload w path _ key copy) fun faults => ?_
    cases faults.finish key with
    | error fault => exact .pure _
    | ok key => exact .plain_bind ⟨trivial, fun _ => rfl⟩ fun _ _ => .pure _

/-- An upload goes on alike whatever the number of its writer. -/
theorem lockstep_upload (bucket path : String) :
    Lockstep unnumbering (upload bucket path) (upload bucket path) := by
  refine .plain_bind ⟨trivial, fun _ => rfl⟩ fun now _ => ?_
  refine .plain_bind ⟨trivial, fun _ => rfl⟩ fun found _ => ?_
  match found with
  | .error fault => exact .pure _
  | .ok true => exact .pure _
  | .ok false =>
    refine .plain_bind ⟨trivial, fun _ => rfl⟩ fun opened _ => ?_
    cases opened with
    | error source => exact .pure _
    | ok file => exact lockstep_uploadFrom bucket path _ file

end DumpVault
