import DumpVault.Proofs.Along
import DumpVault.Proofs.Applying
import DumpVault.Proofs.Pieces

/-!
# What a utility is handed

A utility takes in the chunks of an archive in their order, of the last one perhaps a part only. So
what it has been handed is at every moment a first part of the archive.
-/
namespace DumpVault
open Prog

/-- What the utility's input has taken in. Of a chunk that was not accepted, a part may have gone
in. -/
def Takes : Effects ByteArray
  | held, .offer chunk, .accepted, held' => held' = held ++ chunk
  | held, .offer chunk, _, held' => ∃ part rest, chunk = part ++ rest ∧ held' = held ++ part
  | held, _, _, held' => held' = held

def Call.isOffer : Call → Bool
  | .offer _ => true
  | _ => false

section Takes
variable {held held' : ByteArray} {steps before after : List Step} {chunks : List ByteArray}

theorem takes_of_not_offer {c : Call} {r : Reply c} (hc : c.isOffer = false) :
    Takes held c r held' ↔ held' = held := by
  cases c with
  | offer => cases hc
  | _ => exact Iff.rfl

theorem exists_takes (held : ByteArray) (c : Call) (r : Reply c) : ∃ held', Takes held c r held' := by
  cases hc : c.isOffer with
  | false => exact ⟨held, (takes_of_not_offer hc).mpr rfl⟩
  | true =>
    cases c with
    | offer chunk =>
      cases r with
      | accepted => exact ⟨held ++ chunk, rfl⟩
      | failed | interrupted => exact ⟨held ++ chunk, chunk, .empty, by simp, rfl⟩
    | _ => cases hc

theorem exists_along_takes (held : ByteArray) (steps : List Step) :
    ∃ held', Along Takes held steps held' := by
  induction steps generalizing held with
  | nil => exact ⟨held, .nil held⟩
  | cons step steps ih =>
    obtain ⟨next, hnext⟩ := exists_takes held step.call step.reply
    obtain ⟨held', hrest⟩ := ih next
    exact ⟨held', .cons hnext hrest⟩

theorem takes_grows {c : Call} {r : Reply c} (h : Takes held c r held') :
    ∃ more, held' = held ++ more := by
  cases hc : c.isOffer with
  | false => exact ⟨.empty, by simpa using (takes_of_not_offer hc).mp h⟩
  | true =>
    cases c with
    | offer chunk =>
      cases r with
      | accepted => exact ⟨chunk, h⟩
      | failed | interrupted =>
        obtain ⟨part, _, _, h⟩ := h
        exact ⟨part, h⟩
    | _ => cases hc

theorem along_takes_grows (h : Along Takes held steps held') : ∃ more, held' = held ++ more := by
  refine h.keeps (R := fun held held' => ∃ more, held' = held ++ more)
    (fun held => ⟨.empty, by simp⟩) ?_ fun _ _ _ _ => takes_grows
  rintro _ _ _ ⟨more, rfl⟩ ⟨last, rfl⟩
  exact ⟨more ++ last, ByteArray.append_assoc⟩

theorem along_takes_quiet (hquiet : ∀ s ∈ steps, s.call.isOffer = false)
    (h : Along Takes held steps held') : held' = held := by
  refine h.keeps (R := fun held held' => held' = held) (fun _ => rfl) (fun h h' => h'.trans h) ?_
  exact fun s hs _ _ => (takes_of_not_offer (hquiet s hs)).mp

theorem along_offered (h : Along Takes held (offered chunks) held') :
    held' = held ++ joined chunks := by
  induction chunks generalizing held with
  | nil => simpa [offered] using h
  | cons chunk chunks ih =>
    obtain ⟨_, rfl, hoffer⟩ := along_cons.mp h
    obtain ⟨_, rfl, hrest⟩ := along_cons.mp hoffer
    rw [ih hrest, joined_cons, ByteArray.append_assoc]

/-- A feed hands over chunks in their order, of the last one perhaps a part. -/
theorem Fed.handed {ending : Ending} {total : Nat} {fed : FeedEnd}
    (hfed : Fed ending total chunks steps fed) (h : Along Takes held steps held') :
    ∃ rest, held' ++ rest = held ++ joined chunks := by
  have hquiet : ∀ {done rest : List ByteArray} {more : List Step}, chunks = done ++ rest →
      (∀ s ∈ more, s.call.isOffer = false) → Along Takes held (offered done ++ more) held' →
      ∃ rest, held' ++ rest = held ++ joined chunks := by
    rintro done rest more rfl hmore h
    obtain ⟨_, hdone, hlast⟩ := along_append.mp h
    obtain rfl := along_takes_quiet hmore hlast
    rw [along_offered hdone, joined_append, ← ByteArray.append_assoc]
    exact ⟨joined rest, rfl⟩
  have hpartly : ∀ {done rest : List ByteArray} {chunk : ByteArray} {taken : Taken},
      chunks = done ++ chunk :: rest → taken ≠ .accepted →
      Along Takes held (offered done ++ [⟨.pause, false⟩, ⟨.offer chunk, taken⟩]) held' →
      ∃ rest, held' ++ rest = held ++ joined chunks := by
    rintro done rest chunk taken rfl htaken h
    obtain ⟨_, hdone, hlast⟩ := along_append.mp h
    obtain ⟨before, rfl, hoffering⟩ := along_cons.mp hlast
    obtain ⟨_, hoffer, hend⟩ := along_cons.mp hoffering
    obtain rfl := along_nil.mp hend
    obtain ⟨part, left, rfl, rfl⟩ :
        ∃ part left, chunk = part ++ left ∧ held' = before ++ part := by
      cases taken with
      | accepted => exact absurd rfl htaken
      | failed | interrupted => exact hoffer
    refine ⟨left ++ joined rest, ?_⟩
    simp only [along_offered hdone, joined_append, joined_cons, ByteArray.append_assoc]
  cases hfed with
  | whole | readFailed | stalled =>
    exact hquiet (List.append_nil chunks).symm (by simp [Call.isOffer]) h
  | cancelled done rest cut => exact hquiet cut (by simp [Call.isOffer]) h
  | refused done rest chunk fault cut => exact hpartly cut (by simp) h
  | unfinished done rest chunk cut => exact hpartly cut (by simp) h

end Takes

namespace Restore
variable {u : Utility} {archive : Source} {steps : List Step} {r : Except Fault Unit}

theorem Feeding.handed {held held' : ByteArray} (h : Feeding u archive steps r)
    (halong : Along Takes held steps held') : ∃ rest, held' ++ rest = held ++ archive.bytes := by
  have hfed : ∀ {feeding more : List Step} {fed : FeedEnd},
      Fed archive.ending 0 (archive.reads feedLimit) feeding fed →
      (∀ s ∈ more, s.call.isOffer = false) → Along Takes held (feeding ++ more) held' →
      ∃ rest, held' ++ rest = held ++ archive.bytes := by
    intro feeding more fed hfed hmore halong
    obtain ⟨_, hfeeding, hlast⟩ := along_append.mp halong
    obtain rfl := along_takes_quiet hmore hlast
    rw [← joined_reads (by decide : 0 < feedLimit) archive]
    exact hfed.handed hfeeding
  have hkilling : ∀ {killing : List Step}, Utility.PutDown killing →
      ∀ s ∈ killing, s.call.isOffer = false := by
    intro killing hkilled
    cases hkilled <;> simp [Step.line, Call.isOffer]
  cases h with
  | cutInFeed feed killed => exact hfed feed (hkilling killed) halong
  | cutInWait closed feed ended killed =>
    refine hfed feed (fun s hs => ?_) halong
    rcases List.mem_cons.mp hs with rfl | hs
    · rfl
    · rcases List.mem_cons.mp hs with rfl | hs
      · rfl
      · exact hkilling killed s hs
  | settled closed waited feed ended gone =>
    refine hfed feed (fun s hs => ?_) halong
    simp only [List.mem_cons, mem_logSteps] at hs
    obtain rfl | rfl | ⟨line, _, rfl⟩ := hs <;> rfl

/-- At every moment the utility has been handed a first part of the archive. -/
theorem Course.handed {before after : List Step} {held : ByteArray}
    (h : Course u archive (before ++ after) r) (halong : Along Takes .empty before held) :
    ∃ rest, held ++ rest = archive.bytes := by
  -- whatever follows only adds to what has been handed over
  obtain ⟨held', hafter⟩ := exists_along_takes held after
  obtain ⟨more, rfl⟩ := along_takes_grows hafter
  suffices hall : ∃ rest, held ++ more ++ rest = archive.bytes by
    obtain ⟨rest, hrest⟩ := hall
    exact ⟨more ++ rest, by rw [← ByteArray.append_assoc, hrest]⟩
  have hwhole := along_append.mpr ⟨held, halong, hafter⟩
  have hquiet : (∀ s ∈ before ++ after, s.call.isOffer = false) →
      ∃ rest, held ++ more ++ rest = archive.bytes := fun hquiet =>
    ⟨archive.bytes, by rw [along_takes_quiet hquiet hwhole, ByteArray.empty_append]⟩
  generalize before ++ after = steps at h hwhole hquiet
  cases h with
  | refused | unstarted => exact hquiet (by simp [opening, Step.line, Call.isOffer])
  | uncaptured password killed =>
    refine hquiet ?_
    cases killed <;> simp [opening, Step.line, Call.isOffer]
  | fed password feed =>
    obtain ⟨_, hopening, hfeeding⟩ := along_append.mp hwhole
    obtain rfl := along_takes_quiet (by simp [opening, Step.line, Call.isOffer]) hopening
    obtain ⟨_, rfl, hfeeding⟩ := along_cons.mp hfeeding
    simpa using feed.handed hfeeding

end Restore

end DumpVault
