import DumpVault.Proofs.World

/-!
# Runs in lockstep

Two runs may differ in what they carry along without looking at it. If one makes the other's calls in
disguise, and goes on alike whenever it hears the other's reply in disguise, then the two keep in
step and come to the same value.
-/
namespace DumpVault
open Prog

/-- How a step looks in disguise, the calls for which this is meant and what may be heard. -/
structure Disguise where
  put : Step → Step
  mayAsk : Call → Prop
  mayHear : Step → Prop

/-- The second run is the first in disguise. -/
inductive Lockstep (D : Disguise) {α : Type} : Prog α → Prog α → Prop
  | pure (a : α) : Lockstep D (.pure a) (.pure a)
  | call {c c' : Call} {next : Reply c → Prog α} {next' : Reply c' → Prog α}
      (asks : D.mayAsk c) (disguised : ∀ r, (D.put ⟨c, r⟩).call = c')
      (goesOn : ∀ r r', D.mayHear ⟨c, r⟩ → D.put ⟨c, r⟩ = ⟨c', r'⟩ →
        Lockstep D (next r) (next' r')) :
      Lockstep D (.call c next) (.call c' next')

/-- A call that looks the same in disguise, whatever the reply. -/
def Disguise.Plain (D : Disguise) (c : Call) : Prop := D.mayAsk c ∧ ∀ r, D.put ⟨c, r⟩ = ⟨c, r⟩

namespace Lockstep

variable {D : Disguise} {α β : Type} {p p' : Prog α}

theorem ask_bind {c c' : Call} {f : Reply c → Prog β} {f' : Reply c' → Prog β}
    (asks : D.mayAsk c) (disguised : ∀ r, (D.put ⟨c, r⟩).call = c')
    (goesOn : ∀ r r', D.mayHear ⟨c, r⟩ → D.put ⟨c, r⟩ = ⟨c', r'⟩ → Lockstep D (f r) (f' r')) :
    Lockstep D (ask c >>= f) (ask c' >>= f') := .call asks disguised goesOn

theorem plain_bind {c : Call} {f f' : Reply c → Prog β} (hc : D.Plain c)
    (goesOn : ∀ r, D.mayHear ⟨c, r⟩ → Lockstep D (f r) (f' r)) :
    Lockstep D (ask c >>= f) (ask c >>= f') := by
  refine ask_bind hc.1 (fun r => by rw [hc.2 r]) fun r r' hears hput => ?_
  rw [hc.2 r] at hput
  cases hput
  exact goesOn r hears

theorem bind {f f' : α → Prog β} (hp : Lockstep D p p') (hf : ∀ a, Lockstep D (f a) (f' a)) :
    Lockstep D (p >>= f) (p' >>= f') := by
  change Lockstep D (p.bind f) (p'.bind f')
  induction hp with
  | pure a => exact hf a
  | call asks disguised _ ih => exact .call asks disguised ih

theorem refl (hp : p.Only D.Plain) : Lockstep D p p := by
  induction p with
  | pure a => exact .pure a
  | call c next ih =>
    refine .call hp.1.1 (fun r => by rw [hp.1.2 r]) fun r r' _ hput => ?_
    rw [hp.1.2 r] at hput
    cases hput
    exact ih r (hp.2 r)

theorem exists_reply {c c' : Call} {r : Reply c} (h : (D.put ⟨c, r⟩).call = c') :
    ∃ r', D.put ⟨c, r⟩ = ⟨c', r'⟩ := by
  generalize D.put ⟨c, r⟩ = s at h
  obtain ⟨c, r⟩ := s
  subst h
  exact ⟨r, rfl⟩

/-- Carried out by handlers that answer in disguise, runs in lockstep come to the same value and
leave the same state behind; their courses are each other's in disguise. -/
theorem run_eq {σ : Type} {h h' : Handler σ} (hlock : Lockstep D p p')
    (hworld : ∀ c s, D.mayAsk c → D.mayHear ⟨c, (h c s).1⟩ ∧
      h' (D.put ⟨c, (h c s).1⟩).call s = ((D.put ⟨c, (h c s).1⟩).reply, (h c s).2)) (s : σ) :
    p'.run h' s = p.run h s ∧ p'.course h' s = (p.course h s).map D.put := by
  induction hlock generalizing s with
  | pure a => exact ⟨rfl, rfl⟩
  | @call c c' next next' asks disguised goesOn ih =>
    obtain ⟨hears, hanswer⟩ := hworld c s asks
    obtain ⟨r', hput⟩ := exists_reply (disguised (h c s).1)
    rw [hput] at hanswer
    obtain ⟨hrun, hcourse⟩ := ih _ r' hears hput (h c s).2
    constructor
    · rw [run_call, run_call, hanswer, hrun]
    · rw [course, course, hanswer, List.map_cons, hput, hcourse]

end Lockstep
end DumpVault
