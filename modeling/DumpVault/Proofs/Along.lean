import DumpVault.Proofs.Course

/-!
# States along a course

A course tells what a run has asked and what it was told. What an answered call may do to a state is
a relation; carried along a course, it tells which state the run may leave behind.
-/
namespace DumpVault.Prog

/-- What a call may do to a state once it has got its reply. -/
abbrev Effects (σ : Type) := σ → (c : Call) → Reply c → σ → Prop

inductive Along {σ : Type} (E : Effects σ) : σ → List Step → σ → Prop
  | nil (s : σ) : Along E s [] s
  | cons {s s₁ s' : σ} {c : Call} {r : Reply c} {steps : List Step} :
    E s c r s₁ → Along E s₁ steps s' → Along E s (⟨c, r⟩ :: steps) s'

variable {σ τ : Type} {E : Effects σ} {F : Effects τ} {s s' : σ} {t : τ} {steps more : List Step}

@[simp] theorem along_nil : Along E s [] s' ↔ s' = s := by
  constructor
  · intro h
    cases h
    rfl
  · rintro rfl
    exact .nil _

theorem along_cons {c : Call} {r : Reply c} :
    Along E s (⟨c, r⟩ :: steps) s' ↔ ∃ s₁, E s c r s₁ ∧ Along E s₁ steps s' := by
  constructor
  · intro h
    cases h with
    | cons hr hsteps => exact ⟨_, hr, hsteps⟩
  · rintro ⟨s₁, hr, hsteps⟩
    exact .cons hr hsteps

theorem along_append :
    Along E s (steps ++ more) s' ↔ ∃ s₁, Along E s steps s₁ ∧ Along E s₁ more s' := by
  induction steps generalizing s with
  | nil => simp
  | cons step steps ih =>
    obtain ⟨c, r⟩ := step
    rw [List.cons_append, along_cons]
    constructor
    · rintro ⟨u, hr, h⟩
      obtain ⟨v, hsteps, hmore⟩ := ih.mp h
      exact ⟨v, .cons hr hsteps, hmore⟩
    · rintro ⟨v, h, hmore⟩
      obtain ⟨u, hr, hsteps⟩ := along_cons.mp h
      exact ⟨u, hr, ih.mpr ⟨v, hsteps, hmore⟩⟩

/-- What every step of a course keeps, the course keeps. -/
theorem Along.keeps {R : σ → σ → Prop} (hrefl : ∀ s, R s s)
    (htrans : ∀ {s u v}, R s u → R u v → R s v) (h : Along E s steps s')
    (hstep : ∀ step ∈ steps, ∀ u v, E u step.call step.reply v → R u v) : R s s' := by
  induction h with
  | nil s => exact hrefl s
  | cons hr _ ih =>
    exact htrans (hstep _ List.mem_cons_self _ _ hr)
      (ih fun step hmem => hstep step (List.mem_cons_of_mem _ hmem))

/-- Steps that have no effect may be left out. -/
theorem Along.filter {keep : Step → Bool} (h : Along E s steps s')
    (hidle : ∀ step ∈ steps, keep step = false → ∀ u v, E u step.call step.reply v → v = u) :
    Along E s (steps.filter keep) s' := by
  induction h with
  | nil s => exact .nil s
  | @cons s u s' c r steps hr _ ih =>
    have hrest := ih fun step hmem => hidle step (List.mem_cons_of_mem _ hmem)
    by_cases hkeep : keep ⟨c, r⟩ = true
    · rw [List.filter_cons_of_pos hkeep]
      exact .cons hr hrest
    · obtain rfl := hidle _ List.mem_cons_self (Bool.not_eq_true _ ▸ hkeep) _ _ hr
      rwa [List.filter_cons_of_neg hkeep]

/-- A relation between two kinds of state that every step keeps is kept along the course. -/
theorem Along.simulates {R : σ → τ → Prop} (h : Along E s steps s') (hR : R s t)
    (hstep : ∀ step ∈ steps, ∀ {u v x}, R u x → E u step.call step.reply v →
      ∃ y, F x step.call step.reply y ∧ R v y) :
    ∃ t', Along F t steps t' ∧ R s' t' := by
  induction h generalizing t with
  | nil s => exact ⟨t, .nil t, hR⟩
  | cons hr _ ih =>
    obtain ⟨y, hy, hRy⟩ := hstep _ List.mem_cons_self hR hr
    obtain ⟨t', hrest, hR'⟩ := ih hRy fun step hmem => hstep step (List.mem_cons_of_mem _ hmem)
    exact ⟨t', .cons hy hrest, hR'⟩

/-- A handler all of whose answers have a permitted effect, in the states that it keeps to, takes
its own state along its course. -/
theorem along_course_of {α : Type} {P : σ → Prop} (h : Handler σ)
    (hall : ∀ c s, P s → E s c (h c s).1 (h c s).2 ∧ P (h c s).2) (p : Prog α) (hs : P s) :
    Along E s (p.course h s) (p.run h s).2 ∧ P (p.run h s).2 := by
  induction p generalizing s with
  | pure a => exact ⟨.nil s, hs⟩
  | call c next ih =>
    obtain ⟨heffect, hnext⟩ := hall c s hs
    obtain ⟨halong, hend⟩ := ih _ hnext
    exact ⟨.cons heffect halong, hend⟩

theorem along_course {α : Type} (h : Handler σ) (hall : ∀ c s, E s c (h c s).1 (h c s).2)
    (p : Prog α) (s : σ) : Along E s (p.course h s) (p.run h s).2 :=
  (along_course_of (P := fun _ => True) h (fun c s _ => ⟨hall c s, trivial⟩) p trivial).1

/-- Every reply in a handler's course is one that the handler gives, in a state that it keeps to. -/
theorem exists_of_mem_course_of {α : Type} {P : σ → Prop} {h : Handler σ} {p : Prog α} {step : Step}
    (hall : ∀ c s, P s → P (h c s).2) (hs : P s) (hmem : step ∈ p.course h s) :
    ∃ u, P u ∧ step = ⟨step.call, (h step.call u).1⟩ := by
  induction p generalizing s with
  | pure a => cases hmem
  | call c next ih =>
    rcases List.mem_cons.mp hmem with rfl | hmem
    · exact ⟨s, hs, rfl⟩
    · exact ih _ (hall c s hs) hmem

theorem exists_of_mem_course {α : Type} {h : Handler σ} {p : Prog α} {step : Step}
    (hmem : step ∈ p.course h s) : ∃ u, step = ⟨step.call, (h step.call u).1⟩ := by
  obtain ⟨u, _, hstep⟩ :=
    exists_of_mem_course_of (P := fun _ => True) (fun _ _ _ => trivial) trivial hmem
  exact ⟨u, hstep⟩

end DumpVault.Prog
