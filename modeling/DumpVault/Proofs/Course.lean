import DumpVault.Run.Prog

/-!
# Courses taken apart

A course of a run in several parts is made of courses of the parts. The lemmas below take a course
apart call by call, so that a run is followed by reading its text from the top.
-/
namespace DumpVault.Prog

variable {α β : Type}

@[simp] theorem yields_pure {a b : α} {steps : List Step} :
    Yields (Pure.pure a) steps b ↔ steps = [] ∧ b = a := by
  constructor
  · intro h
    cases h
    exact ⟨rfl, rfl⟩
  · rintro ⟨rfl, rfl⟩
    exact .pure _

theorem yields_call {c : Call} {next : Reply c → Prog α} {steps : List Step} {a : α} :
    Yields (call c next) steps a ↔ ∃ r rest, steps = ⟨c, r⟩ :: rest ∧ Yields (next r) rest a := by
  constructor
  · intro h
    cases h with
    | @call _ _ r rest _ h => exact ⟨r, rest, rfl, h⟩
  · rintro ⟨r, rest, rfl, h⟩
    exact .call h

theorem yields_bind_iff {p : Prog α} {f : α → Prog β} {steps : List Step} {b : β} :
    Yields (p >>= f) steps b ↔ ∃ s t a, steps = s ++ t ∧ Yields p s a ∧ Yields (f a) t b := by
  constructor
  · exact exists_of_yields_bind
  · rintro ⟨s, t, a, rfl, hs, ht⟩
    exact yields_bind hs ht

theorem yields_ask_bind {c : Call} {f : Reply c → Prog β} {steps : List Step} {b : β} :
    Yields (ask c >>= f) steps b ↔ ∃ r rest, steps = ⟨c, r⟩ :: rest ∧ Yields (f r) rest b :=
  yields_call

theorem yields_log_bind {level : Level} {text : String} {f : Unit → Prog β} {steps : List Step}
    {b : β} : Yields (log level text >>= f) steps b ↔
      ∃ rest, steps = ⟨.log ⟨level, text⟩, ()⟩ :: rest ∧ Yields (f ()) rest b := by
  rw [log, yields_ask_bind]
  exact ⟨fun ⟨_, rest, h⟩ => ⟨rest, h⟩, fun ⟨rest, h⟩ => ⟨(), rest, h⟩⟩

def logSteps (lines : List Line) : List Step := lines.map fun line => ⟨.log line, ()⟩

theorem yields_lines {lines : List Line} {p : Prog α} {steps : List Step} {a : α} :
    Yields (lines.foldr (fun line rest => call (.log line) fun _ => rest) p) steps a ↔
      ∃ rest, steps = logSteps lines ++ rest ∧ Yields p rest a := by
  induction lines generalizing steps with
  | nil => simp [logSteps]
  | cons line lines ih =>
    rw [List.foldr_cons, yields_call]
    constructor
    · rintro ⟨_, _, rfl, h⟩
      obtain ⟨rest, rfl, hp⟩ := ih.mp h
      exact ⟨rest, rfl, hp⟩
    · rintro ⟨rest, rfl, h⟩
      exact ⟨(), _, rfl, ih.mpr ⟨rest, rfl, h⟩⟩

/-- Taking in a result logs the fault that is dropped, if there is one. -/
theorem yields_record {a b : FirstFault} {r : Except Fault Unit} {steps : List Step} :
    Yields (record a r) steps b ↔ steps = logSteps (a.record r).2 ∧ b = (a.record r).1 := by
  rw [show record a r = (a.record r).2.foldr (fun line rest => call (.log line) fun _ => rest)
    (Pure.pure (a.record r).1) from rfl, yields_lines]
  constructor
  · rintro ⟨rest, rfl, h⟩
    obtain ⟨rfl, rfl⟩ := yields_pure.mp h
    exact ⟨by simp, rfl⟩
  · rintro ⟨rfl, rfl⟩
    exact ⟨[], by simp, yields_pure.mpr ⟨rfl, rfl⟩⟩

end DumpVault.Prog
