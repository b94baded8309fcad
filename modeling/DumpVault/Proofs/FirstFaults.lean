import DumpVault.Proofs.Course

/-!
# Which faults are returned and which are logged

Of the faults that steps end with, the first is kept and returned. Each later one is logged at once,
with its text, and dropped; so the faults recorded are the one returned and, in their order, those
logged.
-/
namespace DumpVault
open Prog

/-- The faults among results, in their order. -/
def faultsAmong {α : Type} (results : List (Except Fault α)) : List Fault :=
  results.filterMap fun
    | .ok _ => none
    | .error fault => some fault

section
variable {α : Type} {results : List (Except Fault α)} {fault : Fault}

@[simp] theorem faultsAmong_nil : faultsAmong ([] : List (Except Fault α)) = [] := rfl

@[simp] theorem faultsAmong_ok (value : α) :
    faultsAmong (.ok value :: results) = faultsAmong results := rfl

@[simp] theorem faultsAmong_error :
    faultsAmong (.error fault :: results) = fault :: faultsAmong results := rfl

theorem faultsAmong_eq_nil_iff :
    faultsAmong results = [] ↔ ∀ result ∈ results, ∃ value, result = .ok value := by
  induction results with
  | nil => simp
  | cons result results ih =>
    cases result with
    | ok value => simpa using ih
    | error fault => simp

end

namespace FirstFault

variable {results : List (Except Fault Unit)}

/-- Of the fault that there may be and those of all results the first is kept, and the others are
logged. -/
theorem recordAll_eq (a : FirstFault) (results : List (Except Fault Unit)) :
    a.recordAll results = (⟨(a.first.toList ++ faultsAmong results).head?⟩,
      (a.first.toList ++ faultsAmong results).tail.map discarded) := by
  induction results generalizing a with
  | nil =>
    obtain ⟨_ | first⟩ := a <;> rfl
  | cons result results ih =>
    cases result with
    | ok => simp [recordAll, ih]
    | error fault =>
      obtain ⟨_ | first⟩ := a <;> simp [recordAll, record, ih]

theorem recordAll_empty (results : List (Except Fault Unit)) :
    empty.recordAll results =
      (⟨(faultsAmong results).head?⟩, (faultsAmong results).tail.map discarded) :=
  recordAll_eq empty results

example :
    empty.recordAll [.ok (), .error (.config "a"), .ok (), .error (.cancelled "b")] =
      (⟨some (.config "a")⟩, [⟨.warn, "discarding subsequent error: cancelled while b"⟩]) := rfl

theorem finish_head? {α : Type} (faults : List Fault) (value : α) :
    (⟨faults.head?⟩ : FirstFault).finish value =
      faults.head?.elim (.ok value) .error := by
  cases faults <;> rfl

theorem isEmpty_recordAll :
    (empty.recordAll results).1.isEmpty = true ↔ ∀ result ∈ results, result = .ok () := by
  rw [recordAll_empty, isEmpty, Option.isNone_iff_eq_none, List.head?_eq_none_iff,
    faultsAmong_eq_nil_iff]
  exact forall₂_congr fun _ _ => ⟨fun ⟨_, h⟩ => h, fun h => ⟨(), h⟩⟩

/-- The text of a fault ends the line about it. -/
theorem discarded_tells (fault : Fault) :
    (discarded fault).level = .warn ∧ fault.text.toList <:+ (discarded fault).text.toList := by
  refine ⟨rfl, ?_⟩
  change fault.text.toList <:+ ("discarding subsequent error: " ++ fault.text).toList
  rw [String.toList_append]
  exact List.suffix_append _ _

end FirstFault

/-- A run that takes in one result after the other logs the faults that are dropped. -/
theorem yields_recordAll {a b : FirstFault} {results : List (Except Fault Unit)}
    {steps : List Step} :
    Yields (results.foldlM record a) steps b ↔
      steps = logSteps (a.recordAll results).2 ∧ b = (a.recordAll results).1 := by
  induction results generalizing a steps with
  | nil => exact yields_pure
  | cons result results ih =>
    rw [List.foldlM_cons, yields_bind_iff]
    constructor
    · rintro ⟨s, t, c, rfl, hfirst, hrest⟩
      obtain ⟨rfl, rfl⟩ := yields_record.mp hfirst
      obtain ⟨rfl, rfl⟩ := ih.mp hrest
      exact ⟨by simp [logSteps, FirstFault.recordAll], rfl⟩
    · rintro ⟨rfl, rfl⟩
      exact ⟨_, _, _, by simp [logSteps, FirstFault.recordAll], yields_record.mpr ⟨rfl, rfl⟩,
        ih.mpr ⟨rfl, rfl⟩⟩

/-- However many results are recorded, the first fault among them is what is returned, or the value
if there is none. There is no fault yet exactly as long as every result was free of one. Each later
fault is logged, once and in its turn, as a warning that ends with its text, so the faults recorded
are the one that is returned and those that are logged. -/
theorem first_fault_returned (results : List (Except Fault Unit)) :
    ∃ kept lines, FirstFault.empty.recordAll results = (kept, lines) ∧
      (∀ steps a, Yields (results.foldlM record .empty) steps a ↔
        steps = logSteps lines ∧ a = kept) ∧
      (∀ {α : Type} (value : α),
        kept.finish value = (faultsAmong results).head?.elim (.ok value) .error) ∧
      (∀ before after, results = before ++ after →
        ((FirstFault.empty.recordAll before).1.isEmpty = true ↔
          ∀ result ∈ before, result = .ok ()) ∧
        (kept.isEmpty = true → (FirstFault.empty.recordAll before).1.isEmpty = true)) ∧
      lines = (faultsAmong results).tail.map FirstFault.discarded ∧
      (∀ fault, (FirstFault.discarded fault).level = .warn ∧
        fault.text.toList <:+ (FirstFault.discarded fault).text.toList) ∧
      ∀ {α : Type} (value : α), ∃ logged,
        faultsAmong results = faultsAmong [kept.finish value] ++ logged ∧
        lines = logged.map FirstFault.discarded := by
  refine ⟨_, _, rfl, fun steps a => yields_recordAll, fun value => ?_, ?_, ?_,
    FirstFault.discarded_tells, fun value => ⟨(faultsAmong results).tail, ?_, ?_⟩⟩
  · rw [FirstFault.recordAll_empty, FirstFault.finish_head?]
  · rintro before after rfl
    refine ⟨FirstFault.isEmpty_recordAll, fun hall => ?_⟩
    rw [FirstFault.isEmpty_recordAll] at hall ⊢
    exact fun result hmem => hall result (List.mem_append_left after hmem)
  · rw [FirstFault.recordAll_empty]
  · rw [FirstFault.recordAll_empty, FirstFault.finish_head?]
    cases faultsAmong results <;> rfl
  · rw [FirstFault.recordAll_empty]

end DumpVault
