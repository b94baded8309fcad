import DumpVault.Fault.Basic
import DumpVault.Log

/-!
# The first fault of several steps

Steps that release something run on every way out, so more than one of them may fail. The first
fault is the one that is reported; each later one is written to the log and dropped.
-/
namespace DumpVault

structure FirstFault where
  first : Option Fault
  deriving DecidableEq, Repr

namespace FirstFault

def empty : FirstFault := ⟨none⟩

def isEmpty (a : FirstFault) : Bool := a.first.isNone

def discarded (f : Fault) : Line := ⟨.warn, s!"discarding subsequent error: {f.text}"⟩

/-- Takes in the result of one step, with the lines that it logs. -/
def record (a : FirstFault) : Except Fault Unit → FirstFault × List Line
  | .ok _ => (a, [])
  | .error f =>
    match a.first with
    | none => (⟨some f⟩, [])
    | some _ => (a, [discarded f])

def recordAll (a : FirstFault) : List (Except Fault Unit) → FirstFault × List Line
  | [] => (a, [])
  | r :: rs =>
    let (b, lines) := a.record r
    let (c, more) := b.recordAll rs
    (c, lines ++ more)

/-- The value, unless a step failed. -/
def finish {α : Type} (a : FirstFault) (value : α) : Except Fault α :=
  match a.first with
  | some f => .error f
  | none => .ok value

@[simp] theorem record_ok (a : FirstFault) (u : Unit) : a.record (.ok u) = (a, []) := rfl

theorem record_ne_none {a : FirstFault} (ha : a.first ≠ none) (r : Except Fault Unit) :
    (a.record r).1.first ≠ none := by
  obtain ⟨_ | fault⟩ := a
  · exact absurd rfl ha
  · cases r <;> simp [record]

theorem record_error_ne_none (a : FirstFault) (fault : Fault) :
    (a.record (.error fault)).1.first ≠ none := by
  obtain ⟨_ | first⟩ := a <;> simp [record]

theorem finish_ne_ok {α : Type} {a : FirstFault} (ha : a.first ≠ none) (value result : α) :
    a.finish value ≠ .ok result := by
  obtain ⟨_ | fault⟩ := a
  · exact absurd rfl ha
  · simp [finish]

end FirstFault
end DumpVault
