import DumpVault.Run.Call

/-!
# Runs as trees of calls

A run is a tree: it ends with a value, or it makes a call and goes on by the reply. It can be
carried out by any handler that answers the calls, and its possible courses are those of all
replies, so what holds of every course holds for every store, utility and moment of cancellation.
-/
namespace DumpVault

inductive Prog (α : Type) : Type
  | pure (value : α)
  | call (c : Call) (next : Reply c → Prog α)

namespace Prog

def bind {α β : Type} : Prog α → (α → Prog β) → Prog β
  | pure a, f => f a
  | call c next, f => call c fun r => (next r).bind f

instance : Monad Prog where
  pure := pure
  bind := bind

def ask (c : Call) : Prog (Reply c) := call c pure

theorem bind_pure_right {α : Type} (p : Prog α) : p.bind pure = p := by
  induction p with
  | pure a => rfl
  | call c next ih => simp only [bind, ih]

theorem bind_assoc {α β γ : Type} (p : Prog α) (f : α → Prog β) (g : β → Prog γ) :
    (p.bind f).bind g = p.bind fun a => (f a).bind g := by
  induction p with
  | pure a => rfl
  | call c next ih => simp only [bind, ih]

instance : LawfulMonad Prog := LawfulMonad.mk' Prog
  (fun p => bind_pure_right p)
  (fun _ _ => rfl)
  (fun p f g => bind_assoc p f g)

structure Step where
  call : Call
  reply : Reply call

/-- The course of calls and replies ends the run with a value. -/
inductive Yields {α : Type} : Prog α → List Step → α → Prop
  | pure (a : α) : Yields (pure a) [] a
  | call {c : Call} {next : Reply c → Prog α} {r : Reply c} {steps : List Step} {a : α} :
    Yields (next r) steps a → Yields (call c next) (⟨c, r⟩ :: steps) a

theorem yields_bind {α β : Type} {p : Prog α} {f : α → Prog β} {s t : List Step} {a : α} {b : β}
    (hp : Yields p s a) (hf : Yields (f a) t b) : Yields (p.bind f) (s ++ t) b := by
  induction hp with
  | pure a => exact hf
  | call _ ih => exact .call (ih hf)

theorem exists_of_yields_bind {α β : Type} {p : Prog α} {f : α → Prog β} {u : List Step} {b : β}
    (h : Yields (p.bind f) u b) :
    ∃ s t a, u = s ++ t ∧ Yields p s a ∧ Yields (f a) t b := by
  induction p generalizing u with
  | pure a => exact ⟨[], u, a, rfl, .pure a, h⟩
  | call c next ih =>
    cases h with
    | call h =>
      obtain ⟨s, t, a, rfl, hs, ht⟩ := ih _ h
      exact ⟨_ :: s, t, a, rfl, .call hs, ht⟩

end Prog

/-- Answers calls from a state that they may change. -/
abbrev Handler (σ : Type) := (c : Call) → σ → Reply c × σ

namespace Prog

def run {σ α : Type} (h : Handler σ) : Prog α → σ → α × σ
  | pure a, s => (a, s)
  | call c next, s =>
    let (r, s) := h c s
    (next r).run h s

def course {σ α : Type} (h : Handler σ) : Prog α → σ → List Step
  | pure _, _ => []
  | call c next, s => ⟨c, (h c s).1⟩ :: (next (h c s).1).course h (h c s).2

@[simp] theorem run_pure {σ α : Type} (h : Handler σ) (a : α) (s : σ) :
    (Prog.pure a).run h s = (a, s) := rfl

@[simp] theorem run_call {σ α : Type} (h : Handler σ) (c : Call) (next : Reply c → Prog α)
    (s : σ) : (call c next).run h s = (next (h c s).1).run h (h c s).2 := rfl

@[simp] theorem run_bind {σ α β : Type} (h : Handler σ) (p : Prog α) (f : α → Prog β) (s : σ) :
    (p.bind f).run h s = (f (p.run h s).1).run h (p.run h s).2 := by
  induction p generalizing s with
  | pure a => rfl
  | call c next ih => simp only [bind, run_call, ih]

/-- Whatever the handler, the course taken is one of the run's courses. -/
theorem yields_course {σ α : Type} (h : Handler σ) (p : Prog α) (s : σ) :
    Yields p (p.course h s) (p.run h s).1 := by
  induction p generalizing s with
  | pure a => exact .pure a
  | call c next ih => exact .call (ih _ _)

def log (level : Level) (text : String) : Prog Unit := ask (.log ⟨level, text⟩)
def debug (text : String) : Prog Unit := log .debug text
def info (text : String) : Prog Unit := log .info text
def warn (text : String) : Prog Unit := log .warn text

/-- Takes in the result of a step, logging a fault that is dropped. -/
def record (a : FirstFault) (r : Except Fault Unit) : Prog FirstFault :=
  let (b, lines) := a.record r
  lines.foldr (fun line rest => call (.log line) fun _ => rest) (pure b)

end Prog
end DumpVault
