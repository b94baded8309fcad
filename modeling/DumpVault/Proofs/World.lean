import DumpVault.Machine.Host
import DumpVault.Proofs.Course
import DumpVault.Proofs.Vaults

/-!
# Runs in a world where anything may fail

The machine answers the calls of a run in one way. Here a call may also be refused, a wait be cut off
at any moment, the clock show any time and a utility do what it likes, outside of the places that it
is to leave alone. `Answers` says which replies a call may get and what each makes of the world, and
`Runs` which ends a run may come to.
-/
namespace DumpVault
open Prog

structure Pipes where
  /-- The path of the file that takes the utility's output. -/
  outlet : Option String := none
  output : ByteArray := .empty
  input : ByteArray := .empty
  inputEnded : Bool := false

structure World where
  host : Host
  pipes : Pipes := {}

/-- The places that matter to a run: those that utilities leave as they are, and those where staging
files are made. -/
structure Setting where
  kept : Location → Prop
  staging : Location → Prop

def Streams.outlet : Streams → Option String
  | intoFile path => some path
  | fromPipe => none

namespace World

variable {S : Setting} {w w' u : World}

def reply (w : World) (c : Call) : Reply c := (w.host.answer c).1

def after (w : World) (c : Call) : World := { w with host := (w.host.answer c).2 }

def Served (w : World) {c : Call} (r : Reply c) (w' : World) : Prop :=
  r = w.reply c ∧ w' = w.after c

/-- A call has been refused, or served by the machine. -/
def MayServe {ε α : Type} (w : World) (served : Prop) (r : Except ε α) (w' : World) : Prop :=
  served ∨ (∃ fault, r = .error fault) ∧ w' = w

/-- A utility has been at work. Whatever it has written to its output is in the file that takes it,
if that file is still there. -/
structure Acts (S : Setting) (w w' : World) : Prop where
  vault : w'.host.vault = w.host.vault
  cwd : w'.host.cwd = w.host.cwd
  kept : ∀ l, S.kept l → w'.host.files.at? l = w.host.files.at? l
  outlet : w'.pipes.outlet = w.pipes.outlet
  input : w'.pipes.input = w.pipes.input
  inputEnded : w'.pipes.inputEnded = w.pipes.inputEnded
  output : ∀ path content, w.pipes.outlet = some path → w'.host.content? path = some content →
    content = w'.pipes.output

/-- A new staging file has been made, empty, where nothing was. -/
def Stages (S : Setting) (w : World) (path : String) (w' : World) : Prop :=
  let l := Location.named w.host.cwd path
  S.staging l ∧ w.host.files.at? l = none ∧
    w' = { w with host := { w.host with files := w.host.files.put l (.file .empty) } }

def feed (w : World) (chunk : ByteArray) : World :=
  { w with pipes := { w.pipes with input := w.pipes.input ++ chunk } }

def start (w : World) (command : Command) : World :=
  { w with pipes := { outlet := command.streams.outlet } }

def endInput (w : World) : World := { w with pipes := { w.pipes with inputEnded := true } }

/-- The replies that a call may get, each with the world that it leaves. -/
def Answers (S : Setting) (w : World) : (c : Call) → Reply c → World → Prop
  | .log _, _, w' | .isCancelled, _, w' | .pause, _, w' | .stall, _, w' | .now, _, w'
  | .temporaryDir, _, w' | .password _, _, w' | .print _, _, w' => w' = w
  | .createStaging _, .ok path, w' => w.Stages S path w'
  | .createStaging _, .error _, w' => w' = w
  | .openFile path, r, w' => w' = w ∧ ∀ s, r = .ok s → s.ending = .complete →
      w.host.content? path = some s.bytes
  | .readFile path, r, w' => w.MayServe (w.Served (c := .readFile path) r w') r w'
  | .removeFile path, r, w' => w.MayServe (w.Served (c := .removeFile path) r w') r w'
  | .connect s, r, w' => w.MayServe (w.Served (c := .connect s) r w') r w'
  | .exists k, r, w' => w.MayServe (w.Served (c := .exists k) r w') r w'
  | .openWriter k, r, w' => w.MayServe (w.Served (c := .openWriter k) r w') r w'
  | .list, r, w' => w.MayServe (w.Served (c := .list) r w') r w'
  | .openReader k, r, w' => w.MayServe (w' = w.after (.openReader k) ∧ ∃ s found, r = .ok s ∧
      w.reply (.openReader k) = .ok found ∧ (s.ending = .complete → s.bytes = found.bytes)) r w'
  -- a failure may be reported before or after the effect
  | .write wr chunk, .accepted, w' => w.Served (c := .write wr chunk) .accepted w'
  | .write wr chunk, _, w' => w' = w ∨ w' = w.after (.write wr chunk)
  | .finalize wr, .ok _, w' => w.Served (c := .finalize wr) (.ok ()) w'
  | .finalize wr, .error _, w' => w' = w ∨ w' = w.after (.finalize wr)
  | .abort wr, .ok _, w' => w.Served (c := .abort wr) (.ok ()) w'
  | .abort wr, .error _, w' => w' = w ∨ w' = w.after (.abort wr)
  | .spawn command, .ok _, w' => Acts S (w.start command) w'
  | .spawn _, .error _, w' => w' = w
  | .offer chunk, .accepted, w' => Acts S (w.feed chunk) w'
  | .offer chunk, _, w' => ∃ part rest, chunk = part ++ rest ∧ Acts S (w.feed part) w'
  | .closeInput, .ok _, w' => Acts S w.endInput w'
  | .closeInput, .error _, w' => Acts S w w' ∨ Acts S w.endInput w'
  | .wait, _, w' | .kill, _, w' | .reap, _, w' => Acts S w w'

end World

open World

/-- The ends that a run may come to. -/
inductive Runs (S : Setting) {α : Type} : World → Prog α → α → World → Prop
  | pure (w : World) (a : α) : Runs S w (.pure a) a w
  | call {w w₁ w' : World} {c : Call} {r : Reply c} {next : Reply c → Prog α} {a : α} :
    w.Answers S c r w₁ → Runs S w₁ (next r) a w' → Runs S w (.call c next) a w'

section Runs
variable {S : Setting} {α β : Type} {w w' : World} {a b : α}

@[simp] theorem runs_pure : Runs S w (Pure.pure a : Prog α) b w' ↔ b = a ∧ w' = w := by
  constructor
  · intro h
    cases h
    exact ⟨rfl, rfl⟩
  · rintro ⟨rfl, rfl⟩
    exact .pure _ _

theorem runs_pure_pair {a' : α} {b b' : β} :
    Runs S w (Pure.pure (a, b) : Prog (α × β)) (a', b') w' ↔ a' = a ∧ b' = b ∧ w' = w := by
  rw [runs_pure, Prod.mk.injEq, and_assoc]

theorem runs_call {c : Call} {next : Reply c → Prog α} : Runs S w (.call c next) a w' ↔
    ∃ r w₁, w.Answers S c r w₁ ∧ Runs S w₁ (next r) a w' := by
  constructor
  · intro h
    cases h with
    | call hr hnext => exact ⟨_, _, hr, hnext⟩
  · rintro ⟨r, w₁, hr, hnext⟩
    exact .call hr hnext

theorem runs_ask {c : Call} {r : Reply c} : Runs S w (ask c) r w' ↔ w.Answers S c r w' := by
  rw [ask, runs_call]
  constructor
  · rintro ⟨s, w₁, hs, hend⟩
    obtain ⟨rfl, rfl⟩ := runs_pure.mp hend
    exact hs
  · intro h
    exact ⟨r, w', h, .pure _ _⟩

theorem runs_bind {p : Prog α} {f : α → Prog β} {b : β} :
    Runs S w (p >>= f) b w' ↔ ∃ a w₁, Runs S w p a w₁ ∧ Runs S w₁ (f a) b w' := by
  constructor
  · intro h
    change Runs S w (p.bind f) b w' at h
    induction p generalizing w with
    | pure a => exact ⟨a, w, .pure w a, h⟩
    | call c next ih =>
      obtain ⟨r, w₁, hr, hnext⟩ := runs_call.mp h
      obtain ⟨a, w₂, ha, hb⟩ := ih r hnext
      exact ⟨a, w₂, .call hr ha, hb⟩
  · rintro ⟨a, w₁, ha, hb⟩
    change Runs S w (p.bind f) b w'
    induction ha with
    | pure => exact hb
    | call hr _ ih => exact .call hr (ih hb)

theorem runs_ask_bind {c : Call} {f : Reply c → Prog β} {b : β} :
    Runs S w (ask c >>= f) b w' ↔ ∃ r w₁, w.Answers S c r w₁ ∧ Runs S w₁ (f r) b w' :=
  runs_call

theorem runs_line_bind {line : Line} {f : Unit → Prog β} {b : β} :
    Runs S w (ask (.log line) >>= f) b w' ↔ Runs S w (f ()) b w' := by
  rw [runs_ask_bind]
  constructor
  · rintro ⟨_, w₁, rfl, h⟩
    exact h
  · intro h
    exact ⟨(), w, rfl, h⟩

theorem runs_log_bind {level : Level} {text : String} {f : Unit → Prog β} {b : β} :
    Runs S w (log level text >>= f) b w' ↔ Runs S w (f ()) b w' := runs_line_bind

theorem runs_record {first faults : FirstFault} {r : Except Fault Unit} :
    Runs S w (record first r) faults w' ↔ faults = (first.record r).1 ∧ w' = w := by
  rw [show record first r = (first.record r).2.foldr
    (fun line rest => .call (.log line) fun _ => rest) (Pure.pure (first.record r).1) from rfl]
  induction (first.record r).2 with
  | nil => exact runs_pure
  | cons line lines ih =>
    rw [List.foldr_cons, runs_call]
    constructor
    · rintro ⟨_, w₁, rfl, h⟩
      exact ih.mp h
    · intro h
      exact ⟨(), w, rfl, ih.mpr h⟩

/-- A handler all of whose answers are allowed carries a run to one of its ends. -/
theorem runs_run (h : Handler World) (hall : ∀ c (w : World), w.Answers S c (h c w).1 (h c w).2)
    (p : Prog α) (w : World) : Runs S w p (p.run h w).1 (p.run h w).2 := by
  induction p generalizing w with
  | pure a => exact .pure w a
  | call c next ih => exact .call (hall c w) (ih _ _)

end Runs

namespace Prog

/-- Every call of a run is one of `P`. -/
def Only {α : Type} (P : Call → Prop) : Prog α → Prop
  | pure _ => True
  | call c next => P c ∧ ∀ r, (next r).Only P

variable {α β : Type} {P : Call → Prop}

@[simp] theorem only_pure (a : α) : (Pure.pure a : Prog α).Only P := trivial

theorem only_ask_bind {c : Call} {f : Reply c → Prog β} (hc : P c) (hf : ∀ r, (f r).Only P) :
    (ask c >>= f).Only P := ⟨hc, hf⟩

theorem only_ask {c : Call} (hc : P c) : (ask c).Only P := ⟨hc, fun _ => trivial⟩

theorem only_bind {p : Prog α} {f : α → Prog β} (hp : p.Only P) (hf : ∀ a, (f a).Only P) :
    (p >>= f).Only P := by
  change (p.bind f).Only P
  induction p with
  | pure a => exact hf a
  | call c next ih => exact ⟨hp.1, fun r => ih r (hp.2 r)⟩

theorem Only.mono {Q : Call → Prop} {p : Prog α} (hp : p.Only P) (h : ∀ c, P c → Q c) :
    p.Only Q := by
  induction p with
  | pure a => trivial
  | call c next ih => exact ⟨h c hp.1, fun r => ih r (hp.2 r)⟩

theorem Only.mem {p : Prog α} {steps : List Step} {a : α} (hp : p.Only P)
    (h : Yields p steps a) : ∀ s ∈ steps, P s.call := by
  induction h with
  | pure a => simp
  | call _ ih => exact List.forall_mem_cons.mpr ⟨hp.1, ih (hp.2 _)⟩

theorem only_record {first : FirstFault} {r : Except Fault Unit}
    (hlog : ∀ fault, P (.log (FirstFault.discarded fault))) : (record first r).Only P := by
  cases r with
  | ok => trivial
  | error fault =>
    obtain ⟨_ | kept⟩ := first
    · trivial
    · exact ⟨hlog fault, fun _ => trivial⟩

end Prog

/-- The store is a local one; utilities leave its territory as it is and no staging file is made
there. -/
structure Guarded (S : Setting) (v : Vault) : Prop where
  isLocal : v.IsLocal
  kept : ∀ l, v.Territory l → S.kept l
  apart : ∀ l, S.staging l → ¬ v.Territory l

namespace World

variable {S : Setting} {w w' u : World} {p : StorePath} {content : ByteArray}

def Stores (w : World) (p : StorePath) (content : ByteArray) : Prop :=
  w.host.vault.Stores w.host.files p content

/-- The store is the same, with all that it depends on. -/
structure Steady (w w' : World) : Prop where
  vault : w'.host.vault = w.host.vault
  cwd : w'.host.cwd = w.host.cwd
  ground : ∀ l, w.host.vault.Territory l → w'.host.files.at? l = w.host.files.at? l

theorem Steady.refl (w : World) : Steady w w := ⟨rfl, rfl, fun _ _ => rfl⟩

theorem Steady.trans (h : Steady w w') (h' : Steady w' u) : Steady w u := by
  refine ⟨h'.vault.trans h.vault, h'.cwd.trans h.cwd, fun l hl => ?_⟩
  rw [h'.ground l (h.vault ▸ hl), h.ground l hl]

theorem Acts.steady (hg : Guarded S w.host.vault) (h : Acts S u w') (hhost : u.host = w.host) :
    Steady w w' := by
  refine ⟨?_, ?_, fun l hl => ?_⟩
  · rw [h.vault, hhost]
  · rw [h.cwd, hhost]
  · rw [h.kept l (hg.kept l hl), hhost]

/-- The calls that neither concern the store nor remove a file. -/
def isAside : Call → Prop
  | .removeFile _ | .connect _ | .exists _ | .openWriter _ | .write _ _ | .finalize _ | .abort _
  | .openReader _ | .list => False
  | _ => True

/-- A call beside the store that makes no staging file changes nothing or lets the utility act. -/
theorem answers_attending {c : Call} {r : Reply c} (hc : isAside c)
    (hnew : ∀ dir, c ≠ .createStaging dir) (h : w.Answers S c r w') :
    w' = w ∨ ∃ u, u.host = w.host ∧ Acts S u w' := by
  cases c with
  | log | isCancelled | pause | stall | now | temporaryDir | password | print => exact .inl h
  | removeFile | connect | «exists» | openWriter | write | finalize | abort | openReader | list =>
    exact hc.elim
  | createStaging dir => exact absurd rfl (hnew dir)
  | openFile path => exact .inl h.1
  | readFile path =>
    rcases h with ⟨_, rfl⟩ | ⟨_, rfl⟩
    · exact .inl rfl
    · exact .inl rfl
  | spawn command =>
    cases r with
    | error fault => exact .inl h
    | ok captured => exact .inr ⟨w.start command, rfl, h⟩
  | offer chunk =>
    cases r with
    | accepted => exact .inr ⟨w.feed chunk, rfl, h⟩
    | failed | interrupted =>
      obtain ⟨part, rest, _, h⟩ := h
      exact .inr ⟨w.feed part, rfl, h⟩
  | closeInput =>
    cases r with
    | ok => exact .inr ⟨w.endInput, rfl, h⟩
    | error fault =>
      rcases h with h | h
      · exact .inr ⟨w, rfl, h⟩
      · exact .inr ⟨w.endInput, rfl, h⟩
  | wait | kill | reap => exact .inr ⟨w, rfl, h⟩

/-- A call beside the store changes nothing, makes a staging file or lets the utility act. -/
theorem answers_aside {c : Call} {r : Reply c} (hc : isAside c) (h : w.Answers S c r w') :
    w' = w ∨ (∃ path, w.Stages S path w') ∨ ∃ u, u.host = w.host ∧ Acts S u w' := by
  cases c with
  | createStaging dir =>
    cases r with
    | error fault => exact .inl h
    | ok path => exact .inr (.inl ⟨path, h⟩)
  | _ => exact (answers_attending hc (fun _ => Call.noConfusion) h).imp_right .inr

/-- The calls that change neither the store nor anything in its territory. -/
def isCalm : Call → Prop
  | .removeFile _ | .connect _ | .openWriter _ | .write _ _ | .finalize _ | .abort _ => False
  | _ => True

/-- The calls by which a utility that has been started is tended to its end. -/
def isTending : Call → Prop
  | .log _ | .pause | .stall | .offer _ | .closeInput | .wait | .kill | .reap => True
  | _ => False

theorem isCalm_of_tending (c : Call) (hc : isTending c) : isCalm c := by
  cases c with
  | removeFile | connect | openWriter | write | finalize | abort => exact hc
  | _ => trivial

theorem after_eq {c : Call} {r : Reply c}
    (h : w.host.answer c = (r, w.host.settle (w.host.vault.keep w.host.files))) : w.after c = w := by
  rw [after, h]
  simp [Host.settle, Vault.keep]

theorem after_exists (h : w.host.vault.IsLocal) (k : Key) : w.after (.exists k) = w := by
  refine after_eq (r := (w.host.vault.contains w.host.files k).1) ?_
  simp only [Host.answer, (Vault.contains_ok h _ k).1]

theorem after_openReader (h : w.host.vault.IsLocal) (k : Key) : w.after (.openReader k) = w := by
  refine after_eq (r := (w.host.vault.openReader w.host.files k).1) ?_
  simp only [Host.answer, (Vault.openReader_ok h _ k).1]

theorem after_list (h : w.host.vault.IsLocal) : w.after .list = w := by
  refine after_eq (r := (w.host.vault.list w.host.files).1) ?_
  simp only [Host.answer, Vault.list_ok h]

theorem steady_of_calm (hg : Guarded S w.host.vault) {c : Call} {r : Reply c} (hc : isCalm c)
    (h : w.Answers S c r w') : Steady w w' := by
  have hsame : ∀ {v : World}, v = w → Steady w v := by
    rintro v rfl
    exact .refl v
  have haside : isAside c → Steady w w' := by
    intro hc
    rcases answers_aside hc h with rfl | ⟨path, hstaging, _, rfl⟩ | ⟨u, hhost, hacts⟩
    · exact .refl _
    · refine ⟨rfl, rfl, fun l hl => FileTree.at?_put_of_ne _ _ ?_⟩
      rintro rfl
      exact hg.apart _ hstaging hl
    · exact hacts.steady hg hhost
  cases c with
  | removeFile | connect | openWriter | write | finalize | abort => exact hc.elim
  | «exists» k =>
    rcases h with ⟨_, rfl⟩ | ⟨_, rfl⟩
    · exact hsame (after_exists hg.isLocal k)
    · exact hsame rfl
  | openReader k =>
    rcases h with ⟨rfl, _⟩ | ⟨_, rfl⟩
    · exact hsame (after_openReader hg.isLocal k)
    · exact hsame rfl
  | list =>
    rcases h with ⟨_, rfl⟩ | ⟨_, rfl⟩
    · exact hsame (after_list hg.isLocal)
    · exact hsame rfl
  | _ => exact haside trivial

theorem steady_of_only {α : Type} {p : Prog α} {a : α} (hg : Guarded S w.host.vault)
    (hp : p.Only isCalm) (h : Runs S w p a w') : Steady w w' := by
  induction h with
  | pure => exact .refl _
  | call hr _ ih =>
    have hfirst := steady_of_calm hg hp.1 hr
    exact hfirst.trans (ih (hfirst.vault ▸ hg) (hp.2 _))

end World
end DumpVault
