import DumpVault.Proofs.Verdicts

/-!
# The life of a utility's process

A stage starts one process at most. What may become of it beside the run, and by the run's own
calls, is told by `Lives`: it may come to its end by itself at any time, it is given a signal as
long as it has not been reaped, and who waits for it or reaps it takes note of its end. When a stage
is over no process of its own is left behind.
-/
namespace DumpVault
open Prog

inductive Death
  | own
  | killed
  deriving DecidableEq

inductive Life
  | unborn
  | running
  /-- It has come to its end, of which no note has been taken. -/
  | gone (death : Death)
  | reaped (death : Death)
  deriving DecidableEq

namespace Life

/-- What may happen while a run is at a call: the process ends by itself, and if somebody waits for
it, note is taken of its end. -/
inductive Passes : Life → Life → Prop
  | stays (l : Life) : Passes l l
  | ends : Passes running (gone .own)
  | noted (death : Death) : Passes (gone death) (reaped death)
  | ends_noted : Passes running (reaped .own)

/-- What a signal does to a process that has not been reaped. -/
inductive Struck : Life → Life → Prop
  | running : Struck running (gone .killed)
  | gone (death : Death) : Struck (gone death) (gone death)

def isKilled : Life → Bool
  | gone .killed | reaped .killed => true
  | _ => false

variable {l l' l₁ : Life} {death : Death}

theorem Passes.trans (h : Passes l l₁) (h' : Passes l₁ l') : Passes l l' := by
  cases h with
  | stays => exact h'
  | ends =>
    cases h' with
    | stays => exact .ends
    | noted => exact .ends_noted
  | noted death =>
    cases h' with
    | stays => exact .noted death
  | ends_noted =>
    cases h' with
    | stays => exact .ends_noted

theorem Passes.eq_reaped (h : Passes (reaped death) l) : l = reaped death := by
  cases h with
  | stays => rfl

theorem Passes.eq_unborn (h : Passes unborn l) : l = unborn := by
  cases h with
  | stays => rfl

theorem Passes.isKilled_eq (h : Passes l l') : l'.isKilled = l.isKilled := by
  cases h with
  | noted death => cases death <;> rfl
  | _ => rfl

end Life

/-- What a call may do to the process that a stage has started. The system gives the signal to any
process that has not been reaped, and whoever reaps a process that was given it succeeds. -/
def Lives : Effects Life
  | _, .spawn _, .ok _, l' => Life.Passes .running l'
  | l, .wait, .exited _, l' => ∃ death, l' = .reaped death ∧ l.Passes l'
  | l, .kill, .ok _, l' => ∃ m, l.Passes m ∧ m.Struck l'
  | l, .kill, .error _, l' => ∃ death, l = .reaped death ∧ l' = l
  | l, .reap, .ok _, l' => ∃ death, l' = .reaped death ∧ l.Passes l'
  | _, .reap, .error _, _ => False
  | l, _, _, l' => l.Passes l'

namespace Prog.Step

/-- A step by which nothing is done to a process. -/
def isAside : Step → Bool
  | ⟨.spawn _, .ok _⟩ | ⟨.wait, .exited _⟩ | ⟨.wait, .failed _⟩ | ⟨.kill, _⟩ | ⟨.reap, _⟩ => false
  | _ => true

def child? : Step → Option Command
  | ⟨.spawn command, .ok _⟩ => some command
  | _ => none

end Prog.Step

/-- The processes that have been started. -/
def children (steps : List Step) : List Command := steps.filterMap Step.child?

section Lives
variable {l l' : Life} {steps more : List Step} {s : Step} {c : Call} {r : Reply c}

theorem lives_aside (haside : (⟨c, r⟩ : Step).isAside = true) : Lives l c r l' ↔ l.Passes l' := by
  cases c with
  | spawn | wait => cases r <;> first | exact Iff.rfl | cases haside
  | kill | reap => cases haside
  | _ => exact Iff.rfl

theorem along_passes (haside : ∀ s ∈ steps, s.isAside = true) (h : Along Lives l steps l') :
    l.Passes l' :=
  h.keeps .stays .trans fun s hs _ _ => (lives_aside (haside s hs)).mp

theorem along_stays (haside : ∀ s ∈ steps, s.isAside = true) : Along Lives l steps l := by
  induction steps with
  | nil => exact .nil l
  | cons s steps ih =>
    exact .cons ((lives_aside (haside s List.mem_cons_self)).mpr (.stays l))
      (ih fun s hs => haside s (List.mem_cons_of_mem _ hs))

theorem isKilled_of_lives (h : Lives l c r l') (hsignal : (⟨c, r⟩ : Step) ≠ ⟨.kill, .ok ()⟩)
    (hl : l.isKilled = false) : l'.isKilled = false := by
  by_cases haside : (⟨c, r⟩ : Step).isAside = true
  · rwa [((lives_aside haside).mp h).isKilled_eq]
  · cases c with
    | spawn =>
      cases r with
      | ok => exact Life.Passes.isKilled_eq h
      | error => exact absurd rfl haside
    | wait =>
      cases r with
      | exited =>
        obtain ⟨_, _, hpasses⟩ := h
        rwa [hpasses.isKilled_eq]
      | failed => rwa [Life.Passes.isKilled_eq h]
      | interrupted => exact absurd rfl haside
    | kill =>
      cases r with
      | ok => exact absurd rfl hsignal
      | error =>
        obtain ⟨_, _, rfl⟩ := h
        exact hl
    | reap =>
      cases r with
      | ok =>
        obtain ⟨_, _, hpasses⟩ := h
        rwa [hpasses.isKilled_eq]
      | error => exact h.elim
    | _ => exact absurd rfl haside

theorem along_killed (h : Along Lives l steps l') (hl : l.isKilled = false)
    (hl' : l'.isKilled = true) : ⟨.kill, .ok ()⟩ ∈ steps := by
  by_contra hnone
  have hkept : l.isKilled = false → l'.isKilled = false := by
    refine h.keeps (R := fun l l' => l.isKilled = false → l'.isKilled = false) (fun _ hl => hl) ?_
      fun s hs _ _ hlives => isKilled_of_lives hlives fun hsignal => hnone (hsignal ▸ hs)
    exact fun hfirst hnext hl => hnext (hfirst hl)
  rw [hkept hl] at hl'
  cases hl'

theorem children_of_aside (haside : ∀ s ∈ steps, s.isAside = true) : children steps = [] := by
  rw [children, List.filterMap_eq_nil_iff]
  rintro ⟨c, r⟩ hs
  cases c with
  | spawn =>
    cases r with
    | ok => cases haside _ hs
    | error => rfl
  | _ => rfl

@[simp] theorem children_append : children (steps ++ more) = children steps ++ children more :=
  List.filterMap_append

@[simp] theorem children_spawn {command : Command} {captured : Bool} :
    children (⟨.spawn command, .ok captured⟩ :: steps) = command :: children steps := rfl

@[simp] theorem children_wait {reply : Waited} :
    children (⟨.wait, reply⟩ :: steps) = children steps := rfl

theorem not_mem_of_aside (haside : ∀ s ∈ steps, s.isAside = true) (hs : s.isAside = false) :
    s ∉ steps := fun hmem => Bool.false_ne_true (hs.symm.trans (haside s hmem))

end Lives

namespace Utility.PutDown
variable {killing : List Step} {l l' : Life}

theorem children_eq_nil (h : Utility.PutDown killing) : children killing = [] := by
  cases h <;> rfl

/-- A process that has been put down is reaped, whether it died by this or before. -/
theorem reaps (h : Utility.PutDown killing) (hlife : Along Lives l killing l') :
    ∃ death, l' = .reaped death := by
  cases h with
  | unsignalled fault =>
    obtain ⟨_, ⟨death, hreaped, rfl⟩, hline⟩ := along_cons.mp hlife
    subst hreaped
    exact ⟨death, (along_passes (by simp [Step.line, Step.isAside]) hline).eq_reaped⟩
  | unreaped fault =>
    obtain ⟨_, _, hrest⟩ := along_cons.mp hlife
    obtain ⟨_, hfalse, _⟩ := along_cons.mp hrest
    exact hfalse.elim
  | reaped status =>
    obtain ⟨_, _, hrest⟩ := along_cons.mp hlife
    obtain ⟨_, ⟨death, hreaped, _⟩, hend⟩ := along_cons.mp hrest
    obtain rfl := along_nil.mp hend
    exact ⟨death, hreaped⟩

end Utility.PutDown

/-- How a stage cares for its process. There is none; or it is waited for; or it is put down, which
is done only to one that cancellation has overtaken, or to one whose input is not captured. -/
inductive CaredFor {α : Type} (uncaptured : Prop) (steps : List Step) (r : Except Fault α) : Prop
  | childless (aside : ∀ s ∈ steps, s.isAside = true) : CaredFor uncaptured steps r
  | awaited (opening feeding closing : List Step) (command : Command) (captured : Bool)
      (waited : Waited)
      (shape : steps = opening ++ ⟨.spawn command, .ok captured⟩ ::
        (feeding ++ ⟨.wait, waited⟩ :: closing))
      (opens : ∀ s ∈ opening, s.isAside = true) (feeds : ∀ s ∈ feeding, s.isAside = true)
      (closes : ∀ s ∈ closing, s.isAside = true) (gone : waited ≠ .interrupted)
      (uncancelled : ∀ fault, r = .error fault → fault.isCancelled = false) :
      CaredFor uncaptured steps r
  | putDown (opening waiting killing closing : List Step) (command : Command) (captured : Bool)
      (shape : steps = opening ++ ⟨.spawn command, .ok captured⟩ ::
        (waiting ++ (killing ++ closing)))
      (opens : ∀ s ∈ opening, s.isAside = true) (waits : ∀ s ∈ waiting, s.isAside = true)
      (killed : Utility.PutDown killing) (closes : ∀ s ∈ closing, s.isAside = true)
      (cause : Overtaken waiting ∨ uncaptured) : CaredFor uncaptured steps r

/-- What may be said of a stage's process when the stage is over. -/
structure NoneLeft {α : Type} (uncaptured : Prop) (steps : List Step) (r : Except Fault α)
    (l : Life) : Prop where
  once : (children steps).length ≤ 1
  unborn : children steps = [] → l = .unborn
  reaped : children steps ≠ [] → (∀ fault, ⟨.wait, .failed fault⟩ ∉ steps) →
    ∃ death, l = .reaped death
  /-- A process that did not come to its end by itself was given the signal. -/
  struck : l = .reaped .killed → ⟨.kill, .ok ()⟩ ∈ steps
  spared : ∀ reply, ⟨.kill, reply⟩ ∈ steps → Overtaken steps ∨ uncaptured
  cancelled : ∀ fault, r = .error fault → fault.isCancelled = true → children steps ≠ [] →
    ∃ death, l = .reaped death

section NoneLeft
variable {α : Type} {uncaptured : Prop} {steps : List Step} {r : Except Fault α} {l : Life}

theorem along_opened {opening rest : List Step} {command : Command} {captured : Bool}
    (hlife : Along Lives .unborn (opening ++ ⟨.spawn command, .ok captured⟩ :: rest) l) :
    ∃ l₁, Life.Passes .running l₁ ∧ Along Lives l₁ rest l := by
  obtain ⟨_, _, hborn⟩ := along_append.mp hlife
  exact along_cons.mp hborn

theorem CaredFor.noneLeft (h : CaredFor uncaptured steps r)
    (hlife : Along Lives .unborn steps l) : NoneLeft uncaptured steps r l := by
  have hstruck : l = .reaped .killed → ⟨.kill, .ok ()⟩ ∈ steps :=
    fun hkilled => along_killed hlife rfl (hkilled ▸ rfl)
  cases h with
  | childless aside =>
    have hnone := children_of_aside aside
    have hunborn : l = .unborn := (along_passes aside hlife).eq_unborn
    exact {
      once := by simp [hnone]
      unborn := fun _ => hunborn
      reaped := fun hchild => absurd hnone hchild
      struck := hstruck
      spared := fun _ hkill => absurd hkill (not_mem_of_aside aside rfl)
      cancelled := fun _ _ _ hchild => absurd hnone hchild }
  | awaited opening feeding closing command captured waited shape opens feeds closes gone
      uncancelled =>
    subst shape
    obtain ⟨_, hborn, hrest⟩ := along_opened hlife
    obtain ⟨l₂, hfeeding, hwaiting⟩ := along_append.mp hrest
    obtain ⟨l₃, hwait, hclosing⟩ := along_cons.mp hwaiting
    have hchildren : children (opening ++ ⟨.spawn command, .ok captured⟩ ::
        (feeding ++ ⟨.wait, waited⟩ :: closing)) = [command] := by
      simp [children_of_aside opens, children_of_aside feeds, children_of_aside closes]
    exact {
      once := by simp [hchildren]
      unborn := by simp [hchildren]
      reaped := by
        intro _ hfine
        cases waited with
        | interrupted => exact absurd rfl gone
        | failed fault => exact absurd (by simp) (hfine fault)
        | exited status =>
          obtain ⟨death, rfl, _⟩ := hwait
          exact ⟨death, (along_passes closes hclosing).eq_reaped⟩
      struck := hstruck
      spared := fun reply hkill => by
        have hno : ∀ {aside : List Step}, (∀ s ∈ aside, s.isAside = true) →
            (⟨.kill, reply⟩ : Step) ∉ aside := fun h => not_mem_of_aside h rfl
        simp [hno opens, hno feeds, hno closes] at hkill
      cancelled := fun fault hr hcancelled => by
        rw [uncancelled fault hr] at hcancelled
        cases hcancelled }
  | putDown opening waiting killing closing command captured shape opens waits killed closes
      cause =>
    subst shape
    obtain ⟨_, _, hrest⟩ := along_opened hlife
    obtain ⟨_, _, hend⟩ := along_append.mp hrest
    obtain ⟨l₂, hkilling, hclosing⟩ := along_append.mp hend
    obtain ⟨death, rfl⟩ := killed.reaps hkilling
    have hreaped : l = .reaped death := (along_passes closes hclosing).eq_reaped
    have hchildren : children (opening ++ ⟨.spawn command, .ok captured⟩ ::
        (waiting ++ (killing ++ closing))) = [command] := by
      simp [children_of_aside opens, children_of_aside waits, children_of_aside closes,
        killed.children_eq_nil]
    exact {
      once := by simp [hchildren]
      unborn := by simp [hchildren]
      reaped := fun _ _ => ⟨death, hreaped⟩
      struck := hstruck
      spared := fun _ _ => cause.imp (fun hcut => by simp [hcut]) id
      cancelled := fun _ _ _ _ => ⟨death, hreaped⟩ }

end NoneLeft

@[simp] theorem isAside_line (line : Line) : (Step.line line).isAside = true := rfl

theorem isAside_logSteps {lines : List Line} : ∀ s ∈ logSteps lines, s.isAside = true := by
  intro s hs
  obtain ⟨line, _, rfl⟩ := mem_logSteps.mp hs
  rfl

theorem isAside_of_feeding {s : Step} (h : s.call.isFeeding = true) : s.isAside = true := by
  obtain ⟨c, r⟩ := s
  cases c with
  | spawn | wait | kill | reap => cases h
  | _ => rfl

theorem Fed.aside {ending : Ending} {total : Nat} {chunks : List ByteArray} {steps : List Step}
    {fed : FeedEnd} (h : Fed ending total chunks steps fed) : ∀ s ∈ steps, s.isAside = true :=
  fun s hs => isAside_of_feeding (h.feeding s hs)

namespace Dump
variable {d : Dump} {steps : List Step}

theorem aside_opening {path : String} {password : Option Secret} :
    ∀ s ∈ d.opening path password, s.isAside = true := by
  simp [opening, Step.isAside, Step.line]

theorem Course.caredFor {r : Except Fault String} (h : d.Course steps r) :
    CaredFor False steps r := by
  cases h with
  | uncreated | refused => exact .childless (by simp [Step.isAside, Step.line])
  | failed path password ends =>
    cases ends with
    | unstarted fault => exact .childless (by simp [opening, Step.isAside, Step.line])
    | lost captured fault =>
      exact .awaited (d.opening path password) [] [.line (retained path)] (d.command path password)
        captured (.failed fault) (by simp) aside_opening (by simp) (by simp) (by simp)
        (by rintro _ ⟨⟩; rfl)
    | failed captured status =>
      exact .awaited (d.opening path password) [] [.line (retained path)] (d.command path password)
        captured (.exited status) (by simp) aside_opening (by simp) (by simp) (by simp)
        (by rintro _ ⟨⟩; rfl)
    | @overtaken captured killing killed =>
      exact .putDown (d.opening path password) [⟨.wait, .interrupted⟩] killing
        [.line (retained path)] (d.command path password) captured (by simp) aside_opening
        (by simp [Step.isAside]) killed (by simp) (.inl (by simp))
  | dumped path password ends =>
    cases ends with
    | succeeded captured status =>
      exact .awaited (d.opening path password) [] [.line d.completed] (d.command path password)
        captured (.exited status) (by simp) aside_opening (by simp) (by simp) (by simp) (by simp)

end Dump

namespace Restore
variable {u : Utility} {archive : Source} {steps : List Step}

/-- The utility was started without its input being captured. -/
def Uncaptured (steps : List Step) : Prop := ∃ command, ⟨.spawn command, .ok false⟩ ∈ steps

theorem aside_opening {password : Option Secret} :
    ∀ s ∈ opening u password, s.isAside = true := by
  simp [opening, Step.isAside, Step.line]

theorem Course.caredFor {r : Except Fault Unit} (h : Course u archive steps r) :
    CaredFor (Uncaptured steps) steps r := by
  cases h with
  | refused | unstarted => exact .childless (by simp [opening, Step.isAside, Step.line])
  | @uncaptured password killing killed =>
    exact .putDown (opening u password) [] killing [] (command u password) false (by simp)
      aside_opening (by simp) killed (by simp) (.inr ⟨command u password, by simp⟩)
  | fed password feed =>
    cases feed with
    | @cutInFeed feeding killing feed killed =>
      exact .putDown (opening u password) feeding killing [] (command u password) true (by simp)
        aside_opening feed.aside killed (by simp) (.inl (feed.overtaken_iff.mpr rfl))
    | @cutInWait feeding killing _ closed feed ended killed =>
      refine .putDown (opening u password)
        (feeding ++ [⟨.closeInput, closed⟩, ⟨.wait, .interrupted⟩]) killing [] (command u password)
        true (by simp) aside_opening ?_ killed (by simp) (.inl (by simp))
      simpa [Step.isAside, or_imp, forall_and] using feed.aside
    | @settled feeding _ closed waited feed ended gone =>
      refine .awaited (opening u password) (feeding ++ [⟨.closeInput, closed⟩]) (logSteps _)
        (command u password) true waited (by rw [List.append_assoc]; rfl) aside_opening ?_
        isAside_logSteps gone fun _ => isCancelled_of_outcome
      simpa [Step.isAside, or_imp, forall_and] using feed.aside

end Restore

/-- No process is left behind by a stage, whatever the utility, the archive and the moment of a
cancellation. -/
theorem no_child_left {d : Dump} {u : Utility} {archive : Source} {dumping restoring : List Step}
    {dumped : Except Fault String} {restored : Except Fault Unit}
    (hdump : Yields d.stage dumping dumped)
    (hrestore : Yields (Restore.apply u archive) restoring restored) :
    (∀ l, Along Lives .unborn dumping l → NoneLeft False dumping dumped l) ∧
    ∀ l, Along Lives .unborn restoring l →
      NoneLeft (Restore.Uncaptured restoring) restoring restored l :=
  ⟨fun _ => (Dump.course_of_yields hdump).caredFor.noneLeft,
    fun _ => (Restore.course_of_yields hrestore).caredFor.noneLeft⟩

/-- A run whose token fires while the utility is waited for, and what becomes of the signal. -/
def overtaking (signalled : Except IoFault Unit) : Handler Unit := fun c s =>
  match c with
  | .wait => (.interrupted, s)
  | .kill => (signalled, s)
  | c => obliging false c s

/-- A utility that outlives the token is killed; one that has gone before it, with a part of the
archive still to come, has been reaped by then and is given no signal. -/
theorem no_child_left_overtaken :
    let u : Utility := .ofConfig {} {} defaultRestoreProgram
    let d : Dump := ⟨u, "/tmp"⟩
    let archive : Source := ⟨[⟨#[1, 2, 3]⟩], .stalled⟩
    let dumping := d.stage.course (overtaking (.ok ())) ()
    let restoring := (Restore.apply u archive).course (overtaking (.error Host.killFault)) ()
    let dumped : Except Fault String := .error (.cancelled s!"dumping database '{u.database}'")
    let restored : Except Fault Unit := .error (Restore.overtaken u)
    Yields d.stage dumping dumped ∧ Yields (Restore.apply u archive) restoring restored ∧
      Along Lives .unborn dumping (.reaped .killed) ∧ Along Lives .unborn restoring (.reaped .own) ∧
      NoneLeft False dumping dumped (.reaped .killed) ∧
      NoneLeft (Restore.Uncaptured restoring) restoring restored (.reaped .own) := by
  intro u d archive dumping restoring dumped restored
  have hdump : Yields d.stage dumping dumped := yields_course (overtaking (.ok ())) d.stage ()
  have hrestore : Yields (Restore.apply u archive) restoring restored :=
    yields_course (overtaking (.error Host.killFault)) (Restore.apply u archive) ()
  have hdumping : dumping = d.opening "/staged" none ++
      [⟨.spawn (d.command "/staged" none), .ok true⟩, ⟨.wait, .interrupted⟩, ⟨.kill, .ok ()⟩,
      ⟨.reap, .ok .success⟩, .line (Dump.retained "/staged")] := rfl
  have hrestoring : restoring = Restore.opening u none ++
      [⟨.spawn (Restore.command u none), .ok true⟩, ⟨.pause, false⟩,
      ⟨.offer ⟨#[1, 2, 3]⟩, .accepted⟩, ⟨.pause, false⟩, ⟨.stall, ()⟩,
      ⟨.kill, .error Host.killFault⟩,
      .line ⟨.warn, s!"unable to signal child process: {Host.killFault.text}"⟩] := rfl
  have hkilled : Along Lives .unborn dumping (.reaped .killed) := by
    rw [hdumping]
    exact along_append.mpr ⟨.unborn, along_stays Dump.aside_opening,
      along_cons.mpr ⟨.running, .stays _, along_cons.mpr ⟨.running, .stays _,
      along_cons.mpr ⟨.gone .killed, ⟨_, .stays _, .running⟩,
      along_cons.mpr ⟨.reaped .killed, ⟨_, rfl, .noted _⟩, along_stays (by simp)⟩⟩⟩⟩⟩
  have hgone : Along Lives .unborn restoring (.reaped .own) := by
    rw [hrestoring]
    -- the process goes while the archive stalls, and the wait beside the feed takes note of it
    exact along_append.mpr ⟨.unborn, along_stays Restore.aside_opening,
      along_cons.mpr ⟨.running, .stays _, along_cons.mpr ⟨.running, .stays _,
      along_cons.mpr ⟨.running, .stays _, along_cons.mpr ⟨.running, .stays _,
      along_cons.mpr ⟨.reaped .own, .ends_noted, along_cons.mpr ⟨.reaped .own, ⟨_, rfl, rfl⟩,
      along_stays (by simp)⟩⟩⟩⟩⟩⟩⟩
  obtain ⟨hdumped, hrestored⟩ := no_child_left hdump hrestore
  exact ⟨hdump, hrestore, hkilled, hgone, hdumped _ hkilled, hrestored _ hgone⟩

end DumpVault
