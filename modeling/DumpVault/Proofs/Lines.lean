import DumpVault.Proofs.Applying
import DumpVault.Proofs.Uploads

/-!
# Whose lines they are

Every line of the log begins with words of its own, whatever names, paths and faults follow. From
its level and its beginning it can be told which part of a run has written it, so that a line of one
part is never taken for a line of another.
-/
namespace DumpVault
open Prog

/-- Levels together with the words that lines of this level begin with. -/
abbrev Openings := List (Level × String)

def Line.Opens (openings : Openings) (line : Line) : Prop :=
  ∃ o ∈ openings, line.level = o.1 ∧ o.2.toList <+: line.text.toList

/-- No line begins in both ways. -/
def Openings.Apart (a b : Openings) : Prop :=
  ∀ o ∈ a, ∀ p ∈ b, o.1 = p.1 → ¬ o.2.toList <+: p.2.toList ∧ ¬ p.2.toList <+: o.2.toList

instance (a b : Openings) : Decidable (a.Apart b) := by
  unfold Openings.Apart
  infer_instance

theorem Line.Opens.mono {a b : Openings} {line : Line} (h : line.Opens a) (hab : a ⊆ b) :
    line.Opens b := by
  obtain ⟨o, ho, hlevel, htext⟩ := h
  exact ⟨o, hab ho, hlevel, htext⟩

theorem Line.Opens.not_opens {a b : Openings} {line : Line} (h : line.Opens a) (hab : a.Apart b) :
    ¬ line.Opens b := by
  rintro ⟨p, hp, hlevel', htext'⟩
  obtain ⟨o, ho, hlevel, htext⟩ := h
  obtain ⟨hop, hpo⟩ := hab o ho p hp (hlevel.symm.trans hlevel')
  rcases List.prefix_or_prefix_of_prefix htext htext' with hle | hle
  · exact hop hle
  · exact hpo hle

namespace Prog

def Step.line? : Step → Option Line
  | ⟨.log line, _⟩ => some line
  | _ => none

/-- The lines that a course writes into the log. -/
def logged (steps : List Step) : List Line := steps.filterMap Step.line?

@[simp] theorem logged_nil : logged [] = [] := rfl

@[simp] theorem logged_append {steps more : List Step} :
    logged (steps ++ more) = logged steps ++ logged more := List.filterMap_append

theorem logged_cons {s : Step} {steps : List Step} :
    logged (s :: steps) = s.line?.toList ++ logged steps := by
  cases h : s.line? <;> simp [logged, h]

@[simp] theorem logged_line {line : Line} {steps : List Step} :
    logged (.line line :: steps) = line :: logged steps := rfl

@[simp] theorem logged_logSteps (lines : List Line) : logged (logSteps lines) = lines := by
  induction lines with
  | nil => rfl
  | cons line lines ih =>
    rw [logSteps, List.map_cons, logged_cons, ← logSteps, ih]
    rfl

theorem mem_logged {line : Line} {steps : List Step} :
    line ∈ logged steps ↔ .line line ∈ steps := by
  simp only [logged, List.mem_filterMap]
  constructor
  · rintro ⟨⟨c, r⟩, hs, hline⟩
    cases c with
    | log l => cases hline; exact hs
    | _ => cases hline
  · exact fun h => ⟨_, h, rfl⟩

/-- All lines of a course begin in one of these ways. -/
def Says (openings : Openings) (steps : List Step) : Prop :=
  ∀ line ∈ logged steps, line.Opens openings

variable {a b : Openings} {steps more : List Step}

theorem Says.mono (h : Says a steps) (hab : a ⊆ b) : Says b steps := fun line hline =>
  (h line hline).mono hab

@[simp] theorem says_nil : Says a [] := by simp [Says]

@[simp] theorem says_append : Says a (steps ++ more) ↔ Says a steps ∧ Says a more := by
  simp only [Says, logged_append, List.mem_append, or_imp, forall_and]

@[simp] theorem says_line {line : Line} :
    Says a (.line line :: steps) ↔ line.Opens a ∧ Says a steps := by
  simp only [Says, logged_line, List.forall_mem_cons]

theorem says_step {s : Step} (hs : s.line? = none) : Says a (s :: steps) ↔ Says a steps := by
  rw [Says, logged_cons, hs]
  rfl

end Prog

/-- A line that is written begins in one of these ways. -/
def Call.writes (openings : Openings) : Call → Prop
  | .log line => line.Opens openings
  | _ => True

theorem says_of_only {α : Type} {openings : Openings} {p : Prog α} {steps : List Step} {a : α}
    (hp : p.Only (Call.writes openings)) (h : Yields p steps a) : Says openings steps :=
  fun _ hline => hp.mem h _ (mem_logged.mp hline)

theorem discarded_opens (fault : Fault) :
    (FirstFault.discarded fault).Opens [(.warn, "discarding subsequent error: ")] :=
  ⟨_, List.mem_singleton_self _, rfl, by simp [FirstFault.discarded, toString]⟩

theorem Utility.PutDown.spoken {steps : List Step} (h : Utility.PutDown steps) :
    Says [(.warn, "unable to signal child process: "),
      (.warn, "unable to reap killed child process: ")] steps := by
  cases h with
  | unsignalled fault =>
    refine (says_step rfl).mpr (says_line.mpr ⟨⟨_, List.mem_cons_self, rfl, ?_⟩, says_nil⟩)
    simp [toString]
  | unreaped fault =>
    refine (says_step rfl).mpr ((says_step rfl).mpr
      (says_line.mpr ⟨⟨_, List.mem_cons_of_mem _ List.mem_cons_self, rfl, ?_⟩, says_nil⟩))
    simp [toString]
  | reaped status => exact (says_step rfl).mpr ((says_step rfl).mpr says_nil)

theorem Utility.announced_opens (u : Utility) (args : List String) :
    (u.announced args).Opens [(.debug, "prepared ")] :=
  ⟨_, List.mem_singleton_self _, rfl, by simp [Utility.announced, toString]⟩

namespace Dump

/-- How the lines of a dump begin. -/
def openings : Openings := [(.info, "dumping database "), (.debug, "prepared "),
  (.debug, "dump of "), (.warn, "staging file "), (.warn, "unable to signal child process: "),
  (.warn, "unable to reap killed child process: ")]

variable {d : Dump} {steps : List Step}

theorem begun_opens (d : Dump) (path : String) : (d.begun path).Opens openings :=
  ⟨(.info, "dumping database "), by simp [openings], rfl, by simp [begun, toString]⟩

theorem completed_opens (d : Dump) : d.completed.Opens openings :=
  ⟨(.debug, "dump of "), by simp [openings], rfl, by simp [completed, toString]⟩

theorem retained_opens (path : String) : (retained path).Opens openings :=
  ⟨(.warn, "staging file "), by simp [openings], rfl, by simp [retained, toString]⟩

theorem Ends.spoken {command : Command} {fault : Option Fault} (h : d.Ends command steps fault) :
    Says openings steps := by
  cases h with
  | unstarted => exact (says_step rfl).mpr says_nil
  | lost | failed | succeeded => exact (says_step rfl).mpr ((says_step rfl).mpr says_nil)
  | overtaken captured killed =>
    exact (says_step rfl).mpr ((says_step rfl).mpr (killed.spoken.mono (by simp [openings])))

theorem says_opening (path : String) (password : Option Secret) :
    Says openings (d.opening path password) := by
  refine (says_step rfl).mpr (says_line.mpr ⟨begun_opens d path, (says_step rfl).mpr ?_⟩)
  exact says_line.mpr
    ⟨(Utility.announced_opens d.utility _).mono (by simp [openings]), says_nil⟩

theorem Course.spoken {r : Except Fault String} (h : d.Course steps r) : Says openings steps := by
  cases h with
  | uncreated => exact (says_step rfl).mpr says_nil
  | refused path fault =>
    exact (says_step rfl).mpr (says_line.mpr ⟨begun_opens d path, (says_step rfl).mpr
      (says_line.mpr ⟨retained_opens path, says_nil⟩)⟩)
  | failed path password ends =>
    exact says_append.mpr ⟨says_opening path password,
      says_append.mpr ⟨ends.spoken, says_line.mpr ⟨retained_opens path, says_nil⟩⟩⟩
  | dumped path password ends =>
    exact says_append.mpr ⟨says_opening path password,
      says_append.mpr ⟨ends.spoken, says_line.mpr ⟨completed_opens d, says_nil⟩⟩⟩

end Dump

namespace Archiver

/-- How the lines of an upload and of what follows it begin. -/
def uploadOpenings : Openings := [(.info, "uploading "), (.debug, "copied "),
  (.warn, "discarding subsequent error: "), (.info, "stored archive "), (.info, "staging file "),
  (.warn, "unable to remove staging file ")]

theorem writes_copyChunks (w : Writer) (ending : Ending) (chunks : List ByteArray) (total : Nat) :
    (copyChunks w ending chunks total).Only (Call.writes uploadOpenings) := by
  induction chunks generalizing total with
  | nil =>
    refine only_ask_bind trivial fun cut => ?_
    cases cut with
    | true => exact only_pure _
    | false =>
      cases ending with
      | complete | failed => exact only_pure _
      | stalled => exact only_ask_bind trivial fun _ => only_pure _
  | cons chunk chunks ih =>
    refine only_ask_bind trivial fun cut => ?_
    cases cut with
    | true => exact only_pure _
    | false =>
      refine only_ask_bind trivial fun taken => ?_
      cases taken with
      | accepted => exact ih _
      | failed | interrupted => exact only_pure _

theorem writes_endUpload (w : Writer) (path target : String) (key : Key) (copy : CopyEnd) :
    (endUpload w path target key copy).Only (Call.writes uploadOpenings) := by
  have hrecord : ∀ a r, (record a r).Only (Call.writes uploadOpenings) := fun a r =>
    only_record fun fault => (discarded_opens fault).mono (by simp [uploadOpenings])
  have hfinalize : (finalizeWriter w target).Only (Call.writes uploadOpenings) :=
    only_ask_bind trivial fun r => by cases r <;> exact only_pure _
  have habort : (abortWriter w target).Only (Call.writes uploadOpenings) :=
    only_ask_bind trivial fun r => by cases r <;> exact only_pure _
  cases copy with
  | copied n =>
    refine only_ask_bind ?_ fun _ => only_bind hfinalize fun _ => hrecord _ _
    exact ⟨(.debug, "copied "), by simp [uploadOpenings], rfl, by simp [toString]⟩
  | failed fault =>
    exact only_bind (hrecord _ _) fun _ => only_bind hfinalize fun _ => hrecord _ _
  | interrupted => exact only_bind (hrecord _ _) fun _ => only_bind habort fun _ => hrecord _ _

theorem writes_uploadFrom (bucket path : String) (key : Key) (file : Source) :
    (uploadFrom bucket path key file).Only (Call.writes uploadOpenings) := by
  refine only_ask_bind
    ⟨(.info, "uploading "), by simp [uploadOpenings], rfl, by simp [toString]⟩ fun _ => ?_
  refine only_ask_bind trivial fun opened => ?_
  cases opened with
  | error fault => exact only_pure _
  | ok w =>
    have hcopy : (copyInto w file).Only (Call.writes uploadOpenings) :=
      copyInto_eq w file ▸ writes_copyChunks _ _ _ _
    refine only_bind hcopy fun copy =>
      only_bind (writes_endUpload _ _ _ _ _) fun faults => ?_
    cases faults.finish _ with
    | error fault => exact only_pure _
    | ok key =>
      refine only_ask_bind ?_ fun _ => only_pure _
      exact ⟨(.info, "stored archive "), by simp [uploadOpenings], rfl, by simp [toString]⟩

theorem writes_upload (bucket path : String) :
    (upload bucket path).Only (Call.writes uploadOpenings) := by
  refine only_ask_bind trivial fun now => only_ask_bind trivial fun found => ?_
  match found with
  | .error fault => exact only_pure _
  | .ok true => exact only_pure _
  | .ok false =>
    refine only_ask_bind trivial fun opened => ?_
    cases opened with
    | error source => exact only_pure _
    | ok file => exact writes_uploadFrom _ _ _ _

theorem CleanedUp.spoken {a : Archiver} {path : String} {steps : List Step}
    (h : a.CleanedUp path steps) : Says uploadOpenings steps := by
  cases h with
  | retained =>
    refine says_line.mpr ⟨⟨(.info, "staging file "), by simp [uploadOpenings], rfl, ?_⟩, says_nil⟩
    simp [toString]
  | removed => exact (says_step rfl).mpr says_nil
  | unremoved retain fault =>
    refine (says_step rfl).mpr (says_line.mpr ⟨⟨(.warn, "unable to remove staging file "),
      by simp [uploadOpenings], rfl, ?_⟩, says_nil⟩)
    simp [toString]

end Archiver

namespace Restore

/-- How the lines of a restore utility begin. -/
def openings : Openings := [(.info, "restoring database "), (.debug, "prepared "), (.debug, "fed "),
  (.warn, "discarding subsequent error: "), (.warn, "unable to signal child process: "),
  (.warn, "unable to reap killed child process: ")]

variable {u : Utility} {archive : Source} {steps : List Step}

theorem says_offered (chunks : List ByteArray) : Says openings (offered chunks) := by
  induction chunks with
  | nil => exact says_nil
  | cons chunk chunks ih => exact (says_step rfl).mpr ((says_step rfl).mpr ih)

theorem says_fed {ending : Ending} {total : Nat} {chunks : List ByteArray} {fed : FeedEnd}
    (h : Fed ending total chunks steps fed) : Says openings steps := by
  cases h with
  | whole | readFailed | cancelled =>
    exact says_append.mpr ⟨says_offered _, (says_step rfl).mpr says_nil⟩
  | stalled | refused | unfinished =>
    exact says_append.mpr
      ⟨says_offered _, (says_step rfl).mpr ((says_step rfl).mpr says_nil)⟩

theorem says_putDown (h : Utility.PutDown steps) : Says openings steps :=
  h.spoken.mono (by simp [openings])

theorem said_opens (fed : FeedEnd) : ∀ line ∈ fed.said u, line.Opens openings := by
  cases fed with
  | fed bytes =>
    rintro line hline
    obtain rfl := List.mem_singleton.mp hline
    exact ⟨(.debug, "fed "), by simp [openings], rfl, by simp [toString]⟩
  | readFailed | writeFailed | interrupted => simp [FeedEnd.said]

theorem Feeding.spoken {r : Except Fault Unit} (h : Feeding u archive steps r) :
    Says openings steps := by
  cases h with
  | cutInFeed feed killed => exact says_append.mpr ⟨says_fed feed, says_putDown killed⟩
  | cutInWait closed feed ended killed =>
    exact says_append.mpr
      ⟨says_fed feed, (says_step rfl).mpr ((says_step rfl).mpr (says_putDown killed))⟩
  | settled closed waited feed ended gone =>
    refine says_append.mpr ⟨says_fed feed, (says_step rfl).mpr ((says_step rfl).mpr ?_)⟩
    intro line hline
    rw [logged_logSteps, List.mem_append, List.mem_map] at hline
    obtain hline | ⟨fault, _, rfl⟩ := hline
    · exact said_opens _ line hline
    · exact (discarded_opens fault).mono (by simp [openings])

theorem begun_opens (u : Utility) : (begun u).Opens openings :=
  ⟨(.info, "restoring database "), by simp [openings], rfl, by simp [begun, toString]⟩

theorem says_opening (password : Option Secret) : Says openings (opening u password) := by
  refine says_line.mpr ⟨begun_opens u, (says_step rfl).mpr (says_line.mpr ⟨?_, says_nil⟩)⟩
  exact (Utility.announced_opens u _).mono (by simp [openings])

theorem Course.spoken {r : Except Fault Unit} (h : Course u archive steps r) :
    Says openings steps := by
  cases h with
  | refused => exact says_line.mpr ⟨begun_opens u, (says_step rfl).mpr says_nil⟩
  | unstarted password =>
    exact says_append.mpr ⟨says_opening password, (says_step rfl).mpr says_nil⟩
  | uncaptured password killed =>
    exact says_append.mpr ⟨says_opening password, (says_step rfl).mpr (says_putDown killed)⟩
  | fed password feed =>
    exact says_append.mpr ⟨says_opening password, (says_step rfl).mpr feed.spoken⟩

end Restore
end DumpVault
