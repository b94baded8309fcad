import DumpVault.Proofs.FailFast
import DumpVault.Proofs.Histories

/-!
# Uploads under way

An upload that is under way has taken the first steps of one that has come to its end. So it has
used its writer in order so far, and once the writer is finalized nothing more is said to the store:
what the writer has taken in are the bytes of the staging file, all of them unless the copy failed.
-/
namespace DumpVault
open Prog

namespace Prog

/-- After these steps of a run, `left` is left of it. -/
inductive Reaches {α : Type} : Prog α → List Step → Prog α → Prop
  | start (p : Prog α) : Reaches p [] p
  | call {c : Call} {next : Reply c → Prog α} {r : Reply c} {steps : List Step} {left : Prog α} :
    Reaches (next r) steps left → Reaches (.call c next) (⟨c, r⟩ :: steps) left

variable {α : Type} {p left : Prog α} {steps more : List Step} {a : α}

theorem Reaches.step {c : Call} {next : Reply c → Prog α} (h : Reaches p steps (.call c next))
    (r : Reply c) : Reaches p (steps ++ [⟨c, r⟩]) (next r) := by
  generalize hleft : Prog.call c next = left at h
  induction h with
  | start =>
    subst hleft
    exact .call (.start _)
  | call _ ih => exact .call (ih hleft)

theorem Reaches.yields (h : Reaches p steps left) (hleft : Yields left more a) :
    Yields p (steps ++ more) a := by
  induction h with
  | start => exact hleft
  | call _ ih => exact .call (ih hleft)

theorem Reaches.exists_yields (h : Reaches p steps left) : ∃ more a, Yields p (steps ++ more) a :=
  ⟨_, _, h.yields (yields_course (obliging false) left ())⟩

end Prog

variable {bucket path : String} {key k l : Key} {past steps more writes : List Step} {s : Step}
  {w : Writer} {faults : List Fault} {result : Except Fault Key} {left : Prog (Except Fault Key)}

theorem keyOf?_visible : keyOf? (visible past) w = keyOf? past w := by
  rw [keyOf?, keyOf?, filterMap_visible]
  rintro ⟨c, r⟩ hs
  cases c <;> first | rfl | cases hs

theorem ended_visible : ended (visible past) = ended past := by
  rw [ended, ended, filterMap_visible]
  rintro ⟨c, r⟩ hs
  cases c <;> first | rfl | cases hs

theorem allowed_of_unused (h : s.writer? = none) : Allowed past s := by
  intro w hw
  rw [h] at hw
  cases hw

theorem owned_of_visible (h : Owned (visible past) (visible steps)) : Owned past steps := by
  induction steps generalizing past with
  | nil => trivial
  | cons s steps ih =>
    rw [visible_cons] at h
    cases hs : s.isVisible with
    | true =>
      rw [hs, if_pos rfl] at h
      refine ⟨fun w hw => ?_, ih ?_⟩
      · rw [← keyOf?_visible, ← ended_visible]
        exact h.1 w hw
      · simpa [visible_cons, hs] using h.2
    | false =>
      rw [hs, if_neg Bool.false_ne_true] at h
      refine ⟨allowed_of_unused ?_, ih ?_⟩
      · obtain ⟨c, r⟩ := s
        cases c <;> first | rfl | cases hs
      · simpa [visible_cons, hs] using h

/-- Writes to an open writer, none of which gives it up. -/
theorem owned_of_writes (hopen : (keyOf? past w).isSome) (hlive : w ∉ ended past)
    (h : ∀ s ∈ writes, ∃ chunk taken, s = ⟨.write w chunk, taken⟩) :
    Owned past writes ∧ (keyOf? (past ++ writes) w).isSome ∧ w ∉ ended (past ++ writes) := by
  induction writes generalizing past with
  | nil => simpa using ⟨trivial, hopen, hlive⟩
  | cons s writes ih =>
    obtain ⟨chunk, taken, rfl⟩ := h s List.mem_cons_self
    have hopen' : (keyOf? (past ++ [⟨.write w chunk, taken⟩]) w).isSome := by
      rwa [keyOf?_append_of_isSome hopen]
    have hlive' : w ∉ ended (past ++ [⟨.write w chunk, taken⟩]) := by
      simpa [ended_append, ended, Step.ended?] using hlive
    have hrest := ih hopen' hlive' fun s hs => h s (List.mem_cons_of_mem _ hs)
    rw [List.append_assoc, List.singleton_append] at hrest
    refine ⟨⟨fun v hv => ?_, hrest.1⟩, hrest.2⟩
    obtain rfl := Option.some.inj hv
    exact ⟨hopen, hlive⟩

theorem owned_of_unused (h : ∀ s ∈ steps, s.writer? = none) : Owned past steps := by
  induction steps generalizing past with
  | nil => trivial
  | cons s steps ih =>
    exact ⟨allowed_of_unused (h s List.mem_cons_self),
      ih fun t ht => h t (List.mem_cons_of_mem _ ht)⟩

/-- An upload's calls until it has its writer. -/
def untilOpened (path : String) (key : Key) (file : Source) (w : Writer) : List Step :=
  [⟨.exists key, .ok false⟩, ⟨.openFile path, .ok file⟩, ⟨.openWriter key, .ok w⟩]

theorem open_untilOpened (path : String) (key : Key) (file : Source) (w : Writer) :
    (keyOf? (untilOpened path key file w) w).isSome ∧ w ∉ ended (untilOpened path key file w) := by
  simp [untilOpened, keyOf?, Step.opening?, ended, Step.ended?]

theorem UploadWord.owned (h : UploadWord bucket path key steps faults) : Owned [] steps := by
  cases h with
  | lookupFailed | taken | unreadable | unopened => exact owned_of_unused (by simp [Step.writer?])
  | @ended file w writes copy reply copying =>
    have hopened : Owned [] (untilOpened path key file w) :=
      owned_of_unused (by simp [untilOpened, Step.writer?])
    obtain ⟨hopen, hlive⟩ := open_untilOpened path key file w
    obtain ⟨hwrites, hopen', hlive'⟩ := owned_of_writes hopen hlive copying.exists_write
    change Owned [] (untilOpened path key file w ++ (writes ++ [copy.closing w reply]))
    rw [owned_append, List.nil_append, owned_append]
    refine ⟨hopened, hwrites, fun v hv => ?_, trivial⟩
    obtain rfl : w = v := by cases copy <;> exact Option.some.inj hv
    exact ⟨hopen', hlive'⟩

/-- An upload uses its writer between its opening and its end only. -/
theorem owned_of_reaches (h : Reaches (upload bucket path) steps left) : Owned [] steps := by
  obtain ⟨more, result, hyields⟩ := h.exists_yields
  obtain ⟨_, _, _, hword, _⟩ := upload_course hyields
  have howned : Owned [] (steps ++ more) := owned_of_visible hword.owned
  exact (owned_append.mp howned).1

/-- A copy has failed, at reading or at writing. -/
def CopyFailed (file : Source) (steps : List Step) : Prop :=
  (∃ fault, file.ending = .failed fault) ∨ ∃ w chunk fault, ⟨.write w chunk, .failed fault⟩ ∈ steps

/-- These steps of one upload have published the content at a path: all chunks that were taken in,
which are the staging file or, if the copy failed, its beginning. -/
structure Publishes (path : String) (steps : List Step) (p : StorePath) (content : ByteArray) :
    Prop where
  minted : ∃ t, readings steps = [t] ∧ p = .ofKey (.mint t)
  finalized : ∃ w, ⟨.finalize w, .ok ()⟩ ∈ steps
  chunks : content = joined (accepted steps)
  staging : ∃ file, ⟨.openFile path, .ok file⟩ ∈ steps ∧ (∃ rest, file.bytes = content ++ rest) ∧
    (¬ CopyFailed file steps → content = file.bytes)

/-- A lookup is the first that an upload says, and it is the only one. -/
theorem UploadWord.exists_first (h : UploadWord bucket path key steps faults) :
    ∃ r rest, steps = ⟨.exists key, r⟩ :: rest ∧ ∀ s ∈ rest, ∀ k, s.call ≠ .exists k := by
  cases h with
  | lookupFailed | taken | unreadable | unopened => exact ⟨_, _, rfl, by simp⟩
  | @ended file w writes copy reply copying =>
    refine ⟨_, _, rfl, fun s hs k => ?_⟩
    simp only [List.mem_cons, List.mem_append, List.not_mem_nil, or_false] at hs
    rcases hs with rfl | rfl | hs | rfl
    · simp
    · simp
    · obtain ⟨chunk, taken, rfl⟩ := copying.exists_write s hs
      simp
    · cases copy <;> simp [CopyEnd.closing]

theorem UploadWord.nothing_before_lookup {before after : List Step} {r : Reply (.exists k)}
    (h : UploadWord bucket path key (before ++ ⟨.exists k, r⟩ :: after) faults) :
    before = [] ∧ k = key := by
  obtain ⟨first, rest, hsplit, hrest⟩ := h.exists_first
  cases before with
  | nil =>
    have hcall : Call.exists k = .exists key := congrArg Step.call (List.cons.inj hsplit).1
    exact ⟨rfl, Call.exists.inj hcall⟩
  | cons s before =>
    have hmem : ⟨.exists k, r⟩ ∈ rest := by
      rw [← (List.cons.inj hsplit).2]
      simp
    exact absurd rfl (hrest _ hmem k)

/-- What an upload says before it finalizes its writer, which is the last that it says. -/
theorem UploadWord.finalized_last (h : UploadWord bucket path key steps faults)
    (hmem : ⟨.finalize w, .ok ()⟩ ∈ steps) : ∃ file writes copy,
      steps = untilOpened path key file w ++ writes ++ [⟨.finalize w, .ok ()⟩] ∧
      CopyWord w file.ending 0 (file.reads copyLimit) writes copy ∧ copy ≠ .interrupted := by
  cases h with
  | lookupFailed | taken | unreadable | unopened => simp at hmem
  | @ended file v writes copy reply copying =>
    have hclosing : ⟨.finalize w, .ok ()⟩ = copy.closing v reply := by
      simp only [List.mem_cons, List.mem_append, List.not_mem_nil, or_false] at hmem
      rcases hmem with h | h | h | h | h
      · cases h
      · cases h
      · cases h
      · obtain ⟨chunk, taken, heq⟩ := copying.exists_write _ h
        cases heq
      · exact h
    rw [← hclosing]
    cases copy with
    | interrupted => cases hclosing
    | copied | failed =>
      cases hclosing
      exact ⟨file, writes, _, rfl, copying, by simp⟩

theorem readings_of_started (h : Yields (upload bucket path) (steps ++ more) result)
    (hne : steps ≠ []) : readings steps = readings (steps ++ more) := by
  obtain ⟨t, rest, hsteps, _⟩ := yields_ask_bind.mp h
  obtain ⟨u, _, hreadings, _⟩ := upload_course h
  cases steps with
  | nil => exact absurd rfl hne
  | cons s steps =>
    obtain ⟨rfl, _⟩ := List.cons.inj hsteps
    rw [readings_append] at hreadings ⊢
    have hnone : readings more = [] := by
      simp only [readings_cons, Step.reading?, Option.toList_some, List.cons_append,
        List.cons.injEq, List.nil_append, List.append_eq_nil_iff] at hreadings
      exact hreadings.2.2
    rw [hnone, List.append_nil]

theorem eq_concat_of_mem {quiet : List Step} (h : steps ++ more = quiet ++ [s]) (hmem : s ∈ steps)
    (hs : s ∉ quiet) : steps = quiet ++ [s] := by
  obtain ⟨before, after, rfl⟩ := List.append_of_mem hmem
  rw [List.append_assoc, List.cons_append] at h
  obtain ⟨further, rfl⟩ := prefix_of_notMem h hs
  rw [List.append_assoc, List.append_cancel_left_eq] at h
  cases further with
  | nil =>
    obtain ⟨rfl, _⟩ := List.append_eq_nil_iff.mp (List.cons.inj h).2
    rw [List.append_nil]
  | cons => simp at h

theorem exists_write_of_accepted {chunk : ByteArray} (h : s.accepted? = some chunk) :
    ∃ v, s = ⟨.write v chunk, .accepted⟩ := by
  obtain ⟨c, r⟩ := s
  cases c with
  | write v _ =>
    cases r with
    | accepted =>
      cases h
      exact ⟨v, rfl⟩
    | failed | interrupted => cases h
  | _ => cases h

/-- An upload that has finalized its writer has nothing more to say. It has published what it has
copied. -/
theorem publishes_of_finalized (h : Reaches (upload bucket path) steps left)
    (hmem : ⟨.finalize w, .ok ()⟩ ∈ steps) :
    ∃ t, ⟨.exists (.mint t), .ok false⟩ ∈ steps ∧ ⟨.openWriter (.mint t), .ok w⟩ ∈ steps ∧
      Publishes path steps (.ofKey (.mint t)) (written steps w) := by
  obtain ⟨more, result, hyields⟩ := h.exists_yields
  obtain ⟨t, faults, hreadings, hword, _⟩ := upload_course hyields
  rw [← readings_of_started hyields (List.ne_nil_of_mem hmem)] at hreadings
  have hfinalize : ⟨.finalize w, .ok ()⟩ ∈ visible steps := (mem_visible rfl).mpr hmem
  rw [visible_append] at hword
  obtain ⟨file, writes, copy, hsplit, copying, hcopy⟩ :=
    hword.finalized_last (List.mem_append_left _ hfinalize)
  have hnot : ⟨.finalize w, .ok ()⟩ ∉ untilOpened path (.mint t) file w ++ writes := by
    intro hin
    rcases List.mem_append.mp hin with hin | hin
    · simp [untilOpened] at hin
    · obtain ⟨_, _, heq⟩ := copying.exists_write _ hin
      cases heq
  have hvisible := eq_concat_of_mem hsplit hfinalize hnot
  have hsaid : ∀ s : Step, s.isVisible = true →
      (s ∈ steps ↔ s ∈ untilOpened path (.mint t) file w ++ writes ++ [⟨.finalize w, .ok ()⟩]) := by
    intro s hs
    rw [← hvisible, mem_visible hs]
  have htaken : accepted steps = accepted writes := by
    have hfirst : accepted (untilOpened path (.mint t) file w) = [] := rfl
    have hlast : accepted [⟨.finalize w, .ok ()⟩] = [] := rfl
    rw [← accepted_visible, hvisible, accepted_append, accepted_append, hfirst, hlast,
      List.nil_append, List.append_nil]
  have hwritten : written steps w = joined (accepted steps) := by
    refine written_of_sole fun s hs chunk hchunk => ?_
    obtain ⟨v, rfl⟩ := exists_write_of_accepted hchunk
    have hword := (hsaid _ rfl).mp hs
    simp only [untilOpened, List.mem_append, List.mem_cons, List.not_mem_nil, or_false] at hword
    rcases hword with ((h | h | h) | h) | h
    · cases h
    · cases h
    · cases h
    · obtain ⟨_, _, heq⟩ := copying.exists_write _ h
      cases heq
      rfl
    · cases h
  obtain ⟨rest, hrest⟩ := copying.accepted_prefix
  have hbytes : file.bytes = joined (accepted writes) ++ joined rest := by
    rw [← joined_append, ← hrest, joined_reads (by decide)]
  refine ⟨t, (hsaid _ rfl).mpr (by simp [untilOpened]), (hsaid _ rfl).mpr (by simp [untilOpened]),
    ⟨t, hreadings, rfl⟩, ⟨w, hmem⟩, hwritten, file, (hsaid _ rfl).mpr (by simp [untilOpened]),
    ?_, ?_⟩
  · rw [hwritten, htaken]
    exact ⟨_, hbytes⟩
  · intro hfailed
    rw [hwritten, htaken]
    cases copying with
    | copied whole => rw [accepted_acceptedWrites, joined_reads (by decide)]
    | readFailed fault broken => exact absurd (.inl ⟨fault, broken⟩) hfailed
    | writeFailed done rest chunk fault cut =>
      refine absurd (.inr ⟨w, chunk, fault, (hsaid _ rfl).mpr ?_⟩) hfailed
      simp
    | unfinished | cancelled => exact absurd rfl hcopy

end DumpVault
