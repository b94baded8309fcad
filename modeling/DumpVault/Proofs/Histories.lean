import DumpVault.Proofs.Stock
import Mathlib.Data.List.Find

/-!
# Histories of a store

The calls on a store and the replies to them tell which writers were opened under which keys, what
each of them has taken in and which were finalized. So a history tells by itself what is published:
under the parts of a key, all that was written by the writer finalized last among those opened under
these parts.
-/
namespace DumpVault
open Prog

/-- The parts of a key, between its slashes; they alone tell which blob it names. -/
def Key.parts (k : Key) : List String := StorePath.split k.text

namespace Prog.Step

/-- The writer that is opened, with its key. -/
def opening? : Step → Option (Writer × Key)
  | ⟨.openWriter k, .ok w⟩ => some (w, k)
  | _ => none

/-- The writer that a call is made on. -/
def writer? : Step → Option Writer
  | ⟨.write w _, _⟩ | ⟨.finalize w, _⟩ | ⟨.abort w, _⟩ => some w
  | _ => none

def finalized? : Step → Option Writer
  | ⟨.finalize w, .ok _⟩ => some w
  | _ => none

/-- The writer that is given up, as finalizing and aborting do. -/
def ended? : Step → Option Writer
  | ⟨.finalize w, _⟩ | ⟨.abort w, _⟩ => some w
  | _ => none

/-- The writer that a step is about, whether it is opened or used. -/
def subject? (s : Step) : Option Writer := s.writer?.or (s.opening?.map Prod.fst)

end Prog.Step

def keyOf? (past : List Step) (w : Writer) : Option Key := (past.filterMap Step.opening?).lookup w

def finalized (past : List Step) : List Writer := past.filterMap Step.finalized?

def ended (past : List Step) : List Writer := past.filterMap Step.ended?

/-- The calls on one writer. -/
def callsOn (w : Writer) (past : List Step) : List Step := past.filter fun s => s.writer? = some w

/-- All that a writer has taken in. -/
def written (past : List Step) (w : Writer) : ByteArray := joined (accepted (callsOn w past))

/-- Of the writers opened under keys with these parts, the one that was finalized last. -/
def latest? (past : List Step) (parts : List String) : Option Writer :=
  (finalized past).reverse.find? fun w => (keyOf? past w).map Key.parts = some parts

def published? (past : List Step) (parts : List String) : Option ByteArray :=
  (latest? past parts).map (written past)

/-- After `past`, a step may use a writer that is open. -/
def Allowed (past : List Step) (s : Step) : Prop :=
  ∀ w ∈ s.writer?, (keyOf? past w).isSome ∧ w ∉ ended past

/-- After `past`, writers are used between their opening and their end only. -/
def Owned : List Step → List Step → Prop
  | _, [] => True
  | past, s :: steps => Allowed past s ∧ Owned (past ++ [s]) steps

variable {past more steps : List Step} {s : Step} {w v : Writer} {k l : Key} {parts : List String}
  {chunk : ByteArray}

theorem keyOf?_append : keyOf? (past ++ more) w = (keyOf? past w).or (keyOf? more w) := by
  simp only [keyOf?, List.filterMap_append, List.lookup_append]

theorem keyOf?_append_of_some (h : keyOf? past w = some k) :
    keyOf? (past ++ more) w = some k := by
  rw [keyOf?_append, h, Option.some_or]

theorem keyOf?_append_of_isSome (h : (keyOf? past w).isSome) :
    keyOf? (past ++ more) w = keyOf? past w := by
  obtain ⟨k, hk⟩ := Option.isSome_iff_exists.mp h
  rw [keyOf?_append_of_some hk, hk]

theorem keyOf?_concat_of_no_opening (h : s.opening? = none) :
    keyOf? (past ++ [s]) w = keyOf? past w := by
  have hnone : keyOf? [s] w = none := by simp [keyOf?, h]
  rw [keyOf?_append, hnone, Option.or_none]

theorem keyOf?_concat_opening_self (h : keyOf? past w = none) :
    keyOf? (past ++ [⟨.openWriter k, .ok w⟩]) w = some k := by
  rw [keyOf?_append, h, Option.none_or]
  simp [keyOf?, Step.opening?]

theorem keyOf?_concat_opening_of_ne (h : v ≠ w) :
    keyOf? (past ++ [⟨.openWriter k, .ok w⟩]) v = keyOf? past v := by
  have hne : (v == w) = false := by simpa using h
  rw [keyOf?_append]
  simp [keyOf?, Step.opening?, List.lookup_cons, hne]

theorem mem_of_keyOf? (h : keyOf? past w = some k) : ⟨.openWriter k, .ok w⟩ ∈ past := by
  obtain ⟨before, after, hopenings, _⟩ := List.lookup_eq_some_iff.mp h
  have hmem : (w, k) ∈ past.filterMap Step.opening? := by simp [hopenings]
  obtain ⟨⟨c, r⟩, hs, hopening⟩ := List.mem_filterMap.mp hmem
  cases c with
  | openWriter l =>
    cases r with
    | error fault => cases hopening
    | ok v =>
      cases hopening
      exact hs
  | _ => cases hopening

theorem keyOf?_isSome_of_mem (h : ⟨.openWriter k, .ok w⟩ ∈ past) : (keyOf? past w).isSome := by
  have hmem : (w, k) ∈ past.filterMap Step.opening? := List.mem_filterMap.mpr ⟨_, h, rfl⟩
  exact List.lookup_isSome_iff.mpr ⟨_, hmem, beq_self_eq_true w⟩

theorem mem_finalized_iff : w ∈ finalized past ↔ ⟨.finalize w, .ok ()⟩ ∈ past := by
  refine ⟨fun h => ?_, fun h => List.mem_filterMap.mpr ⟨_, h, rfl⟩⟩
  obtain ⟨⟨c, r⟩, hs, hfinalized⟩ := List.mem_filterMap.mp h
  cases c with
  | finalize v =>
    cases r with
    | error fault => cases hfinalized
    | ok =>
      cases hfinalized
      exact hs
  | _ => cases hfinalized

theorem mem_ended_of_mem_finalized (h : w ∈ finalized past) : w ∈ ended past :=
  List.mem_filterMap.mpr ⟨_, mem_finalized_iff.mp h, rfl⟩

theorem ended_append : ended (past ++ more) = ended past ++ ended more := List.filterMap_append

theorem ended_concat_of_not_ended (h : s.ended? = none) : ended (past ++ [s]) = ended past := by
  simp [ended, h]

theorem finalized_append : finalized (past ++ more) = finalized past ++ finalized more :=
  List.filterMap_append

theorem written_append :
    written (past ++ more) w = written past w ++ written more w := by
  simp only [written, callsOn, List.filter_append, accepted_append, joined_append]

theorem written_of_unused (h : ∀ s ∈ more, s.writer? ≠ some w) : written more w = .empty := by
  have hnone : callsOn w more = [] := List.filter_eq_nil_iff.mpr fun s hs => by simpa using h s hs
  rw [written, hnone]
  rfl

theorem written_concat_of_ne (h : s.writer? ≠ some w) :
    written (past ++ [s]) w = written past w := by
  have hempty : written [s] w = .empty :=
    written_of_unused fun t ht => List.mem_singleton.mp ht ▸ h
  rw [written_append, hempty, ByteArray.append_empty]

theorem written_of_not_accepted (h : s.accepted? = none) : written [s] w = .empty := by
  by_cases hs : s.writer? = some w <;> simp [written, callsOn, accepted, hs, h]

theorem written_concat_of_not_accepted (h : s.accepted? = none) :
    written (past ++ [s]) w = written past w := by
  rw [written_append, written_of_not_accepted h, ByteArray.append_empty]

theorem written_concat_write :
    written (past ++ [⟨.write w chunk, .accepted⟩]) w = written past w ++ chunk := by
  have hchunk : written [⟨.write w chunk, .accepted⟩] w = chunk := by
    simp [written, callsOn, Step.writer?, accepted, Step.accepted?]
  rw [written_append, hchunk]

theorem written_of_sole
    (h : ∀ s ∈ steps, ∀ chunk, s.accepted? = some chunk → s.writer? = some w) :
    written steps w = joined (accepted steps) := by
  induction steps with
  | nil => rfl
  | cons s steps ih =>
    have hrest := ih fun t ht => h t (List.mem_cons_of_mem _ ht)
    have hsplit : written ([s] ++ steps) w = written [s] w ++ written steps w := written_append
    rw [List.singleton_append] at hsplit
    have hfirst : written [s] w = joined s.accepted?.toList := by
      cases haccepted : s.accepted? with
      | none => exact written_of_not_accepted haccepted
      | some chunk =>
        have hs := h s List.mem_cons_self chunk haccepted
        simp [written, callsOn, accepted, hs, haccepted]
    rw [hsplit, hfirst, hrest, accepted_cons, joined_append]

/-- Nothing more is published as long as no writer is finalized and the finalized ones rest. -/
theorem published?_concat_of_not_finalized (hs : s.finalized? = none)
    (h : ∀ w ∈ finalized past, keyOf? (past ++ [s]) w = keyOf? past w ∧
      written (past ++ [s]) w = written past w) :
    published? (past ++ [s]) = published? past := by
  have hfinalized : finalized (past ++ [s]) = finalized past := by
    simp [finalized, hs]
  funext parts
  have hlatest : latest? (past ++ [s]) parts = latest? past parts := by
    rw [latest?, latest?, hfinalized]
    refine List.find?_congr fun w hw => ?_
    rw [(h w (List.mem_reverse.mp hw)).1]
  rw [published?, published?, hlatest]
  refine Option.map_congr fun w hw => ?_
  exact (h w (List.mem_reverse.mp (List.mem_of_find?_eq_some hw))).2

/-- A writer that is finalized publishes what it has taken in, under its own parts only. -/
theorem published?_concat_finalize (hkey : keyOf? past w = some l) :
    published? (past ++ [⟨.finalize w, .ok ()⟩]) parts =
      if l.parts = parts then some (written past w) else published? past parts := by
  have hsame : ∀ v, keyOf? (past ++ [⟨.finalize w, .ok ()⟩]) v = keyOf? past v :=
    fun v => keyOf?_concat_of_no_opening rfl
  have hwritten : written (past ++ [⟨.finalize w, .ok ()⟩]) = written past :=
    funext fun v => written_concat_of_not_accepted rfl
  have hfinalized : finalized (past ++ [⟨.finalize w, .ok ()⟩]) = finalized past ++ [w] :=
    finalized_append
  simp only [published?, latest?, hwritten, hfinalized, hsame, List.reverse_append,
    List.reverse_singleton, List.singleton_append, List.find?_cons, hkey]
  by_cases hparts : l.parts = parts <;> simp [hparts]

theorem isSome_published?_iff : (published? past parts).isSome ↔
    ∃ w ∈ finalized past, ∃ k, keyOf? past w = some k ∧ k.parts = parts := by
  simp [published?, latest?, List.find?_isSome]

theorem of_latest? (h : latest? past parts = some w) :
    w ∈ finalized past ∧ ∃ k, keyOf? past w = some k ∧ k.parts = parts := by
  rw [latest?] at h
  have hparts := List.find?_some h
  exact ⟨List.mem_reverse.mp (List.mem_of_find?_eq_some h),
    Option.map_eq_some_iff.mp (of_decide_eq_true hparts)⟩

theorem lookup_filter {κ α : Type} [BEq κ] [LawfulBEq κ] (keep : κ → Bool)
    (entries : List (κ × α)) (x : κ) :
    (entries.filter fun e => keep e.1).lookup x = if keep x then entries.lookup x else none := by
  induction entries with
  | nil => simp
  | cons e entries ih =>
    obtain ⟨y, a⟩ := e
    by_cases hxy : x = y
    · subst hxy
      by_cases hkeep : keep x = true
      · simp [hkeep]
      · simpa [hkeep] using ih
    · have hne : (x == y) = false := by simpa using hxy
      by_cases hkeep : keep y = true
      · simp [List.lookup_cons, hkeep, hne, ih]
      · simp [List.lookup_cons, hkeep, hne, ih]

/-- The steps about the writers of a kind, and those that are about none. -/
def about (keep : Writer → Bool) (past : List Step) : List Step :=
  past.filter fun s => s.subject?.all keep

section About
variable {keep : Writer → Bool}

theorem filterMap_about {α : Type} {f : Step → Option α} {subject : α → Writer}
    (hf : ∀ s x, f s = some x → s.subject? = some (subject x)) :
    (about keep past).filterMap f = (past.filterMap f).filter fun x => keep (subject x) := by
  rw [about, List.filterMap_filter, List.filter_filterMap]
  congr 1
  funext s
  cases h : f s with
  | none => simp
  | some x => cases hkeep : keep (subject x) <;> simp [hf s x h, hkeep, Option.filter]

theorem keyOf?_about : keyOf? (about keep past) w = if keep w then keyOf? past w else none := by
  have hopening : ∀ s e, Step.opening? s = some e → s.subject? = some e.1 := by
    rintro ⟨c, r⟩ e h
    cases c with
    | openWriter k =>
      cases r with
      | error fault => cases h
      | ok v =>
        cases h
        rfl
    | _ => cases h
  rw [keyOf?, filterMap_about hopening, lookup_filter, ← keyOf?]

theorem finalized_about : finalized (about keep past) = (finalized past).filter keep := by
  have hfinalized : ∀ s w, Step.finalized? s = some w → s.subject? = some (id w) := by
    rintro ⟨c, r⟩ w h
    cases c with
    | finalize v =>
      cases r with
      | error fault => cases h
      | ok =>
        cases h
        rfl
    | _ => cases h
  exact filterMap_about hfinalized

theorem written_about (h : keep w = true) : written (about keep past) w = written past w := by
  rw [written, written, callsOn, callsOn, about, List.filter_filter]
  congr 2
  refine List.filter_congr fun s _ => ?_
  by_cases hs : s.writer? = some w
  · simp [hs, Step.subject?, h]
  · simp [hs]

/-- What is published under some parts depends on the finalized writers of these parts alone. -/
theorem published?_about (h : ∀ w ∈ finalized past, ∀ k, keyOf? past w = some k →
    k.parts = parts → keep w = true) :
    published? (about keep past) parts = published? past parts := by
  have hlatest : latest? (about keep past) parts = latest? past parts := by
    rw [latest?, latest?, finalized_about, ← List.filter_reverse, List.find?_filter]
    refine List.find?_congr fun w hw => ?_
    rw [keyOf?_about]
    cases hkeep : keep w with
    | true => simp
    | false =>
      have hother : (keyOf? past w).map Key.parts ≠ some parts := by
        intro heq
        obtain ⟨k, hkey, hk⟩ := Option.map_eq_some_iff.mp heq
        rw [h w (List.mem_reverse.mp hw) k hkey hk] at hkeep
        cases hkeep
      simp [hother]
  rw [published?, published?, hlatest]
  refine Option.map_congr fun w hw => written_about ?_
  obtain ⟨hmem, k, hkey, hk⟩ := of_latest? hw
  exact h w hmem k hkey hk

end About

instance (past : List Step) (s : Step) : Decidable (Allowed past s) :=
  match h : s.writer? with
  | none => isTrue fun w hw => by simp [h] at hw
  | some w => decidable_of_iff ((keyOf? past w).isSome ∧ w ∉ ended past) (by simp [Allowed, h])

instance decidableOwned : (past steps : List Step) → Decidable (Owned past steps)
  | _, [] => isTrue trivial
  | past, s :: steps =>
    have := decidableOwned (past ++ [s]) steps
    inferInstanceAs (Decidable (_ ∧ _))

theorem owned_append :
    Owned past (steps ++ more) ↔ Owned past steps ∧ Owned (past ++ steps) more := by
  induction steps generalizing past with
  | nil => simp [Owned]
  | cons s steps ih => simp [Owned, ih, and_assoc]

theorem Owned.opened (h : Owned past steps) (hs : s ∈ steps) (hw : w ∈ s.writer?) :
    (keyOf? (past ++ steps) w).isSome := by
  induction steps generalizing past with
  | nil => cases hs
  | cons t steps ih =>
    rcases List.mem_cons.mp hs with rfl | hs
    · obtain ⟨hopen, _⟩ := h.1 w hw
      rwa [keyOf?_append_of_isSome hopen]
    · have hopen := ih h.2 hs
      rwa [List.append_assoc, List.singleton_append] at hopen

end DumpVault
