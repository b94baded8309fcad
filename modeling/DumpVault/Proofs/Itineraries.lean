import DumpVault.Proofs.FailFast
import DumpVault.Proofs.Lines

/-!
# Routes through a pipeline

A pipeline logs every passage from one of its five states to another. What it logs is one of three
routes, which can be read off the log, since no other line looks like a passage.
-/
namespace DumpVault
open Prog

/-- The states of a pipeline and the lines by which it logs its passages. -/
structure Itinerary (σ : Type) where
  start : σ
  first : σ
  second : σ
  done : σ
  failed : σ
  distinct : [start, first, second, done, failed].Nodup
  complete : ∀ state, state ∈ [start, first, second, done, failed]
  stage? : σ → Option Stage
  passage : σ → σ → Line
  passage_injective : ∀ {old new old' new'}, passage old new = passage old' new' →
    old = old' ∧ new = new'
  openings : Openings
  passage_opens : ∀ old new, (passage old new).Opens openings

namespace Itinerary

variable {σ : Type} (it : Itinerary σ)

def states : List σ := [it.start, it.first, it.second, it.done, it.failed]

def passages : List Line := it.states.flatMap fun old => it.states.map (it.passage old)

/-- Both stages may fail, and only the second may succeed. -/
def routes : List (List σ) :=
  [[it.start, it.first, it.failed], [it.start, it.first, it.second, it.failed],
    [it.start, it.first, it.second, it.done]]

/-- The passages that a course has logged. -/
def transitions (steps : List Step) : List Line := (logged steps).filter (· ∈ it.passages)

/-- A course has gone from state to state by a route, and has ended with it. Certain lines come
late, which means in the second stage. -/
structure Walked (late : Line → Prop) (steps : List Step) (visited : List σ) : Prop where
  route : visited ∈ it.routes
  unrepeated : visited.Nodup
  logged : it.transitions steps = List.zipWith it.passage visited visited.tail
  last : steps.getLast? = (it.transitions steps).getLast?.map Step.line
  waits : ∀ before line after, steps = before ++ .line line :: after → late line →
    .line (it.passage it.first it.second) ∈ before

variable {it} {steps more : List Step} {visited : List σ}

theorem passage_mem (old new : σ) : it.passage old new ∈ it.passages :=
  List.mem_flatMap.mpr ⟨old, it.complete old, List.mem_map_of_mem (it.complete new)⟩

@[simp] theorem transitions_append :
    it.transitions (steps ++ more) = it.transitions steps ++ it.transitions more := by
  rw [transitions, logged_append, List.filter_append]
  rfl

@[simp] theorem transitions_passage (old new : σ) :
    it.transitions (.line (it.passage old new) :: steps) =
      it.passage old new :: it.transitions steps := by
  rw [transitions, logged_line, List.filter_cons_of_pos (by simpa using passage_mem old new)]
  rfl

@[simp] theorem transitions_nil : it.transitions [] = [] := rfl

/-- Lines of another kind log no passage. -/
theorem transitions_of_apart {openings : Openings} (h : Says openings steps)
    (hapart : openings.Apart it.openings) : it.transitions steps = [] := by
  refine List.filter_eq_nil_iff.mpr fun line hline hmem => ?_
  obtain ⟨old, _, hnew⟩ := List.mem_flatMap.mp (of_decide_eq_true hmem)
  obtain ⟨new, _, rfl⟩ := List.mem_map.mp hnew
  exact (h _ hline).not_opens hapart (it.passage_opens old new)

/-- A course by way of the first stage and perhaps the second, with the lines that each may
write. -/
inductive Walk (it : Itinerary σ) (early late : Openings) : List Step → List σ → Prop
  | one {body : List Step} (written : Says early body) :
      Walk it early late (.line (it.passage it.start it.first) ::
        (body ++ [.line (it.passage it.first it.failed)])) [it.start, it.first, it.failed]
  | both {body more : List Step} {last : σ} (written : Says early body)
      (writtenLater : Says late more) (ends : last = it.failed ∨ last = it.done) :
      Walk it early late (.line (it.passage it.start it.first) ::
        (body ++ (.line (it.passage it.first it.second) ::
          (more ++ [.line (it.passage it.second last)])))) [it.start, it.first, it.second, last]

theorem nodup_of_route (h : visited ∈ it.routes) : visited.Nodup := by
  have hsub : visited.Sublist it.states := by
    simp only [routes, List.mem_cons, List.not_mem_nil, or_false] at h
    rcases h with rfl | rfl | rfl
    · exact ((List.Sublist.refl _).cons _ |>.cons _).cons_cons _ |>.cons_cons _
    · exact (((List.Sublist.refl _).cons _).cons_cons _ |>.cons_cons _).cons_cons _
    · exact (((List.nil_sublist _).cons_cons _).cons_cons _ |>.cons_cons _).cons_cons _
  exact hsub.nodup it.distinct

theorem failed_ne_done (it : Itinerary σ) : it.failed ≠ it.done := by
  have hdistinct := it.distinct
  intro h
  simp [h] at hdistinct

/-- The route of a run is read off its log. -/
theorem Walked.visited_eq {late late' : Line → Prop} {visited' : List σ}
    (h : it.Walked late steps visited) (h' : it.Walked late' steps visited') :
    visited' = visited := by
  have hlogged := h'.logged.symm.trans h.logged
  have hroute := h.route
  have hroute' := h'.route
  simp only [routes, List.mem_cons, List.not_mem_nil, or_false] at hroute hroute'
  have hends : it.passage it.second it.failed ≠ it.passage it.second it.done := fun heq =>
    it.failed_ne_done (it.passage_injective heq).2
  rcases hroute with rfl | rfl | rfl <;> rcases hroute' with rfl | rfl | rfl <;>
    first | rfl | simp [hends, hends.symm] at hlogged

/-- Where the lines of the stages are told apart from each other and from the passages, a course has
walked. -/
theorem Walk.walked {early late : Openings} {isLate : Line → Prop}
    (h : it.Walk early late steps visited) (hpassages : (early ++ late).Apart it.openings)
    (hstages : early.Apart late) (hlate : ∀ line, isLate line → line.Opens late) :
    it.Walked isLate steps visited := by
  have hearly : early.Apart it.openings := fun o ho => hpassages o (List.mem_append_left _ ho)
  have hafter : late.Apart it.openings := fun o ho => hpassages o (List.mem_append_right _ ho)
  -- no late line is a passage or lies among the lines of the first stage
  have hpassage : ∀ {line}, isLate line → ∀ old new,
      Step.line line ≠ .line (it.passage old new) := by
    rintro line hline old new heq
    cases heq
    exact (hlate _ hline).not_opens hafter (it.passage_opens old new)
  have hbody : ∀ {line body}, Says early body → isLate line → Step.line line ∉ body :=
    fun hwritten hline hmem =>
      (hwritten _ (mem_logged.mpr hmem)).not_opens hstages (hlate _ hline)
  cases h with
  | @one body written =>
    have hroute : [it.start, it.first, it.failed] ∈ it.routes := List.mem_cons_self
    have hquiet := transitions_of_apart written hearly
    refine ⟨hroute, nodup_of_route hroute, by simp [hquiet],
      by simp [hquiet, List.getLast?_cons], ?_⟩
    intro before line after hsplit hlast
    have hmem : Step.line line ∈ .line (it.passage it.start it.first) ::
        (body ++ [.line (it.passage it.first it.failed)]) := hsplit ▸ by simp
    simp only [List.mem_cons, List.mem_append, List.not_mem_nil, or_false] at hmem
    rcases hmem with hmem | hmem | hmem
    · exact absurd hmem (hpassage hlast _ _)
    · exact absurd hmem (hbody written hlast)
    · exact absurd hmem (hpassage hlast _ _)
  | @both body more last written writtenLater ends =>
    have hroute : [it.start, it.first, it.second, last] ∈ it.routes := by
      rcases ends with rfl | rfl <;> simp [routes]
    have hquiet := transitions_of_apart written hearly
    have hquiet' := transitions_of_apart writtenLater hafter
    refine ⟨hroute, nodup_of_route hroute, by simp [hquiet, hquiet'],
      by simp [hquiet, hquiet', List.getLast?_cons], ?_⟩
    intro before line after hsplit hlast
    let opening := .line (it.passage it.start it.first) ::
      (body ++ [.line (it.passage it.first it.second)])
    have hsplit' : before ++ .line line :: after =
        opening ++ (more ++ [.line (it.passage it.second last)]) := by
      simpa [opening] using hsplit.symm
    have hnot : Step.line line ∉ opening := by
      simp only [opening, List.mem_cons, List.mem_append, List.not_mem_nil, or_false]
      rintro (hmem | hmem | hmem)
      · exact hpassage hlast _ _ hmem
      · exact hbody written hlast hmem
      · exact hpassage hlast _ _ hmem
    obtain ⟨rest, rfl⟩ := prefix_of_notMem hsplit' hnot
    simp [opening]

end Itinerary

end DumpVault
