import DumpVault.Proofs.Along
import DumpVault.Proofs.Copying
import DumpVault.Proofs.Passages

/-!
# A copy loses nothing

The courses of a copy are few: it reads and writes piece by piece until its source ends, or fails, or
the writer refuses a piece, or until it is cut off. In each of them the pieces written and what is
left of the source are together the bytes that there were, so what has been written is what has been
read.
-/
namespace DumpVault
open Prog

variable {β σ : Type} {B : BufferKind β} {w : Writer} {s rest left : Source} {b : β} {total : Nat}
  {piece : ByteArray} {steps : List Step} {copy : CopyEnd}

/-- The steps in which chunks are read and written. -/
def transferred (w : Writer) (chunks : List ByteArray) : List Step :=
  chunks.flatMap fun chunk => [⟨.pause, false⟩, ⟨.write w chunk, .accepted⟩]

/-- The courses of a copy, `total` bytes having been read before, with what they leave of the
source. -/
inductive CopyCourse (w : Writer) (s : Source) (total : Nat) :
    List Step → CopyEnd → Source → Prop
  | whole (done : List ByteArray) (all : s.reads copyLimit = done)
      (complete : s.ending = .complete) :
      CopyCourse w s total (transferred w done ++ [⟨.pause, false⟩])
        (.copied (total + (joined done).size)) ⟨[], .complete⟩
  | readFailed (done : List ByteArray) (all : s.reads copyLimit = done) (fault : IoFault)
      (broken : s.ending = .failed fault) :
      CopyCourse w s total (transferred w done ++ [⟨.pause, false⟩])
        (.failed fault) ⟨[], .failed fault⟩
  | stalled (done : List ByteArray) (all : s.reads copyLimit = done) (stays : s.ending = .stalled) :
      CopyCourse w s total (transferred w done ++ [⟨.pause, false⟩, ⟨.stall, ()⟩])
        .interrupted ⟨[], .stalled⟩
  | writeFailed (done : List ByteArray) (chunk : ByteArray) (left : Source)
      (cut : s.reads copyLimit = done ++ chunk :: left.reads copyLimit) (fault : IoFault) :
      CopyCourse w s total
        (transferred w done ++ [⟨.pause, false⟩, ⟨.write w chunk, .failed fault⟩])
        (.failed fault) left
  | unfinished (done : List ByteArray) (chunk : ByteArray) (left : Source)
      (cut : s.reads copyLimit = done ++ chunk :: left.reads copyLimit) :
      CopyCourse w s total
        (transferred w done ++ [⟨.pause, false⟩, ⟨.write w chunk, .interrupted⟩])
        .interrupted left
  | cancelled (done : List ByteArray) (left : Source)
      (cut : s.reads copyLimit = done ++ left.reads copyLimit) :
      CopyCourse w s total (transferred w done ++ [⟨.pause, true⟩]) .interrupted left

/-- A piece that is written comes in front of what a copy of the rest does. -/
theorem CopyCourse.cons (hreads : s.reads copyLimit = piece :: rest.reads copyLimit)
    (hending : rest.ending = s.ending) (h : CopyCourse w rest (total + piece.size) steps copy left) :
    CopyCourse w s total (⟨.pause, false⟩ :: ⟨.write w piece, .accepted⟩ :: steps) copy left := by
  cases h with
  | whole done all complete =>
    have hsize : total + piece.size + (joined done).size =
        total + (joined (piece :: done)).size := by
      rw [joined_cons, ByteArray.size_append, Nat.add_assoc]
    rw [hsize]
    exact .whole (piece :: done) (all ▸ hreads) (hending ▸ complete)
  | readFailed done all fault broken =>
    exact .readFailed (piece :: done) (all ▸ hreads) fault (hending ▸ broken)
  | stalled done all stays => exact .stalled (piece :: done) (all ▸ hreads) (hending ▸ stays)
  | writeFailed done chunk left cut fault =>
    exact .writeFailed (piece :: done) chunk left (by rw [hreads, cut, List.cons_append]) fault
  | unfinished done chunk left cut =>
    exact .unfinished (piece :: done) chunk left (by rw [hreads, cut, List.cons_append])
  | cancelled done left cut =>
    exact .cancelled (piece :: done) left (by rw [hreads, cut, List.cons_append])

/-- Every course of a copy is one of those listed. -/
theorem course_of_copy (laws : B.Laws) (hb : B.held b = .empty)
    (h : Yields (copyFrom B w s b total) steps (copy, left)) :
    CopyCourse w s total steps copy left := by
  induction s using Source.read_induction copyLimit_pos generalizing b total steps with
  | ended s hnil hread =>
    rw [copyFrom_end laws hb hread] at h
    obtain ⟨cut, rest, rfl, hcut⟩ := yields_ask_bind.mp h
    cases cut with
    | true =>
      obtain ⟨rfl, hend⟩ := yields_pure.mp hcut
      cases hend
      exact .cancelled [] _ rfl
    | false =>
      cases hending : s.ending with
      | complete =>
        rw [hending] at hcut
        obtain ⟨rfl, hend⟩ := yields_pure.mp hcut
        cases hend
        exact .whole [] hnil hending
      | failed fault =>
        rw [hending] at hcut
        obtain ⟨rfl, hend⟩ := yields_pure.mp hcut
        cases hend
        exact .readFailed [] hnil fault hending
      | stalled =>
        rw [hending] at hcut
        obtain ⟨_, _, rfl, hstall⟩ := yields_ask_bind.mp hcut
        obtain ⟨rfl, hend⟩ := yields_pure.mp hstall
        cases hend
        exact .stalled [] hnil hending
  | yielded s piece rest hread hcons hending hsize ih =>
    obtain ⟨b', hb', heq⟩ := copyFrom_piece laws hb hread hsize.1 hsize.2
    rw [heq] at h
    obtain ⟨cut, steps, rfl, hcut⟩ := yields_ask_bind.mp h
    cases cut with
    | true =>
      obtain ⟨rfl, hend⟩ := yields_pure.mp hcut
      cases hend
      exact .cancelled [] _ rfl
    | false =>
      obtain ⟨taken, steps, rfl, htaken⟩ := yields_ask_bind.mp hcut
      cases taken with
      | accepted => exact (ih hb' htaken).cons hcons hending
      | failed fault =>
        obtain ⟨rfl, hend⟩ := yields_pure.mp htaken
        cases hend
        exact .writeFailed [] _ left hcons fault
      | interrupted =>
        obtain ⟨rfl, hend⟩ := yields_pure.mp htaken
        cases hend
        exact .unfinished [] _ left hcons

/-- A copy that a write has cut short has dealt with the bytes in three parts. -/
theorem joined_cut {done : List ByteArray} {chunk : ByteArray}
    (cut : s.reads copyLimit = done ++ chunk :: left.reads copyLimit) :
    joined done ++ chunk ++ left.bytes = s.bytes := by
  rw [← joined_reads copyLimit_pos s, cut, joined_append, joined_cons,
    joined_reads copyLimit_pos left, ByteArray.append_assoc]

/-- Answers with which neither a copy nor one of its writes is cut off. -/
structure Patient (answers : Handler σ) (w : Writer) : Prop where
  pause : ∀ u, (answers .pause u).1 = false
  write : ∀ chunk u, (answers (.write w chunk) u).1 ≠ .interrupted

/-- Whatever a source yields and a writer refuses, a copy ends. With what is left of the source, the
chunks written are the bytes there were; only a chunk that was refused is in neither. The end of the
copy is the first fault, behind which nothing is read or written, or tells the size of the whole. -/
theorem copy_lossless (laws : B.Laws) {answers : Handler σ} (hpatient : Patient answers w)
    (hends : s.ending ≠ .stalled) (u : σ) :
    let copying := copyFrom B w s (B.ofCapacity copyLimit) 0
    let steps := copying.course answers u
    Prod.fst <$> copying = copyInto w s ∧
    ∃ done copy left, (copying.run answers u).1 = (copy, left) ∧
      (∀ chunk ∈ done, 0 < chunk.size ∧ chunk.size ≤ copyLimit) ∧
      ((steps = transferred w done ++ [⟨.pause, false⟩] ∧
          joined done = s.bytes ∧ left.chunks = [] ∧
          (s.ending = .complete ∧ copy = .copied s.bytes.size ∨
            ∃ fault, s.ending = .failed fault ∧ copy = .failed fault)) ∨
        ∃ chunk fault, 0 < chunk.size ∧ chunk.size ≤ copyLimit ∧
          steps = transferred w done ++ [⟨.pause, false⟩, ⟨.write w chunk, .failed fault⟩] ∧
          joined done ++ chunk ++ left.bytes = s.bytes ∧ copy = .failed fault) := by
  intro copying steps
  refine ⟨(fst_copyFrom laws (laws.held_ofCapacity _)).trans (copyInto_eq w s).symm, ?_⟩
  have hyields : Yields copying steps (copying.run answers u).1 := yields_course answers copying u
  have hanswered : ∀ step ∈ steps, ∃ v, step = ⟨step.call, (answers step.call v).1⟩ :=
    fun _ => exists_of_mem_course
  generalize steps = course at hyields hanswered ⊢
  generalize (copying.run answers u).1 = result at hyields ⊢
  obtain ⟨copy, left⟩ := result
  have hcourse : CopyCourse w s 0 course copy left :=
    course_of_copy laws (laws.held_ofCapacity _) hyields
  have hread : ∀ {done more : List ByteArray}, s.reads copyLimit = done ++ more →
      ∀ chunk ∈ done, 0 < chunk.size ∧ chunk.size ≤ copyLimit := fun hreads chunk hmem =>
    size_of_mem_reads (hreads ▸ List.mem_append_left _ hmem)
  have hwhole : joined (s.reads copyLimit) = s.bytes := joined_reads copyLimit_pos s
  cases hcourse with
  | whole done all complete =>
    subst all
    rw [hwhole, Nat.zero_add]
    exact ⟨_, _, _, rfl, hread (List.append_nil _).symm,
      .inl ⟨rfl, hwhole, rfl, .inl ⟨complete, rfl⟩⟩⟩
  | readFailed done all fault broken =>
    subst all
    exact ⟨_, _, _, rfl, hread (List.append_nil _).symm,
      .inl ⟨rfl, hwhole, rfl, .inr ⟨fault, broken, rfl⟩⟩⟩
  | stalled done all stays => exact absurd stays hends
  | writeFailed done chunk left cut fault =>
    have hchunk : chunk ∈ s.reads copyLimit := cut ▸ List.mem_append_right _ List.mem_cons_self
    obtain ⟨hpos, hle⟩ := size_of_mem_reads hchunk
    exact ⟨done, _, left, rfl, hread cut,
      .inr ⟨chunk, fault, hpos, hle, rfl, joined_cut cut, rfl⟩⟩
  -- What is left are the courses that are cut off.
  | unfinished done chunk left cut =>
    obtain ⟨v, hstep⟩ := hanswered ⟨.write w chunk, .interrupted⟩ (by simp)
    cases hpatient.write chunk v (eq_of_heq (Step.mk.inj hstep).2).symm
  | cancelled done left cut =>
    obtain ⟨v, hstep⟩ := hanswered ⟨.pause, true⟩ (by simp)
    cases (hpatient.pause v).symm.trans (eq_of_heq (Step.mk.inj hstep).2).symm

/-- Answers of a writer that takes in a number of chunks and no more. -/
def filling : Handler Nat := fun c count =>
  match c, count with
  | .write _ _, 0 => (.failed (.described .other "disk full"), 0)
  | .write _ _, count + 1 => (.accepted, count)
  | c, count => ((obliging false c ()).1, count)

/-- The second write is refused, and the last chunk is not read. -/
theorem copy_lossless_filling :
    let s : Source := ⟨[⟨#[1, 2]⟩, ⟨#[3]⟩, ⟨#[4, 5]⟩], .complete⟩
    let w : Writer := ⟨0⟩
    let copying := copyFrom Buffer.kind w s (Buffer.kind.ofCapacity copyLimit) 0
    let steps := copying.course filling 1
    Buffer.kind.Laws ∧ Patient filling w ∧ s.ending ≠ .stalled ∧
    steps = transferred w [⟨#[1, 2]⟩] ++
      [⟨.pause, false⟩, ⟨.write w ⟨#[3]⟩, .failed (.described .other "disk full")⟩] ∧
    Prod.fst <$> copying = copyInto w s ∧
    ∃ done copy left, (copying.run filling 1).1 = (copy, left) ∧
      (∀ chunk ∈ done, 0 < chunk.size ∧ chunk.size ≤ copyLimit) ∧
      ((steps = transferred w done ++ [⟨.pause, false⟩] ∧
          joined done = s.bytes ∧ left.chunks = [] ∧
          (s.ending = .complete ∧ copy = .copied s.bytes.size ∨
            ∃ fault, s.ending = .failed fault ∧ copy = .failed fault)) ∨
        ∃ chunk fault, 0 < chunk.size ∧ chunk.size ≤ copyLimit ∧
          steps = transferred w done ++ [⟨.pause, false⟩, ⟨.write w chunk, .failed fault⟩] ∧
          joined done ++ chunk ++ left.bytes = s.bytes ∧ copy = .failed fault) := by
  intro s w copying steps
  have hpatient : Patient filling w :=
    ⟨fun _ => rfl, fun _ count => by cases count <;> simp [filling]⟩
  have hends : s.ending ≠ .stalled := by simp [s]
  exact ⟨Buffer.kind_laws, hpatient, hends, rfl, copy_lossless Buffer.kind_laws hpatient hends 1⟩

end DumpVault
