import DumpVault.Proofs.Course
import DumpVault.Proofs.Pieces
import DumpVault.Run.Copy

/-!
# What a copy reads and writes

The buffer of a copy is empty whenever it is to be filled, so each read has the room of one mebibyte,
and the chunk that is split off is what was read. A copy thus writes the pieces of its source one
after the other. Up to the first fault of the source or the writer, nothing is lost or written
twice, and behind it nothing is read or written.
-/
namespace DumpVault
open Prog

namespace Source

theorem extract_min_size (bytes : ByteArray) (i j : Nat) :
    bytes.extract i (min j bytes.size) = bytes.extract i j := by
  ext1
  simp only [ByteArray.data_extract, Array.extract_eq_extract_right, ByteArray.size_data]
  omega

theorem pieces_empty {limit : Nat} (hlimit : 0 < limit) {bytes : ByteArray}
    (hbytes : bytes.size = 0) : pieces limit bytes = [] := by
  rw [pieces, hbytes, Nat.div_eq_of_lt (by omega)]
  rfl

theorem pieces_eq_cons {limit : Nat} (hlimit : 0 < limit) {bytes : ByteArray}
    (hbytes : bytes.size ≠ 0) :
    pieces limit bytes = bytes.extract 0 limit :: pieces limit (bytes.extract limit bytes.size) := by
  have hcount : (bytes.size + limit - 1) / limit =
      ((bytes.extract limit bytes.size).size + limit - 1) / limit + 1 := by
    rw [ByteArray.size_extract, Nat.min_self]
    rcases Nat.le_total bytes.size limit with hle | hle
    · rw [Nat.sub_eq_zero_of_le hle, Nat.div_eq_of_lt (a := 0 + limit - 1) (by omega)]
      exact Nat.div_eq_of_lt_le (by omega) (by omega)
    · have hsplit : bytes.size + limit - 1 = (bytes.size - limit + limit - 1) + limit := by omega
      rw [hsplit, Nat.add_div_right _ hlimit]
  rw [pieces, pieces, hcount, List.range_succ_eq_map, List.map_cons, List.map_map, Nat.zero_mul,
    Nat.zero_add, Nat.one_mul]
  refine congrArg _ (List.map_congr_left fun i _ => ?_)
  have hstart : limit + i * limit = (i + 1) * limit := by rw [Nat.succ_mul, Nat.add_comm]
  have hend : limit + (i + 1) * limit = (i + 1 + 1) * limit := by
    rw [Nat.succ_mul (i + 1), Nat.add_comm]
  rw [ByteArray.extract_extract, extract_min_size, hstart, hend]
  rfl

theorem reads_cons (limit : Nat) (chunk : ByteArray) (chunks : List ByteArray) (ending : Ending) :
    reads limit ⟨chunk :: chunks, ending⟩ = pieces limit chunk ++ reads limit ⟨chunks, ending⟩ :=
  List.flatMap_cons

/-- A read yields the next piece; when there is none, the source ends. -/
theorem read_cases {room : Nat} (hroom : 0 < room) (s : Source) :
    (s.reads room = [] ∧ s.read room = (s.ending.outcome, ⟨[], s.ending⟩)) ∨
    ∃ piece rest, s.read room = (.yielded piece, rest) ∧
      s.reads room = piece :: rest.reads room ∧ rest.ending = s.ending := by
  obtain ⟨chunks, ending⟩ := s
  induction chunks with
  | nil => exact .inl ⟨rfl, rfl⟩
  | cons chunk chunks ih =>
    by_cases hchunk : chunk.size = 0
    · have hread : read room ⟨chunk :: chunks, ending⟩ = read room ⟨chunks, ending⟩ := by
        simp only [read, readChunks, hchunk, if_true]
      rw [hread, reads_cons, pieces_empty hroom hchunk]
      exact ih
    · refine .inr ⟨chunk.extract 0 room, ⟨chunk.extract room chunk.size :: chunks, ending⟩, ?_, ?_,
        rfl⟩
      · simp only [read, readChunks, hchunk, if_false]
      · rw [reads_cons, reads_cons, pieces_eq_cons hroom hchunk]
        rfl

/-- A source is read to its end piece by piece. -/
theorem read_induction {room : Nat} (hroom : 0 < room) {motive : Source → Prop}
    (ended : ∀ s, s.reads room = [] → s.read room = (s.ending.outcome, ⟨[], s.ending⟩) → motive s)
    (yielded : ∀ s piece rest, s.read room = (.yielded piece, rest) →
      s.reads room = piece :: rest.reads room → rest.ending = s.ending →
      0 < piece.size ∧ piece.size ≤ room → motive rest → motive s) (s : Source) : motive s := by
  generalize hpieces : s.reads room = pieces
  induction pieces generalizing s with
  | nil =>
    obtain ⟨hnil, hread⟩ | ⟨piece, rest, _, hcons, _⟩ := s.read_cases hroom
    · exact ended s hnil hread
    · cases hpieces.symm.trans hcons
  | cons chunk pieces ih =>
    obtain ⟨hnil, _⟩ | ⟨piece, rest, hread, hcons, hending⟩ := s.read_cases hroom
    · cases hpieces.symm.trans hnil
    · obtain ⟨_, rfl⟩ := List.cons.inj (hpieces.symm.trans hcons)
      have hpiece : piece ∈ s.reads room := hcons ▸ List.mem_cons_self
      exact yielded s piece rest hread hcons hending (size_of_mem_reads hpiece) (ih rest rfl)

end Source

/-- What the end of a source makes of a copy. -/
def Ending.copyEnd (bytes : Nat) : Ending → Prog CopyEnd
  | .complete => return .copied bytes
  | .failed fault => return .failed fault
  | .stalled => do
    Prog.ask .stall
    return .interrupted

/-- Writes chunks in turn, `total` bytes having been read before them. -/
def copyChunks (w : Writer) (ending : Ending) : List ByteArray → Nat → Prog CopyEnd
  | [], total => do
    if ← Prog.ask .pause then return .interrupted
    ending.copyEnd total
  | chunk :: rest, total => do
    if ← Prog.ask .pause then return .interrupted
    match ← Prog.ask (.write w chunk) with
    | .accepted => copyChunks w ending rest (total + chunk.size)
    | .failed fault => return .failed fault
    | .interrupted => return .interrupted

section
variable {β : Type} {B : BufferKind β} {w : Writer} {s rest : Source} {b : β} {total : Nat}
  {piece : ByteArray}

theorem copyLimit_pos : 0 < copyLimit := by decide

/-- How a copy goes on behind a write. -/
def copyOn (B : BufferKind β) (w : Writer) (rest : Source) (b : β) (total : Nat) :
    Taken → Prog (CopyEnd × Source)
  | .accepted => copyFrom B w rest b total
  | .failed fault => return (.failed fault, rest)
  | .interrupted => return (.interrupted, rest)

/-- How a copy goes on behind a read. -/
def copyBehind (B : BufferKind β) (w : Writer) (b : β) (total : Nat) :
    ReadOutcome × Source → Prog (CopyEnd × Source)
  | (.failed fault, rest) => return (.failed fault, rest)
  | (.stalled, rest) => do
    Prog.ask .stall
    return (.interrupted, rest)
  | (.yielded bytes, rest) =>
    if bytes.size = 0 then return (.copied total, rest)
    else ask (.write w (B.split (B.fill b bytes)).1) >>=
      copyOn B w rest (B.split (B.fill b bytes)).2 (total + bytes.size)

theorem copyFrom_eq : copyFrom B w s b total = ask .pause >>= fun cut =>
    if cut then Pure.pure (.interrupted, s)
    else copyBehind B w (B.reserve b copyLimit) total (s.read (B.room (B.reserve b copyLimit))) := by
  rw [copyFrom]
  refine bind_congr fun cut => ?_
  split
  · rfl
  · dsimp only
    split <;> rename_i hread <;> rw [hread, copyBehind]
    split
    · rfl
    · exact bind_congr fun taken => by cases taken <;> rfl

theorem copyBehind_end (ending : Ending) (rest : Source) :
    copyBehind B w b total (ending.outcome, rest) =
      (fun copy => (copy, rest)) <$> ending.copyEnd total := by
  cases ending <;> rfl

/-- A copy whose source has no more pieces ends as the source does. -/
theorem copyFrom_end (laws : B.Laws) (hb : B.held b = .empty)
    (hread : s.read copyLimit = (s.ending.outcome, rest)) :
    copyFrom B w s b total = ask .pause >>= fun cut =>
      if cut then Pure.pure (.interrupted, s)
      else (fun copy => (copy, rest)) <$> s.ending.copyEnd total := by
  rw [copyFrom_eq, laws.room_reserve b copyLimit hb, hread, copyBehind_end]

/-- A copy writes what it has read, and goes on with an empty buffer. -/
theorem copyFrom_piece (laws : B.Laws) (hb : B.held b = .empty)
    (hread : s.read copyLimit = (.yielded piece, rest)) (hpos : 0 < piece.size)
    (hle : piece.size ≤ copyLimit) :
    ∃ b', B.held b' = .empty ∧
      copyFrom B w s b total = ask .pause >>= fun cut =>
        if cut then Pure.pure (.interrupted, s)
        else ask (.write w piece) >>= copyOn B w rest b' (total + piece.size) := by
  have hroom := laws.room_reserve b copyLimit hb
  have hheld : B.held (B.fill (B.reserve b copyLimit) piece) = piece := by
    rw [laws.held_fill _ _ (hroom.symm ▸ hle), laws.held_reserve, hb, ByteArray.empty_append]
  refine ⟨(B.split (B.fill (B.reserve b copyLimit) piece)).2, laws.held_split _, ?_⟩
  rw [copyFrom_eq, hroom, hread, copyBehind, if_neg (Nat.ne_of_gt hpos), laws.split_fst, hheld]

/-- Whatever the buffer, a copy writes the pieces of its source. -/
theorem fst_copyFrom (laws : B.Laws) (hb : B.held b = .empty) :
    Prod.fst <$> copyFrom B w s b total =
      copyChunks w s.ending (s.reads copyLimit) total := by
  -- That the buffer is empty is what each turn of the copy leaves for the next.
  induction s using Source.read_induction copyLimit_pos generalizing b total with
  | ended s hnil hread =>
    rw [copyFrom_end laws hb hread, hnil, copyChunks, map_bind]
    refine bind_congr fun cut => ?_
    cases cut with
    | true => rfl
    | false => exact (Functor.map_map _ _ _).trans (id_map' _)
  | yielded s piece rest hread hcons hending hsize ih =>
    obtain ⟨b', hb', heq⟩ := copyFrom_piece laws hb hread hsize.1 hsize.2
    rw [heq, hcons, copyChunks, map_bind]
    refine bind_congr fun cut => ?_
    cases cut with
    | true => rfl
    | false =>
      refine (map_bind _ _ _).trans (bind_congr fun taken => ?_)
      cases taken with
      | accepted => exact hending ▸ ih hb'
      | failed fault => rfl
      | interrupted => rfl

end

theorem copyInto_eq (w : Writer) (s : Source) :
    copyInto w s = copyChunks w s.ending (s.reads copyLimit) 0 :=
  fst_copyFrom Buffer.kind_laws rfl

end DumpVault
