import DumpVault.Run.Call
import DumpVault.Store.Memory

/-!
# Chunks put together

A source is read in pieces and a writer takes in one piece after the other. Put together in their
order, the pieces are the bytes that were cut.
-/
namespace DumpVault

def joined (chunks : List ByteArray) : ByteArray := chunks.foldl (· ++ ·) .empty

@[simp] theorem joined_nil : joined [] = .empty := rfl

theorem foldl_append_eq (start : ByteArray) (chunks : List ByteArray) :
    chunks.foldl (· ++ ·) start = start ++ joined chunks := by
  induction chunks generalizing start with
  | nil => simp
  | cons chunk chunks ih =>
    have hfirst : joined (chunk :: chunks) = chunk ++ joined chunks := by
      rw [joined, List.foldl_cons, ih, ByteArray.empty_append]
    rw [List.foldl_cons, ih, hfirst, ByteArray.append_assoc]

@[simp] theorem joined_cons (chunk : ByteArray) (chunks : List ByteArray) :
    joined (chunk :: chunks) = chunk ++ joined chunks := by
  rw [joined, List.foldl_cons, foldl_append_eq, ByteArray.empty_append]

@[simp] theorem joined_append (chunks more : List ByteArray) :
    joined (chunks ++ more) = joined chunks ++ joined more := by
  rw [joined, List.foldl_append, foldl_append_eq, ← joined]

theorem Source.bytes_eq (s : Source) : s.bytes = joined s.chunks := rfl

theorem OpenBlob.bytes_eq (b : OpenBlob) : b.bytes = joined b.chunks := rfl

@[simp] theorem Source.bytes_ofBytes (bytes : ByteArray) : (Source.ofBytes bytes).bytes = bytes := by
  simp [Source.bytes_eq, ofBytes]

/-- The first `count` pieces are the bytes up to where the last of them ends. -/
theorem joined_first_pieces (limit count : Nat) (bytes : ByteArray) :
    joined ((List.range count).map fun i => bytes.extract (i * limit) ((i + 1) * limit)) =
      bytes.extract 0 (count * limit) := by
  induction count with
  | zero => simp
  | succ count ih =>
    have hstep : count * limit ≤ (count + 1) * limit :=
      Nat.mul_le_mul_right limit (Nat.le_succ count)
    rw [List.range_succ, List.map_append, joined_append, ih, List.map_singleton, joined_cons,
      joined_nil, ByteArray.append_empty, ByteArray.extract_append_extract,
      Nat.min_eq_left (Nat.zero_le _), Nat.max_eq_right hstep]

theorem joined_pieces {limit : Nat} (hlimit : 0 < limit) (bytes : ByteArray) :
    joined (Source.pieces limit bytes) = bytes := by
  have hcover : bytes.size ≤ (bytes.size + limit - 1) / limit * limit := by
    have hdiv := Nat.div_add_mod (bytes.size + limit - 1) limit
    have hmod := Nat.mod_lt (bytes.size + limit - 1) hlimit
    rw [Nat.mul_comm] at hdiv
    omega
  rw [Source.pieces, joined_first_pieces, ← Nat.max_eq_left hcover,
    ByteArray.extract_zero_max_size]

/-- No piece is empty, and none is larger than the limit. -/
theorem size_of_mem_pieces {limit : Nat} {bytes piece : ByteArray}
    (h : piece ∈ Source.pieces limit bytes) : 0 < piece.size ∧ piece.size ≤ limit := by
  obtain ⟨i, hi, rfl⟩ := List.mem_map.mp h
  have hlimit : 0 < limit := by
    rcases Nat.eq_zero_or_pos limit with rfl | hlimit
    · simp at hi
    · exact hlimit
  have hstart : i * limit < bytes.size := by
    have hle := (Nat.le_div_iff_mul_le hlimit).mp (Nat.succ_le_of_lt (List.mem_range.mp hi))
    rw [Nat.succ_mul] at hle
    omega
  rw [ByteArray.size_extract, Nat.succ_mul]
  omega

theorem size_of_mem_reads {limit : Nat} {s : Source} {piece : ByteArray}
    (h : piece ∈ s.reads limit) : 0 < piece.size ∧ piece.size ≤ limit := by
  obtain ⟨chunk, _, hpiece⟩ := List.mem_flatMap.mp h
  exact size_of_mem_pieces hpiece

/-- Reads of a bounded size lose nothing and keep the order. -/
theorem joined_reads {limit : Nat} (hlimit : 0 < limit) (s : Source) :
    joined (s.reads limit) = s.bytes := by
  rw [Source.reads, Source.bytes_eq]
  induction s.chunks with
  | nil => rfl
  | cons chunk chunks ih =>
    rw [List.flatMap_cons, joined_append, joined_pieces hlimit, ih, joined_cons]

end DumpVault
