import DumpVault.Machine.Host
import DumpVault.Proofs.Histories
import DumpVault.Proofs.Inventory
import DumpVault.Proofs.Segments

/-!
# A store in memory and its history

What a store in memory holds is what its history tells: the published blobs are the ones of the
finalized writers, and each open writer holds what it has taken in. Each call keeps this, so every
look-up is answered by the history alone.
-/
namespace DumpVault
open Prog

namespace MemoryStore

variable {m m' m₀ : MemoryStore} {p q : StorePath} {w v : Writer} {chunk : ByteArray} {k l : Key}
  {bucket : String} {past steps : List Step} {s : Step}

theorem draft?_openWriter_of_ne (h : w.id ≠ m.opened) :
    (m.openWriter p).2.draft? w = m.draft? w := by
  have hne : (w.id == m.opened) = false := by simpa using h
  simp [draft?, openWriter, List.lookup_cons, hne]

theorem draft?_write_of_ne (h : v ≠ w) : (m.write w chunk).draft? v = m.draft? v := by
  have hid : v.id ≠ w.id := fun heq => h (congrArg Writer.mk heq)
  simp only [draft?, write]
  congr 1
  induction m.writers with
  | nil => rfl
  | cons e writers ih =>
    obtain ⟨id, b⟩ := e
    by_cases hw : id = w.id
    · subst hw
      have hne : (v.id == w.id) = false := by simpa using hid
      simpa [List.lookup_cons, hne] using ih
    · have hne : (id == w.id) = false := by simpa using hw
      simp only [List.map_cons, hne, Bool.false_eq_true, if_false, List.lookup_cons, ih]

theorem draft?_abort_of_ne (h : v ≠ w) : (m.abort w).draft? v = m.draft? v := by
  have hid : v.id ≠ w.id := fun heq => h (congrArg Writer.mk heq)
  have hkeep : (v.id != w.id) = true := by simpa using hid
  have hlookup := lookup_filter (fun id => id != w.id) m.writers v.id
  rw [hkeep, if_pos rfl] at hlookup
  rw [draft?, draft?, abort, hlookup]

theorem draft?_finalize_of_ne (h : v ≠ w) : (m.finalize w).draft? v = m.draft? v := by
  rw [finalize]
  split
  · rfl
  · exact draft?_abort_of_ne h

theorem opened_finalize (m : MemoryStore) (w : Writer) : (m.finalize w).opened = m.opened := by
  rw [finalize]
  split <;> rfl

theorem get?_finalize (h : m.draft? w = some (p, chunk)) :
    (m.finalize w).get? q = if q = p then some chunk else m.get? q := by
  have hblobs : (m.finalize w).get? q = m.stock.publish w q := congrFun (m.blobs_finalize w) q
  rw [hblobs, Stock.publish_eq h, Function.update_apply]
  rfl

/-- What the reader of a key is told. -/
def found (m : MemoryStore) (bucket : String) (k : Key) : Except Fault Source :=
  match m.get? (.ofKey k) with
  | some bytes => .ok (.ofBytes bytes)
  | none => .error (.objectNotFound bucket k.text)

/-- What a call does to the store, and what it replies. A write that is not accepted has done
nothing. -/
def Serves (bucket : String) : Effects MemoryStore
  | m, .exists k, r, m' => r = .ok (m.get? (.ofKey k)).isSome ∧ m' = m
  | m, .openReader k, r, m' => r = m.found bucket k ∧ m' = m
  | m, .openWriter k, r, m' =>
      r = .ok (m.openWriter (.ofKey k)).1 ∧ m' = (m.openWriter (.ofKey k)).2
  | m, .write w chunk, .accepted, m' => m' = m.write w chunk
  | m, .finalize w, r, m' => r = .ok () ∧ m' = m.finalize w
  | m, .abort w, r, m' => r = .ok () ∧ m' = m.abort w
  | m, _, _, m' => m' = m

theorem nodup_of_serves {c : Call} {r : Reply c} (h : Serves bucket m c r m')
    (hm : m.paths.Nodup) : m'.paths.Nodup := by
  cases c with
  | «exists» | openReader | openWriter | abort =>
    obtain ⟨_, rfl⟩ := h
    exact hm
  | write =>
    cases r <;>
    · obtain rfl := h
      exact hm
  | finalize w =>
    obtain ⟨_, rfl⟩ := h
    exact nodup_finalize hm w
  | _ =>
    obtain rfl := h
    exact hm

/-- The store `m` is what `m₀` has become by the steps of `past`. -/
structure Recorded (m₀ : MemoryStore) (past : List Step) (m : MemoryStore) : Prop where
  blobs : ∀ k, m.get? (.ofKey k) = (published? past k.parts).or (m₀.get? (.ofKey k))
  others : ∀ p, (∀ k, p ≠ .ofKey k) → m.get? p = m₀.get? p
  drafts : ∀ w k, keyOf? past w = some k → w ∉ ended past →
    m.draft? w = some (.ofKey k, written past w)
  openings : ∀ w k, ⟨.openWriter k, .ok w⟩ ∈ past → keyOf? past w = some k ∧ w.id < m.opened
  used : ∀ s ∈ past, ∀ w ∈ s.writer?, (keyOf? past w).isSome

theorem recorded_nil (m : MemoryStore) : Recorded m [] m where
  blobs _ := rfl
  others _ _ := rfl
  drafts w k h := by cases h
  openings w k h := by cases h
  used s hs := by cases hs

/-- A step by which no writer is opened uses an open one only. -/
theorem Recorded.frame (h : Recorded m₀ past m) (hs : s.opening? = none) (hallowed : Allowed past s)
    (hopened : m'.opened = m.opened) :
    (∀ w k, ⟨.openWriter k, .ok w⟩ ∈ past ++ [s] →
      keyOf? (past ++ [s]) w = some k ∧ w.id < m'.opened) ∧
    ∀ t ∈ past ++ [s], ∀ w ∈ t.writer?, (keyOf? (past ++ [s]) w).isSome := by
  refine ⟨fun w k hmem => ?_, fun t ht w hw => ?_⟩
  · rw [keyOf?_concat_of_no_opening hs, hopened]
    rcases List.mem_append.mp hmem with hmem | hmem
    · exact h.openings w k hmem
    · rw [← List.mem_singleton.mp hmem] at hs
      cases hs
  · rw [keyOf?_concat_of_no_opening hs]
    rcases List.mem_append.mp ht with ht | ht
    · exact h.used t ht w hw
    · obtain rfl := List.mem_singleton.mp ht
      exact (hallowed w hw).1

theorem Recorded.quiet (h : Recorded m₀ past m) (hallowed : Allowed past s)
    (hopening : s.opening? = none) (haccepted : s.accepted? = none)
    (hfinalized : s.finalized? = none) (hget : m'.get? = m.get?) (hopened : m'.opened = m.opened)
    (hdraft : ∀ w, s.ended? ≠ some w → m'.draft? w = m.draft? w) :
    Recorded m₀ (past ++ [s]) m' := by
  have hkey : ∀ w, keyOf? (past ++ [s]) w = keyOf? past w :=
    fun w => keyOf?_concat_of_no_opening hopening
  have hwritten : ∀ w, written (past ++ [s]) w = written past w :=
    fun w => written_concat_of_not_accepted haccepted
  have hpublished : published? (past ++ [s]) = published? past :=
    published?_concat_of_not_finalized hfinalized fun w _ => ⟨hkey w, hwritten w⟩
  obtain ⟨hopenings, hused⟩ := h.frame hopening hallowed hopened
  refine ⟨fun k => ?_, fun p hp => ?_, fun w k hw hopen => ?_, hopenings, hused⟩
  · rw [hpublished, hget, h.blobs k]
  · rw [hget, h.others p hp]
  · rw [hkey] at hw
    rw [ended_append, List.mem_append, not_or] at hopen
    rw [hwritten, hdraft w fun hended => hopen.2 (List.mem_filterMap.mpr ⟨s, by simp, hended⟩),
      h.drafts w k hw hopen.1]

/-- A new writer has a number that no writer has had, so nothing has been written by it yet. -/
theorem Recorded.fresh (h : Recorded m₀ past m) :
    keyOf? past ⟨m.opened⟩ = none ∧ ∀ s ∈ past, s.writer? ≠ some ⟨m.opened⟩ := by
  have hnone : keyOf? past ⟨m.opened⟩ = none := by
    refine Option.eq_none_iff_forall_ne_some.mpr fun k hk => ?_
    have hless : m.opened < m.opened := (h.openings _ k (mem_of_keyOf? hk)).2
    exact Nat.lt_irrefl _ hless
  refine ⟨hnone, fun s hs hw => ?_⟩
  have hopened := h.used s hs _ hw
  rw [hnone] at hopened
  cases hopened

theorem Recorded.openWriter (h : Recorded m₀ past m) (k : Key) :
    Recorded m₀ (past ++ [⟨.openWriter k, .ok ⟨m.opened⟩⟩]) (m.openWriter (.ofKey k)).2 := by
  let s : Step := ⟨.openWriter k, .ok ⟨m.opened⟩⟩
  obtain ⟨hnew, hunused⟩ := h.fresh
  have hself : keyOf? (past ++ [s]) ⟨m.opened⟩ = some k := keyOf?_concat_opening_self hnew
  have hkept : ∀ w l, keyOf? past w = some l → keyOf? (past ++ [s]) w = some l :=
    fun w l hl => keyOf?_append_of_some hl
  have hwritten : ∀ w, written (past ++ [s]) w = written past w :=
    fun w => written_concat_of_not_accepted rfl
  have hended : ended (past ++ [s]) = ended past := ended_concat_of_not_ended rfl
  have hpublished : published? (past ++ [s]) = published? past := by
    refine published?_concat_of_not_finalized rfl fun w hw => ⟨?_, hwritten w⟩
    exact keyOf?_append_of_isSome (h.used _ (mem_finalized_iff.mp hw) w rfl)
  refine ⟨fun l => ?_, fun p hp => ?_, fun w l hw hopen => ?_, fun w l hmem => ?_,
    fun t ht w hw => ?_⟩
  · rw [hpublished, get?_openWriter, h.blobs l]
  · rw [get?_openWriter, h.others p hp]
  · rw [hended] at hopen
    rw [hwritten]
    by_cases hnumber : w = ⟨m.opened⟩
    · subst hnumber
      obtain rfl : k = l := Option.some.inj (hself.symm.trans hw)
      rw [written_of_unused hunused]
      exact (m.stock_openWriter (.ofKey k)).2
    · rw [keyOf?_concat_opening_of_ne hnumber] at hw
      have hid : w.id ≠ m.opened := fun hid => hnumber (congrArg Writer.mk hid)
      rw [draft?_openWriter_of_ne hid, h.drafts w l hw hopen]
  · rcases List.mem_append.mp hmem with hmem | hmem
    · obtain ⟨hkey, hless⟩ := h.openings w l hmem
      exact ⟨hkept w l hkey, Nat.lt_succ_of_lt hless⟩
    · cases List.mem_singleton.mp hmem
      exact ⟨hself, Nat.lt_succ_self _⟩
  · rcases List.mem_append.mp ht with ht | ht
    · obtain ⟨l, hl⟩ := Option.isSome_iff_exists.mp (h.used t ht w hw)
      rw [hkept w l hl]
      rfl
    · rw [List.mem_singleton.mp ht] at hw
      cases hw

theorem Recorded.write (h : Recorded m₀ past m)
    (hallowed : Allowed past ⟨.write w chunk, .accepted⟩) :
    Recorded m₀ (past ++ [⟨.write w chunk, .accepted⟩]) (m.write w chunk) := by
  let s : Step := ⟨.write w chunk, .accepted⟩
  obtain ⟨_, hlive⟩ := hallowed w rfl
  have hkey : ∀ v, keyOf? (past ++ [s]) v = keyOf? past v :=
    fun v => keyOf?_concat_of_no_opening rfl
  have hother : ∀ v, v ≠ w → written (past ++ [s]) v = written past v :=
    fun v hv => written_concat_of_ne fun heq => hv (Option.some.inj heq).symm
  have hended : ended (past ++ [s]) = ended past := ended_concat_of_not_ended rfl
  have hpublished : published? (past ++ [s]) = published? past := by
    refine published?_concat_of_not_finalized rfl fun v hv => ⟨hkey v, hother v ?_⟩
    rintro rfl
    exact hlive (mem_ended_of_mem_finalized hv)
  have hopened : (m.write w chunk).opened = m.opened := rfl
  obtain ⟨hopenings, hused⟩ := h.frame rfl hallowed hopened
  refine ⟨fun l => ?_, fun p hp => ?_, fun v l hv hopen => ?_, hopenings, hused⟩
  · rw [hpublished, get?_write, h.blobs l]
  · rw [get?_write, h.others p hp]
  · rw [hkey] at hv
    rw [hended] at hopen
    by_cases heq : v = w
    · subst heq
      have hgrown : (m.write v chunk).draft? v =
          (m.draft? v).map fun draft => (draft.1, draft.2 ++ chunk) := (m.stock_write v chunk).2
      rw [written_concat_write, hgrown, h.drafts v l hv hopen]
      rfl
    · rw [draft?_write_of_ne heq, hother v heq, h.drafts v l hv hopen]

theorem Recorded.finalize (h : Recorded m₀ past m) (hallowed : Allowed past ⟨.finalize w, .ok ()⟩) :
    Recorded m₀ (past ++ [⟨.finalize w, .ok ()⟩]) (m.finalize w) := by
  obtain ⟨hopen, hlive⟩ := hallowed w rfl
  obtain ⟨l, hl⟩ := Option.isSome_iff_exists.mp hopen
  have hget := fun q => get?_finalize (q := q) (h.drafts w l hl hlive)
  obtain ⟨hopenings, hused⟩ := h.frame rfl hallowed (m.opened_finalize w)
  refine ⟨fun k => ?_, fun p hp => ?_, fun v k hv hopen => ?_, hopenings, hused⟩
  · rw [hget, published?_concat_finalize hl, h.blobs k]
    simp only [StorePath.ofKey_eq_iff, eq_comm (a := StorePath.split k.text)]
    change (if l.parts = k.parts then _ else _) = _
    split <;> rfl
  · rw [hget, if_neg (hp l), h.others p hp]
  · rw [keyOf?_concat_of_no_opening rfl] at hv
    rw [ended_append, List.mem_append, not_or] at hopen
    have hne : v ≠ w := by
      rintro rfl
      exact hopen.2 (by simp [ended, Step.ended?])
    rw [draft?_finalize_of_ne hne, written_concat_of_not_accepted rfl, h.drafts v k hv hopen.1]

/-- Every call that uses open writers only keeps the record. -/
theorem Recorded.step (h : Recorded m₀ past m) (hallowed : Allowed past s)
    (hserves : Serves bucket m s.call s.reply m') : Recorded m₀ (past ++ [s]) m' := by
  obtain ⟨c, r⟩ := s
  cases c with
  | «exists» | openReader =>
    obtain ⟨_, rfl⟩ := hserves
    exact h.quiet hallowed rfl rfl rfl rfl rfl fun _ _ => rfl
  | openWriter k =>
    obtain ⟨rfl, rfl⟩ := hserves
    exact h.openWriter k
  | write w chunk =>
    cases r with
    | accepted =>
      obtain rfl := hserves
      exact h.write hallowed
    | failed | interrupted =>
      obtain rfl := hserves
      exact h.quiet hallowed rfl rfl rfl rfl rfl fun _ _ => rfl
  | finalize w =>
    obtain ⟨rfl, rfl⟩ := hserves
    exact h.finalize hallowed
  | abort w =>
    obtain ⟨rfl, rfl⟩ := hserves
    exact h.quiet hallowed rfl rfl rfl rfl rfl fun v hv =>
      draft?_abort_of_ne fun heq => hv (congrArg some heq.symm)
  | _ =>
    obtain rfl := hserves
    exact h.quiet hallowed rfl rfl rfl rfl rfl fun _ _ => rfl

/-- A history that uses open writers only is a record of what the store has become. -/
theorem Recorded.along (h : Recorded m₀ past m) (howned : Owned past steps)
    (halong : Along (Serves bucket) m steps m') : Recorded m₀ (past ++ steps) m' := by
  induction halong generalizing past with
  | nil => simpa using h
  | @cons m m₁ m' c r steps hserves _ ih =>
    have hnext := ih (h.step howned.1 hserves) howned.2
    rwa [List.append_assoc, List.singleton_append] at hnext

end MemoryStore

namespace Host

variable {h h' : Host} {m m' : MemoryStore} {bucket : String} {steps : List Step}

/-- What a call does to the machine, and what it replies. -/
def Answers : Effects Host := fun h c r h' => h.answer c = (r, h')

/-- As long as no other store is connected, the machine's store is served as one in memory is. -/
theorem serves_memory {c : Call} (hvault : h.vault = ⟨bucket, .memory m⟩)
    (hc : ∀ store, c ≠ .connect store) : ∃ m', (h.answer c).2.vault = ⟨bucket, .memory m'⟩ ∧
      MemoryStore.Serves bucket m c (h.answer c).1 m' := by
  cases c with
  | connect store => exact absurd rfl (hc store)
  | «exists» k =>
    simp only [answer, hvault, Vault.contains]
    exact ⟨m, rfl, rfl, rfl⟩
  | openReader k =>
    simp only [answer, hvault, Vault.openReader]
    exact ⟨m, rfl, rfl, rfl⟩
  | openWriter k =>
    simp only [answer, hvault, Vault.openWriter]
    exact ⟨_, rfl, rfl, rfl⟩
  | write w chunk =>
    simp only [answer, hvault, Vault.write]
    exact ⟨_, rfl, rfl⟩
  | finalize w =>
    simp only [answer, hvault, Vault.finalize]
    exact ⟨_, rfl, rfl, rfl⟩
  | abort w =>
    simp only [answer, hvault, Vault.abort]
    exact ⟨_, rfl, rfl, rfl⟩
  | list =>
    simp only [answer, hvault, Vault.list]
    exact ⟨m, rfl, rfl⟩
  | createStaging dir =>
    refine ⟨m, ?_, rfl⟩
    simp only [answer, createStaging]
    split <;> exact hvault
  | removeFile path =>
    refine ⟨m, ?_, rfl⟩
    simp only [answer, removeFile]
    split <;> exact hvault
  | spawn command =>
    refine ⟨m, ?_, rfl⟩
    simp only [answer, spawn]
    split
    · exact hvault
    · split <;> exact hvault
  | offer chunk =>
    refine ⟨m, ?_, rfl⟩
    simp only [answer, offer]
    split
    · exact hvault
    · split
      · simp only [overflow]
        split <;> exact hvault
      · exact hvault
  | wait =>
    refine ⟨m, ?_, rfl⟩
    simp only [answer, wait]
    split
    · exact hvault
    · split
      · exact hvault
      · split <;> split <;> exact hvault
  | _ => exact ⟨m, hvault, rfl⟩

theorem along_memory (hvault : h.vault = ⟨bucket, .memory m⟩)
    (hstay : ∀ s ∈ steps, ∀ store, s.call ≠ .connect store) (halong : Along Answers h steps h') :
    ∃ m', Along (MemoryStore.Serves bucket) m steps m' := by
  obtain ⟨m', hm', _⟩ := halong.simulates (R := fun h m => h.vault = ⟨bucket, .memory m⟩) hvault
    fun s hs {u v x} hx hanswer => by
      obtain ⟨y, hy, hserves⟩ := serves_memory hx (hstay s hs)
      rw [show u.answer s.call = (s.reply, v) from hanswer] at hy hserves
      exact ⟨y, hserves, hy⟩
  exact ⟨m', hm'⟩

end Host

/-- In this history of a bucket the store is a map from the parts of keys to what the writer that
was finalized last under them has taken in. -/
structure ServesMap (bucket : String) (steps : List Step) : Prop where
  exists_eq : ∀ before k r after, steps = before ++ ⟨.exists k, r⟩ :: after →
    r = .ok (published? before k.parts).isSome
  openReader_eq : ∀ before k r after, steps = before ++ ⟨.openReader k, r⟩ :: after →
    r = match published? before k.parts with
      | some bytes => .ok (.ofBytes bytes)
      | none => .error (.objectNotFound bucket k.text)
  /-- Something is published exactly if a writer of these parts has been finalized. -/
  published_iff : ∀ before after, steps = before ++ after → ∀ parts,
    (published? before parts).isSome ↔ ∃ w k, ⟨.openWriter k, .ok w⟩ ∈ before ∧ k.parts = parts ∧
      ⟨.finalize w, .ok ()⟩ ∈ before
  /-- Writers that are not finalized and those of other parts leave no trace. -/
  unaffected : ∀ before after, steps = before ++ after → ∀ (parts : List String)
    (keep : Writer → Bool), (∀ w k, ⟨.openWriter k, .ok w⟩ ∈ before → k.parts = parts →
      ⟨.finalize w, .ok ()⟩ ∈ before → keep w = true) →
    published? (about keep before) parts = published? before parts

namespace MemoryStore

variable {m₀ m m' : MemoryStore} {bucket : String} {past steps : List Step} {parts : List String}

theorem Recorded.isSome_published?_iff (h : Recorded m₀ past m) :
    (published? past parts).isSome ↔ ∃ w k, ⟨.openWriter k, .ok w⟩ ∈ past ∧ k.parts = parts ∧
      ⟨.finalize w, .ok ()⟩ ∈ past := by
  rw [DumpVault.isSome_published?_iff]
  constructor
  · rintro ⟨w, hw, k, hk, hparts⟩
    exact ⟨w, k, mem_of_keyOf? hk, hparts, mem_finalized_iff.mp hw⟩
  · rintro ⟨w, k, hopening, hparts, hfinalize⟩
    exact ⟨w, mem_finalized_iff.mpr hfinalize, k, (h.openings w k hopening).1, hparts⟩

theorem servesMap_of_along (halong : Along (Serves bucket) {} steps m') (howned : Owned [] steps) :
    ServesMap bucket steps := by
  have hrecorded : ∀ before after, steps = before ++ after →
      ∃ m, Recorded {} before m ∧ Along (Serves bucket) m after m' := by
    rintro before after rfl
    obtain ⟨m, hbefore, hafter⟩ := along_append.mp halong
    exact ⟨m, (recorded_nil {}).along (owned_append.mp howned).1 hbefore, hafter⟩
  have hempty : ∀ p, ({} : MemoryStore).get? p = none := fun _ => rfl
  refine ⟨?_, ?_, ?_, ?_⟩
  · intro before k r after hsteps
    obtain ⟨m, hm, hafter⟩ := hrecorded _ _ hsteps
    obtain ⟨_, ⟨rfl, _⟩, _⟩ := along_cons.mp hafter
    rw [hm.blobs, hempty, Option.or_none]
  · intro before k r after hsteps
    obtain ⟨m, hm, hafter⟩ := hrecorded _ _ hsteps
    obtain ⟨_, ⟨rfl, _⟩, _⟩ := along_cons.mp hafter
    rw [found, hm.blobs, hempty, Option.or_none]
  · intro before after hsteps parts
    obtain ⟨m, hm, _⟩ := hrecorded _ _ hsteps
    exact hm.isSome_published?_iff
  · intro before after hsteps parts keep hkeep
    refine published?_about fun w hw k hk hparts => ?_
    exact hkeep w k (mem_of_keyOf? hk) hparts (mem_finalized_iff.mp hw)

end MemoryStore

/-- However the calls on any number of writers of a fresh store in memory follow each other, the
store is a map: a key is answered for by the writer finalized last under its parts, by all that this
writer has taken in, and by nothing else. -/
theorem memory_serves_map {h h' : Host} {bucket : String} {steps : List Step}
    (hfresh : h.vault = ⟨bucket, .memory {}⟩) (halong : Along Host.Answers h steps h')
    (hstay : ∀ s ∈ steps, ∀ store, s.call ≠ .connect store) (howned : Owned [] steps) :
    ServesMap bucket steps := by
  obtain ⟨m', hm'⟩ := Host.along_memory hfresh hstay halong
  exact MemoryStore.servesMap_of_along hm' howned

/-- Of two writers open at once under keys of the same parts, the one finalized last is read, whole
though the other was finalized between its writes. -/
theorem memory_serves_map_two_writers :
    let a : Key := ⟨"a//b", by decide⟩
    let b : Key := ⟨"/a/b", by decide⟩
    let calls : List Call := [.openWriter a, .openWriter b, .write ⟨0⟩ ⟨#[1]⟩, .write ⟨1⟩ ⟨#[2]⟩,
      .finalize ⟨1⟩, .write ⟨0⟩ ⟨#[3]⟩, .finalize ⟨0⟩, .openReader b]
    let client : Prog Unit := calls.foldr (fun c rest => .call c fun _ => rest) (.pure ())
    let steps := client.course Host.answer default
    Owned [] steps ∧ ServesMap "" steps ∧ ∃ before r,
      steps = before ++ [⟨.openReader b, r⟩] ∧ r = .ok (.ofBytes ⟨#[1, 3]⟩) := by
  intro a b calls client steps
  have hstay : ∀ s ∈ steps, ∀ store, s.call ≠ .connect store := by
    intro s hs store
    simp only [steps, client, calls, List.foldr, course, List.mem_cons, List.not_mem_nil,
      or_false] at hs
    rcases hs with rfl | rfl | rfl | rfl | rfl | rfl | rfl | rfl <;> simp
  have howned : Owned [] steps := by decide +kernel
  have halong : Along Host.Answers default steps (client.run Host.answer default).2 :=
    along_course Host.answer (fun _ _ => rfl) client default
  have hmap : ServesMap "" steps := memory_serves_map (h := default) rfl halong hstay howned
  have hpublished : published? (steps.take 7) b.parts = some ⟨#[1, 3]⟩ := by decide +kernel
  refine ⟨howned, hmap, steps.take 7, _, rfl, ?_⟩
  rw [hmap.openReader_eq (steps.take 7) b _ [] rfl, hpublished]

end DumpVault
